import CodeAtlas.Data.Basic
import CodeAtlas.Data.Number

/-! # Scalars of TOML

Strings, numbers, dates and times of TOML 1.0. A scanner takes the characters from where a value
starts and answers the value with the characters after it, or nothing if there is none.
-/

namespace CodeAtlas.Toml

abbrev Scanner (α : Type) := List Char → Option (α × List Char)

/-- Why a document cannot be read. -/
inductive ReadError where
  | malformed
  | tooManyDigits (count : Nat)
deriving DecidableEq, Repr

/-- A scanner that says why it fails. -/
abbrev Reader (α : Type) := List Char → Except ReadError (α × List Char)

/-- What has to be there. -/
def expect {α : Type} : Option α → Except ReadError α
  | some found => .ok found
  | none => .error .malformed

def isControl (c : Char) : Bool := c.toNat < 0x20 || c.toNat == 0x7F

/-- Control characters are illegal in strings and comments, a tab apart. -/
def isIllegal (c : Char) : Bool := isControl c && c != '\t'

/-- In strings of several lines newlines are allowed as well. -/
def isIllegalInLines (c : Char) : Bool := isIllegal c && c != '\n'

def isBlank (c : Char) : Bool := c == ' ' || c == '\t'

def isBlankOrNewline (c : Char) : Bool := isBlank c || c == '\n'

def skipBlanks (cs : List Char) : List Char := cs.dropWhile isBlank

/-- The characters after a text that stands at the start. -/
def after? : (word : List Char) → List Char → Option (List Char)
  | [], rest => some rest
  | _ :: _, [] => none
  | w :: word, c :: rest => if w == c then after? word rest else none

def hexValue? (c : Char) : Option Nat :=
  if c.isDigit then some (c.toNat - 48)
  else if 'a' ≤ c && c ≤ 'f' then some (c.toNat - 87)
  else if 'A' ≤ c && c ≤ 'F' then some (c.toNat - 55)
  else none

/-- The character with the code that a number of hexadecimal digits write. -/
def hexChar? (width code : Nat) : Scanner Char :=
  match width with
  | 0 => fun rest => if code.isValidChar then some (Char.ofNat code, rest) else none
  | width + 1 => fun cs =>
    match cs with
    | [] => none
    | c :: rest =>
      match hexValue? c with
      | some digit => hexChar? width (code * 16 + digit) rest
      | none => none

/-- The character that an escape stands for, read after the backslash. -/
def escape? : Scanner Char
  | 'b' :: rest => some ('\x08', rest)
  | 't' :: rest => some ('\t', rest)
  | 'n' :: rest => some ('\n', rest)
  | 'f' :: rest => some ('\x0c', rest)
  | 'r' :: rest => some ('\r', rest)
  | '\x22' :: rest => some ('\x22', rest)
  | '\\' :: rest => some ('\\', rest)
  | 'u' :: rest => hexChar? 4 0 rest
  | 'U' :: rest => hexChar? 8 0 rest
  | _ => none

/-- Put a character before the text that a scan found. -/
def consTo (c : Char) : Option (List Char × List Char) → Option (List Char × List Char)
  | some (text, rest) => some (c :: text, rest)
  | none => none

/-- A string of one line with escapes, read after its opening quote. -/
def basicString : (fuel : Nat) → Scanner (List Char)
  | 0, _ => none
  | _, [] => none
  | fuel + 1, c :: rest =>
    if c == '\x22' then some ([], rest)
    else if c == '\\' then
      match escape? rest with
      | some (c, rest) => consTo c (basicString fuel rest)
      | none => none
    else if isIllegal c then none
    else consTo c (basicString fuel rest)

/-- What a backslash at the end of a line skips: blanks up to the newline, and all blanks and
newlines after it. -/
def lineEnd? (cs : List Char) : Option (List Char) :=
  match skipBlanks cs with
  | '\n' :: rest => some (rest.dropWhile isBlankOrNewline)
  | _ => none

/-- Up to two more quotes may stand right before the closing ones. -/
def closing (quote : Char) (cs : List Char) : List Char × List Char :=
  match cs with
  | c :: d :: rest =>
    if c == quote then if d == quote then ([c, d], rest) else ([c], d :: rest) else ([], cs)
  | [c] => if c == quote then ([c], []) else ([], cs)
  | [] => ([], [])

/-- A string of several lines with escapes, read after its opening quotes. -/
def basicLines : (fuel : Nat) → Scanner (List Char)
  | 0, _ => none
  | _, [] => none
  | fuel + 1, c :: rest =>
    if c == '\x22' then
      match after? ['\x22', '\x22'] rest with
      | some rest => some (closing '\x22' rest)
      | none => consTo c (basicLines fuel rest)
    else if c == '\\' then
      match rest with
      | d :: _ =>
        if isBlankOrNewline d then
          match lineEnd? rest with
          | some rest => basicLines fuel rest
          | none => none
        else
          match escape? rest with
          | some (c, rest) => consTo c (basicLines fuel rest)
          | none => none
      | [] => none
    else if isIllegalInLines c then none
    else consTo c (basicLines fuel rest)

/-- A string without escapes, read after its opening quote. -/
def literalString : Scanner (List Char)
  | [] => none
  | c :: rest =>
    if c == '\x27' then some ([], rest)
    else if isIllegal c then none
    else consTo c (literalString rest)

def literalLines : Scanner (List Char)
  | [] => none
  | c :: rest =>
    if c == '\x27' then
      match after? ['\x27', '\x27'] rest with
      | some rest => some (closing '\x27' rest)
      | none => consTo c (literalLines rest)
    else if isIllegalInLines c then none
    else consTo c (literalLines rest)

/-- A newline right after the opening quotes does not count. -/
def skipNewline : List Char → List Char
  | '\n' :: rest => rest
  | cs => cs

/-- A string of any of the four forms. -/
def string? (cs : List Char) : Option (List Char × List Char) :=
  match cs with
  | '\x22' :: rest =>
    match after? ['\x22', '\x22'] rest with
    | some lines => basicLines cs.length (skipNewline lines)
    | none => basicString cs.length rest
  | '\x27' :: rest =>
    match after? ['\x27', '\x27'] rest with
    | some lines => literalLines (skipNewline lines)
    | none => literalString rest
  | _ => none

/-- Further digits, each of which an underscore may precede. -/
def moreDigits (isDigit : Char → Bool) : List Char → List Char × List Char
  | '_' :: c :: rest =>
    if isDigit c then ((c :: (moreDigits isDigit rest).1), (moreDigits isDigit rest).2)
    else ([], '_' :: c :: rest)
  | c :: rest =>
    if isDigit c then ((c :: (moreDigits isDigit rest).1), (moreDigits isDigit rest).2)
    else ([], c :: rest)
  | [] => ([], [])

/-- One digit or more. -/
def digits? (isDigit : Char → Bool) : Scanner (List Char)
  | c :: rest =>
    if isDigit c then
      let more := moreDigits isDigit rest
      some (c :: more.1, more.2)
    else none
  | [] => none

def valueIn (base : Nat) (digits : List Char) : Nat :=
  digits.foldl (fun value c => value * base + (hexValue? c).getD 0) 0

/-- A whole number in base sixteen, eight or two. -/
def basedInteger? : Scanner Nat
  | '0' :: 'x' :: rest =>
    (digits? (fun c => (hexValue? c).isSome) rest).map fun found => (valueIn 16 found.1, found.2)
  | '0' :: 'o' :: rest =>
    (digits? (fun c => '0' ≤ c && c ≤ '7') rest).map fun found => (valueIn 8 found.1, found.2)
  | '0' :: 'b' :: rest =>
    (digits? (fun c => c == '0' || c == '1') rest).map fun found => (valueIn 2 found.1, found.2)
  | _ => none

/-- The floating-point number nearest to `mantissa * 10 ^ exponent`. Numbers that are out of range
by their number of digits are not computed. -/
def decimal (mantissa : Nat) (exponent : Int) : Float :=
  let magnitude := exponent + (Nat.toDigits 10 mantissa).length
  if mantissa = 0 || magnitude < -330 then 0.0
  else if 310 < magnitude then 1.0 / 0.0
  else if 0 ≤ exponent then Float.ofScientific (mantissa * Nat.pow 10 exponent.toNat) false 0
  else Float.ofScientific mantissa true (-exponent).toNat

/-- The digits of a fraction after their point. -/
def fraction : List Char → List Char × List Char
  | '.' :: rest => (digits? Char.isDigit rest).getD ([], '.' :: rest)
  | cs => ([], cs)

def takeSign : List Char → Bool × List Char
  | '-' :: rest => (true, rest)
  | '+' :: rest => (false, rest)
  | cs => (false, cs)

/-- The power of ten after its mark. -/
def power? : Scanner Int
  | c :: rest =>
    if c == 'e' || c == 'E' then
      let (negative, rest) := takeSign rest
      (digits? Char.isDigit rest).map fun found =>
        let n : Int := valueIn 10 found.1
        (if negative then -n else n, found.2)
    else none
  | [] => none

/-- The whole part of a decimal number. A zero is followed by no other digit. -/
def wholePart? : Scanner (List Char)
  | '0' :: rest => some (['0'], rest)
  | cs => digits? Char.isDigit cs

/-- A number in base ten: a whole one, or a floating-point one if it has a fraction or a power. Only
whole ones are limited in their digits. -/
def decimalNumber (cs : List Char) : Except ReadError (Data × List Char) :=
  let (negative, unsigned) := takeSign cs
  match wholePart? unsigned with
  | none => .error .malformed
  | some (whole, rest) =>
    let (part, rest) := fraction rest
    let power := power? rest
    if part.isEmpty && power.isNone then
      if numeralLimit < whole.length then .error (.tooManyDigits whole.length)
      else
        let n : Int := valueIn 10 whole
        .ok (.int (if negative then -n else n), rest)
    else
      let (exponent, rest) := power.getD (0, rest)
      let x := decimal (valueIn 10 (whole ++ part)) (exponent - part.length)
      .ok (.real (if negative then -x else x), rest)

def special? (cs : List Char) : Option (Data × List Char) :=
  let (negative, word) := takeSign cs
  match after? ['i', 'n', 'f'] word, after? ['n', 'a', 'n'] word with
  | some rest, _ => some (.real (if negative then -(1.0 / 0.0) else 1.0 / 0.0), rest)
  | none, some rest => some (.real (0.0 / 0.0), rest)
  | none, none => none

def number (cs : List Char) : Except ReadError (Data × List Char) :=
  match basedInteger? cs, special? cs with
  | some (n, rest), _ => .ok (.int n, rest)
  | none, some found => .ok found
  | none, none => decimalNumber cs

/-- A number of exactly so many digits, between two bounds. -/
def fixed? (width low high : Nat) (cs : List Char) : Option (Nat × List Char) :=
  let digits := cs.take width
  let n := valueIn 10 digits
  if digits.length == width && digits.all Char.isDigit && low ≤ n && n ≤ high then
    some (n, cs.drop width)
  else none

/-- A time of day. Its seconds may have a fraction. -/
def timeOfDay? (cs : List Char) : Option (List Char) := do
  let (_, cs) ← fixed? 2 0 23 cs
  let cs ← after? [':'] cs
  let (_, cs) ← fixed? 2 0 59 cs
  let cs ← after? [':'] cs
  let (_, cs) ← fixed? 2 0 59 cs
  match cs with
  | '.' :: c :: rest => if c.isDigit then some (rest.dropWhile Char.isDigit) else some cs
  | _ => some cs

/-- The distance to universal time, if one is given. -/
def offset (cs : List Char) : List Char :=
  match cs with
  | c :: rest =>
    if c == 'Z' || c == 'z' then rest
    else if c == '+' || c == '-' then
      let found := do
        let (_, rest) ← fixed? 2 0 23 rest
        let rest ← after? [':'] rest
        let (_, rest) ← fixed? 2 0 59 rest
        return rest
      found.getD cs
    else cs
  | [] => []

def isLeapYear (year : Nat) : Bool := year % 4 == 0 && (year % 100 != 0 || year % 400 == 0)

def daysIn (year month : Nat) : Nat :=
  if month == 2 then if isLeapYear year then 29 else 28
  else if month == 4 || month == 6 || month == 9 || month == 11 then 30
  else 31

/-- The year, month and day of a date as written. -/
def date? (cs : List Char) : Option ((Nat × Nat × Nat) × List Char) := do
  let (year, cs) ← fixed? 4 0 9999 cs
  let cs ← after? ['-'] cs
  let (month, cs) ← fixed? 2 1 12 cs
  let cs ← after? ['-'] cs
  let (day, cs) ← fixed? 2 1 31 cs
  return ((year, month, day), cs)

/-- The characters after a time that follows a date, if one does. -/
def timeAfterDate (cs : List Char) : List Char :=
  match cs with
  | c :: rest =>
    if c == 'T' || c == 't' || c == ' ' then
      match timeOfDay? rest with
      | some rest => offset rest
      | none => cs
    else cs
  | [] => []

/-- A date, a time or both, or a date that the calendar does not have. -/
inductive Moment where
  | valid (rest : List Char)
  | invalid

def moment? (cs : List Char) : Option Moment :=
  match date? cs with
  | some ((year, month, day), rest) =>
    if year == 0 || daysIn year month < day then some .invalid
    else some (.valid (timeAfterDate rest))
  | none => (timeOfDay? cs).map .valid

end CodeAtlas.Toml
