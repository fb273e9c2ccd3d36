import CodeAtlas.Text.Blank

/-! # Whole numbers in data

Which floating-point numbers and which texts stand for whole numbers, and why the others do not.
-/

namespace CodeAtlas

/-- Why a number or a text is not taken for a whole number. -/
inductive NumberFault where
  | fraction
  | notFinite
  | outOfRange
  | malformed
deriving DecidableEq, Repr

/-- Whether a number fits into a signed word of 64 bits. -/
def fitsWord (n : Int) : Bool := -Int.pow 2 63 ≤ n && n < Int.pow 2 63

/-- The most digits of a number in base ten. -/
def numeralLimit : Nat := 4300

/-- The number `m * 2 ^ q`, where `q` is the exponent less 1075. -/
def scaledWhole (negative : Bool) (m exponent : Nat) : Except NumberFault Int :=
  let signed (n : Nat) : Int := if negative then -(n : Int) else n
  if 1075 ≤ exponent then .ok (signed (m * Nat.pow 2 (exponent - 1075)))
  else
    let unit := Nat.pow 2 (1075 - exponent)
    if m % unit = 0 then .ok (signed (m / unit)) else .error .fraction

/-- Sign, exponent and mantissa are read off the binary form. The number has to lie between the two
ends of the words, which are themselves excluded. -/
def wholeOfFloat (x : Float) : Except NumberFault Int :=
  let bits := x.toBits.toNat
  let negative := Nat.pow 2 63 ≤ bits
  let exponent := bits / Nat.pow 2 52 % Nat.pow 2 11
  let mantissa := bits % Nat.pow 2 52
  if exponent = 2047 then .error .notFinite
  else
    let found :=
      if exponent = 0 then scaledWhole negative mantissa 1
      else scaledWhole negative (mantissa + Nat.pow 2 52) exponent
    match found with
    | .ok n => if n.natAbs < Nat.pow 2 63 then .ok n else .error .outOfRange
    | .error fault => .error fault

namespace WholeText

/-- The first character of a number without leading zeros. -/
def isLeading (c : Char) : Bool := (c.isDigit && c != '0') || c == '-'

/-- Drop further zeros and underscores after a leading zero or underscore. The last of them stays if
the text ends there or a point follows. -/
def dropMoreZeros (last : Char) : List Char → Option (List Char)
  | [] => some [last]
  | c :: rest =>
    if c == '0' || c == '_' then dropMoreZeros c rest
    else if isLeading c then some (c :: rest)
    else if c == '.' then some (last :: c :: rest)
    else none

/-- Drop leading zeros, with the underscores among them. A minus sign may stand after them. -/
def dropZeros? : List Char → Option (List Char)
  | [] => none
  | c :: rest =>
    if c == '0' then dropMoreZeros c rest else if isLeading c then some (c :: rest) else none

/-- Drop a point with zeros and nothing else after it. -/
def dropFraction (cs : List Char) : List Char :=
  match cs.dropWhile (· != '.') with
  | _ :: zero :: zeros =>
    if (zero :: zeros).all (· == '0') then cs.takeWhile (· != '.') else cs
  | _ => cs

/-- Whether two underscores stand side by side. -/
def hasDouble : List Char → Bool
  | c :: d :: rest => (c == '_' && d == '_') || hasDouble (d :: rest)
  | _ => false

/-- Drop underscores, which have to be single ones inside the text. -/
def dropUnderscores? (cs : List Char) : Option (List Char) :=
  if cs.head? == some '_' || cs.getLast? == some '_' || hasDouble cs then none
  else some (cs.filter (· != '_'))

/-- Take the sign off a text. No minus sign may follow a plus sign. -/
def splitSign? : List Char → Option (Bool × List Char)
  | '+' :: '-' :: _ => none
  | '+' :: rest => some (false, rest)
  | '-' :: rest => some (true, rest)
  | cs => some (false, cs)

/-- The plain form of a number, with white space around it and a sign allowed. -/
def clean? (cs : List Char) : Option (List Char) := do
  let (negative, unsigned) ← splitSign? (trimBy isSpace cs)
  let whole ← dropZeros? unsigned
  let plain ← dropUnderscores? (dropFraction whole)
  return if negative then '-' :: plain else plain

def value (digits : List Char) : Nat :=
  digits.foldl (fun value c => value * 10 + (c.toNat - 48)) 0

/-- The number in its plain form: digits, the first of which is no zero unless it is the only one,
after a minus sign or none. Too many digits are out of range, whatever follows them. -/
def ofPlain (cs : List Char) : Except NumberFault Int :=
  let negative := cs.head? == some '-'
  let body := if negative then cs.drop 1 else cs
  let digits := body.takeWhile Char.isDigit
  if digits.isEmpty || (digits.head? == some '0' && digits.length != 1) then .error .malformed
  else if numeralLimit < digits.length then .error .outOfRange
  else if digits.length != body.length then .error .malformed
  else .ok (if negative then -(value digits : Int) else value digits)

end WholeText

/-- The whole number that a text writes, in its plain form or in one that has to be cleaned. Only in
plain form is a number found to be out of range. -/
def wholeOfText (text : String) : Except NumberFault Int :=
  match WholeText.ofPlain text.toList with
  | .error .malformed =>
    match (WholeText.clean? text.toList).map WholeText.ofPlain with
    | some (.ok n) => .ok n
    | _ => .error .malformed
  | found => found

end CodeAtlas
