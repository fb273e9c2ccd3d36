import CodeAtlas.Toml.Scalar

/-! # TOML documents

A document is a sequence of statements, which open tables and set keys. Tables that have been
declared cannot be declared again, and what was given as a single value cannot be added to.
-/

namespace CodeAtlas.Toml

abbrev Fields := List (String × Data)

/-- The way to a value: the keys from the root down. -/
abbrev Path := List String

def isBareKey (c : Char) : Bool := c.isAlphanum || c == '-' || c == '_'

/-- A comment up to the end of its line, if one starts here. -/
def skipComment? : List Char → Option (List Char)
  | '#' :: rest =>
    if (rest.takeWhile (· != '\n')).any isIllegal then none
    else some (rest.dropWhile (· != '\n'))
  | cs => some cs

/-- Skip blanks, newlines and comments between the items of an array. -/
def skipBetween? : (fuel : Nat) → List Char → Option (List Char)
  | 0, _ => none
  | fuel + 1, cs =>
    match cs.dropWhile isBlankOrNewline with
    | '#' :: rest => (skipComment? ('#' :: rest)).bind (skipBetween? fuel)
    | rest => some rest

def keyPart? (cs : List Char) : Option (String × List Char) :=
  match cs with
  | [] => none
  | c :: rest =>
    if isBareKey c then
      some (String.ofList (cs.takeWhile isBareKey), cs.dropWhile isBareKey)
    else if c == '\x27' then (literalString rest).map fun found => (String.ofList found.1, found.2)
    else if c == '\x22' then
      (basicString cs.length rest).map fun found => (String.ofList found.1, found.2)
    else none

/-- A key and the keys below it, divided by dots. -/
def key? : (fuel : Nat) → Scanner Path
  | 0, _ => none
  | fuel + 1, cs =>
    match keyPart? cs with
    | none => none
    | some (part, rest) =>
      match skipBlanks rest with
      | '.' :: rest => (key? fuel (skipBlanks rest)).map fun found => (part :: found.1, found.2)
      | rest => some ([part], rest)

/-- Change the value under a key, if there is one, and else add what is made of nothing. -/
def changeKey (key : String) (change : Option Data → Option Data) : Fields → Option Fields
  | [] => (change none).map fun value => [(key, value)]
  | field :: rest =>
    if field.1 = key then (change (some field.2)).map fun value => (key, value) :: rest
    else (changeKey key change rest).map (field :: ·)

/-- Change the last item of an array, which has to be a table. -/
def changeLast (change : Fields → Option Fields) : List Data → Option (List Data)
  | [] => none
  | [.record fields] => (change fields).map fun fields => [.record fields]
  | [_] => none
  | item :: rest => (changeLast change rest).map (item :: ·)

/-- Change the table at the end of a path, making tables where the path leads to none. In an array
of tables the last one is meant, where arrays may be entered. -/
def changeAt (enterArrays : Bool) (change : Fields → Option Fields) : Path → Fields → Option Fields
  | [] => change
  | key :: path =>
    changeKey key fun value =>
      match value with
      | none => (changeAt enterArrays change path []).map .record
      | some (.record fields) => (changeAt enterArrays change path fields).map .record
      | some (.list items) =>
        if enterArrays then (changeLast (changeAt enterArrays change path) items).map .list
        else none
      | some _ => none

/-- Set a key that is not there. -/
def setKey (key : String) (value : Data) : Fields → Option Fields :=
  changeKey key fun old => if old.isSome then none else some value

/-- Add an empty table to an array of tables. -/
def appendTable (key : String) : Fields → Option Fields :=
  changeKey key fun old =>
    match old with
    | none => some (.list [.record []])
    | some (.list items) => some (.list (items ++ [.record []]))
    | some _ => none

def isCollection : Data → Bool
  | .list _ | .record _ => true
  | _ => false

/-- Whether a path is one of some paths or leads below one. -/
def isBelow (paths : List Path) (path : Path) : Bool := paths.any (·.isPrefixOf path)

mutual

/-- A value of any kind. -/
def value : (fuel : Nat) → Reader Data
  | 0, _ => .error .malformed
  | _, [] => .error .malformed
  | fuel + 1, c :: rest =>
    let cs := c :: rest
    if c == '\x22' || c == '\x27' then
      (expect (string? cs)).map fun found => (.text (String.ofList found.1), found.2)
    else if c == '[' then
      match skipBetween? cs.length rest with
      | none => .error .malformed
      | some rest => (items fuel rest).map fun found => (.list found.1, found.2)
    else if c == '\x7b' then
      match skipBlanks rest with
      | '\x7d' :: rest => .ok (.record [], rest)
      | rest => (pairs fuel [] [] rest).map fun found => (.record found.1, found.2)
    else
      match after? ['t', 'r', 'u', 'e'] cs, after? ['f', 'a', 'l', 's', 'e'] cs with
      | some rest, _ => .ok (.bool true, rest)
      | none, some rest => .ok (.bool false, rest)
      | none, none =>
        match moment? cs with
        | some (.valid rest) => .ok (.moment, rest)
        | some .invalid => .error .malformed
        | none => number cs

/-- The items of an array up to its closing bracket. A comma may follow the last one. -/
def items : (fuel : Nat) → Reader (List Data)
  | 0, _ => .error .malformed
  | fuel + 1, cs =>
    match cs with
    | ']' :: rest => .ok ([], rest)
    | _ =>
      match value fuel cs with
      | .error e => .error e
      | .ok (item, rest) =>
        match skipBetween? cs.length rest with
        | some (']' :: rest) => .ok ([item], rest)
        | some (',' :: rest) =>
          match skipBetween? cs.length rest with
          | some rest => (items fuel rest).map fun found => (item :: found.1, found.2)
          | none => .error .malformed
        | _ => .error .malformed

/-- The pairs of an inline table up to its closing brace, after those in `fields`. -/
def pairs : (fuel : Nat) → (frozen : List Path) → (fields : Fields) → Reader Fields
  | 0, _, _, _ => .error .malformed
  | fuel + 1, frozen, fields, cs =>
    match pair fuel cs with
    | .error e => .error e
    | .ok ((path, value), rest) =>
      if isBelow frozen path then .error .malformed
      else
        match changeAt false (setKey (path.getLastD "") value) path.dropLast fields with
        | none => .error .malformed
        | some fields =>
          match skipBlanks rest with
          | '\x7d' :: rest => .ok (fields, rest)
          | ',' :: rest =>
            let frozen := if isCollection value then path :: frozen else frozen
            pairs fuel frozen fields (skipBlanks rest)
          | _ => .error .malformed

/-- A key and its value. -/
def pair : (fuel : Nat) → Reader (Path × Data)
  | 0, _ => .error .malformed
  | fuel + 1, cs =>
    match key? cs.length cs with
    | some (path, '=' :: rest) =>
      (value fuel (skipBlanks rest)).map fun found => ((path, found.1), found.2)
    | _ => .error .malformed

end

/-- A document as far as it has been read. -/
structure Document where
  fields : Fields := []
  /-- The table that statements set keys of. -/
  header : Path := []
  /-- Tables that cannot be declared again. -/
  declared : List Path := []
  /-- Tables made by dotted keys, which count as declared from the next header on. -/
  pending : List Path := []
  /-- Values that were given whole. -/
  frozen : List Path := []

namespace Document

/-- Set a key of the current table. -/
def set? (doc : Document) (path : Path) (value : Data) : Option Document :=
  let inner := (List.range (path.length - 1)).map fun n => doc.header ++ path.take (n + 1)
  let parent := doc.header ++ path.dropLast
  if inner.any doc.declared.contains || isBelow doc.frozen parent then none
  else
    match changeAt true (setKey (path.getLastD "") value) parent doc.fields with
    | none => none
    | some fields =>
      some { doc with
        fields
        pending := doc.pending ++ inner
        frozen := if isCollection value then (doc.header ++ path) :: doc.frozen else doc.frozen }

/-- Tables made by dotted keys are declared once another header comes. -/
def settle (doc : Document) : Document :=
  { doc with declared := doc.declared ++ doc.pending, pending := [] }

/-- Declare a table and make it the current one. -/
def openTable? (doc : Document) (path : Path) : Option Document :=
  if doc.declared.contains path || isBelow doc.frozen path then none
  else (changeAt true some path doc.fields).map fun fields =>
    { doc with fields, header := path, declared := path :: doc.declared }

/-- Add a table to an array of tables and make it the current one. What was declared in the table
before it may be declared anew. -/
def openItem? (doc : Document) (path : Path) : Option Document :=
  if isBelow doc.frozen path then none
  else (changeAt true (appendTable (path.getLastD "")) path.dropLast doc.fields).map fun fields =>
    { doc with
      fields
      header := path
      declared := path :: doc.declared.filter (!path.isPrefixOf ·)
      frozen := doc.frozen.filter (!path.isPrefixOf ·) }

/-- Read one statement other than an empty line, a comment or the end. -/
def statement (doc : Document) (cs : List Char) : Except ReadError (Document × List Char) :=
  match cs with
  | '[' :: '[' :: rest =>
    match key? cs.length (skipBlanks rest) with
    | some (path, ']' :: ']' :: rest) => expect ((doc.settle.openItem? path).map (·, rest))
    | _ => .error .malformed
  | '[' :: rest =>
    match key? cs.length (skipBlanks rest) with
    | some (path, ']' :: rest) => expect ((doc.settle.openTable? path).map (·, rest))
    | _ => .error .malformed
  | _ =>
    match pair (2 * cs.length + 2) cs with
    | .ok ((path, value), rest) => expect ((doc.set? path value).map (·, rest))
    | .error e => .error e

/-- Read statements, one a line, to the end. -/
def read : (fuel : Nat) → Document → List Char → Except ReadError Document
  | 0, _, _ => .error .malformed
  | fuel + 1, doc, cs =>
    match skipBlanks cs with
    | [] => .ok doc
    | '\n' :: rest => read fuel doc rest
    | '#' :: rest =>
      match skipComment? ('#' :: rest) with
      | some ('\n' :: rest) => read fuel doc rest
      | some [] => .ok doc
      | _ => .error .malformed
    | start =>
      match doc.statement start with
      | .error e => .error e
      | .ok (doc, rest) =>
        match skipComment? (skipBlanks rest) with
        | some ('\n' :: rest) => read fuel doc rest
        | some [] => .ok doc
        | _ => .error .malformed

end Document

/-- A carriage return before a newline does not count. -/
def joinNewlines : List Char → List Char
  | '\r' :: '\n' :: rest => '\n' :: joinNewlines rest
  | c :: rest => c :: joinNewlines rest
  | [] => []

/-- The fields of a document. -/
def parse (text : List Char) : Except ReadError Fields :=
  let cs := joinNewlines text
  (Document.read (cs.length + 1) {} cs).map Document.fields

end CodeAtlas.Toml
