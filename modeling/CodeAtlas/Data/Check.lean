import CodeAtlas.Data.Basic
import CodeAtlas.Data.Number

/-! # Checking data

A check turns data into a value of a known type or says what is wrong and where. All issues of
the parts are collected, in the order of the parts.
-/

namespace CodeAtlas

inductive IssueKind where
  | missing
  | stringType
  | intType
  | intParsing
  | intParsingSize
  | intFromFloat
  | finiteNumber
  | greaterThanEqual
  | boolType
  | boolParsing
  | literalError
  | enum
  | listType
  | setType
  | tupleType
  | tooLong
  | dictType
  | modelType
  | modelAttributesType
  | unionTagNotFound
  | unionTagInvalid
  | extraForbidden
  | frozenInstance
  | recursionDepthExceeded
deriving DecidableEq, Repr

def IssueKind.code : IssueKind → String
  | missing => "missing"
  | stringType => "string_type"
  | intType => "int_type"
  | intParsing => "int_parsing"
  | intParsingSize => "int_parsing_size"
  | intFromFloat => "int_from_float"
  | finiteNumber => "finite_number"
  | greaterThanEqual => "greater_than_equal"
  | boolType => "bool_type"
  | boolParsing => "bool_parsing"
  | literalError => "literal_error"
  | enum => "enum"
  | listType => "list_type"
  | setType => "set_type"
  | tupleType => "tuple_type"
  | tooLong => "too_long"
  | dictType => "dict_type"
  | modelType => "model_type"
  | modelAttributesType => "model_attributes_type"
  | unionTagNotFound => "union_tag_not_found"
  | unionTagInvalid => "union_tag_invalid"
  | extraForbidden => "extra_forbidden"
  | frozenInstance => "frozen_instance"
  | recursionDepthExceeded => "recursion_depth_exceeded"

def IssueKind.ofNumberFault : NumberFault → IssueKind
  | .fraction => intFromFloat
  | .notFinite => finiteNumber
  | .outOfRange => intParsingSize
  | .malformed => intParsing

/-- A part of a value: a field of a record or an item of a list. -/
inductive Part where
  | field (name : String)
  | item (index : Nat)
deriving DecidableEq, Repr

/-- What is wrong, and the way to the part that it is about. -/
structure Issue where
  kind : IssueKind
  path : List Part := []
deriving DecidableEq, Repr

/-- A value, or all that stands against it. -/
structure Checked (α : Type) where
  outcome : Except (List Issue) α

namespace Checked

variable {α β : Type}

def ok (value : α) : Checked α := ⟨.ok value⟩

def issue (kind : IssueKind) : Checked α := ⟨.error [{ kind }]⟩

/-- Both sides are checked, and the issues of both are kept. -/
def seq (f : Checked (α → β)) (x : Checked α) : Checked β :=
  match f.outcome, x.outcome with
  | .ok f, .ok x => ⟨.ok (f x)⟩
  | .ok _, .error issues => ⟨.error issues⟩
  | .error issues, .ok _ => ⟨.error issues⟩
  | .error issues, .error more => ⟨.error (issues ++ more)⟩

instance : Applicative Checked where
  pure := ok
  seq f x := f.seq (x ())

/-- A check of a part, seen from the whole. -/
def under (part : Part) (c : Checked α) : Checked α :=
  ⟨c.outcome.mapError (·.map fun issue => { issue with path := part :: issue.path })⟩

/-- Go on with a value that has been found. -/
def thenCheck (c : Checked α) (next : α → Checked β) : Checked β :=
  match c.outcome with
  | .ok value => next value
  | .error issues => ⟨.error issues⟩

end Checked

namespace Data

variable {α : Type}

def checkText : Data → Checked String
  | text value => .ok value
  | _ => .issue .stringType

def checkOptional (check : Data → Checked α) : Data → Checked (Option α)
  | null => .ok none
  | data => some <$> check data

/-- A whole number that has been found, or why there is none. -/
def checkWhole : Except NumberFault Int → Checked Int
  | .ok n => .ok n
  | .error fault => .issue (.ofNumberFault fault)

/-- Whole numbers may be given as truth values, floating-point numbers and texts. -/
def checkInt : Data → Checked Int
  | int value => .ok value
  | bool value => .ok (if value then 1 else 0)
  | real value => checkWhole (wholeOfFloat value)
  | text value => checkWhole (wholeOfText value)
  | _ => .issue .intType

def trueWords : List String := ["1", "t", "true", "y", "yes", "on"]

def falseWords : List String := ["0", "f", "false", "n", "no", "off"]

/-- Zero and one stand for truth values. -/
def checkBit (n : Int) : Checked Bool :=
  if n = 0 then .ok false else if n = 1 then .ok true else .issue .boolParsing

/-- Truth values may be given as numbers and words. Numbers that are not whole or do not fit into a
word are of a wrong type. -/
def checkBool : Data → Checked Bool
  | bool value => .ok value
  | int value => if fitsWord value then checkBit value else .issue .boolType
  | real value =>
    match wholeOfFloat value with
    | .ok n => checkBit n
    | .error _ => .issue .boolType
  | text value =>
    let word := String.ofList (value.toList.map Char.toLower)
    if trueWords.contains word then .ok true
    else if falseWords.contains word then .ok false
    else .issue .boolParsing
  | _ => .issue .boolType

/-- One of some words, each standing for a value. -/
def checkWord (kind : IssueKind) (value? : String → Option α) : Data → Checked α
  | text word =>
    match value? word with
    | some value => .ok value
    | none => .issue kind
  | _ => .issue kind

/-- Check the items of a list, the first of which has the given index. -/
def checkItems (check : Data → Checked α) : Nat → List Data → Checked (List α)
  | _, [] => .ok []
  | index, item :: rest =>
    List.cons <$> (check item).under (.item index) <*> checkItems check (index + 1) rest

def checkList (kind : IssueKind) (check : Data → Checked α) : Data → Checked (List α)
  | list items => checkItems check 0 items
  | _ => .issue kind

/-- A field that may be left out. -/
def checkField (fields : List (String × Data)) (name : String) (absent : α)
    (check : Data → Checked α) : Checked α :=
  match fields.lookup name with
  | none => .ok absent
  | some data => (check data).under (.field name)

/-- A field that has to be there. -/
def checkRequired (fields : List (String × Data)) (name : String) (check : Data → Checked α) :
    Checked α :=
  match fields.lookup name with
  | none => (Checked.issue .missing).under (.field name)
  | some data => (check data).under (.field name)

end Data

end CodeAtlas
