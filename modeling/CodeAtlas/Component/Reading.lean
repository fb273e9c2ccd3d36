import CodeAtlas.Component.Store
import CodeAtlas.Data.Check

/-! # Reading components from data

Components, invocations and type references as given by untyped data. A component comes with its
children, as a draft that has no identity until it is added to a store.
-/

namespace CodeAtlas

namespace TypeReference

def check : Data → Checked TypeReference
  | .record fields =>
    mk <$> Data.checkRequired fields "resolved_name" Data.checkText
      <*> Data.checkRequired fields "line" Data.checkInt
  | _ => .issue .modelType

end TypeReference

namespace AnnotationUse

def checkValue (entry : String × Data) : Checked (String × String) :=
  (Prod.mk entry.1 <$> entry.2.checkText).under (.field entry.1)

def checkValues : List (String × Data) → Checked (List (String × String))
  | [] => .ok []
  | entry :: rest => List.cons <$> checkValue entry <*> checkValues rest

def checkTable : Data → Checked (Table String)
  | .record fields => Table.ofList <$> checkValues fields
  | _ => .issue .dictType

/-- An element of a pair, which may be missing. -/
def checkElement {α : Type} (check : Data → Checked α) (index : Nat) (items : List Data) :
    Checked α :=
  match items[index]? with
  | some item => (check item).under (.item index)
  | none => (Checked.issue .missing).under (.item index)

/-- A pair of a name and a record of texts. -/
def check : Data → Checked AnnotationUse
  | .list items =>
    if 2 < items.length then .issue .tooLong
    else mk <$> checkElement Data.checkText 0 items <*> checkElement checkTable 1 items
  | _ => .issue .tupleType

end AnnotationUse

namespace Invocation

/-- The roles by name. Only annotations read element values. -/
def checkRole (fields : List (String × Data)) : String → Option (Checked Role)
  | "declaration" => some (.ok .declaration)
  | "extension" => some (.ok .extension)
  | "implementation" => some (.ok .implementation)
  | "exception" => some (.ok .exception)
  | "typeparameter" => some (.ok .typeParameter)
  | "annotation" => some (.annotated <$>
      Data.checkField fields "annotations" [] (Data.checkList .listType AnnotationUse.check))
  | "empty" => some (.ok .empty)
  | _ => none

def ofParts (target : String) (line : Option Int) (role : Role) : Invocation := ⟨role, target, line⟩

/-- The role is told by the field `kind`, and issues of the other fields lie below its name. -/
def check : Data → Checked Invocation
  | .record fields =>
    match fields.lookup "kind" with
    | none => .issue .unionTagNotFound
    | some (.text kind) =>
      match checkRole fields kind with
      | none => .issue .unionTagInvalid
      | some role =>
        (ofParts <$> Data.checkField fields "invoked_component" "" Data.checkText
          <*> Data.checkField fields "line" none (Data.checkOptional Data.checkInt)
          <*> role).under (.field kind)
    | some _ => .issue .unionTagInvalid
  | _ => .issue .modelAttributesType

end Invocation

/-- A component with the drafts of its children. -/
inductive Draft where
  | mk (component : Component) (children : List Draft)

namespace Draft

/-- The words of a set, in ascending order. -/
def wordSet (words : List String) : List String := words.foldr Component.insertWord []

/-- The fields of a component, its children apart. -/
def checkFields (fields : List (String × Data)) : Checked Component :=
  let optionalText (name : String) :=
    Data.checkField fields name none (Data.checkOptional Data.checkText)
  let texts (name : String) :=
    Data.checkField fields name [] (Data.checkList .listType Data.checkText)
  let line (name : String) := Data.checkField fields name 0 Data.checkInt
  Component.mk <$> Data.checkRequired fields "kind" (Data.checkWord .enum Kind.ofName?)
    <*> optionalText "short_name"
    <*> optionalText "qualified_name"
    <*> optionalText "package_name"
    <*> optionalText "source_file"
    <*> Data.checkField fields "code" "" Data.checkText
    <*> optionalText "comment"
    <*> line "start_line"
    <*> line "end_line"
    <*> Data.checkField fields "modifiers" []
      (fun data => wordSet <$> data.checkList .setType Data.checkText)
    <*> texts "imports"
    <*> texts "super_types"
    <*> texts "implemented_types"
    <*> texts "thrown_exceptions"
    <*> Data.checkField fields "invocations" [] (Data.checkList .listType Invocation.check)
    <*> Data.checkField fields "external_type_references" []
      (Data.checkList .listType TypeReference.check)
    <*> optionalText "declaration_type_snippet"
    <*> optionalText "value"
    <*> optionalText "parent_name"
    <*> .ok []

/-- The most components that may lie within each other, the outermost one included. -/
def nestingLimit : Nat := 255

mutual

/-- A component within which so many others, itself included, may lie. -/
def check (levels : Nat) (data : Data) : Checked Draft :=
  match levels, data with
  | 0, _ => .issue .recursionDepthExceeded
  | levels + 1, .record fields => mk <$> checkFields fields <*> checkChildren levels fields
  | _ + 1, _ => .issue .modelType

/-- The children, from the field that holds them. -/
def checkChildren (levels : Nat) : List (String × Data) → Checked (List Draft)
  | [] => .ok []
  | (name, data) :: rest =>
    if name = "children" then (checkChildList levels data).under (.field name)
    else checkChildren levels rest

def checkChildList (levels : Nat) : Data → Checked (List Draft)
  | .list items => checkDrafts levels 0 items
  | _ => .issue .listType

def checkDrafts (levels index : Nat) : List Data → Checked (List Draft)
  | [] => .ok []
  | item :: rest =>
    List.cons <$> (check levels item).under (.item index) <*> checkDrafts levels (index + 1) rest

end

/-- A draft from the fields of a record. -/
def ofFields (fields : List (String × Data)) : Checked Draft := check nestingLimit (.record fields)

mutual

/-- Give a draft and all below it an identity, children before their parents. -/
def addTo (store : Store) : Draft → Store × ComponentId
  | mk component children =>
    let (store, ids) := addAllTo store children
    store.add { component with children := ids }

def addAllTo (store : Store) : List Draft → Store × List ComponentId
  | [] => (store, [])
  | draft :: rest =>
    let (store, id) := addTo store draft
    let (store, ids) := addAllTo store rest
    (store, id :: ids)

end

end Draft

end CodeAtlas
