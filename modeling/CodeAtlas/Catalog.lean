import CodeAtlas.Component.Store
import CodeAtlas.Fault
import CodeAtlas.Journal

/-! # Catalogs

A catalog names components by their qualified names. A name claimed twice is a collision: the
newer component takes the place of the older one, or is refused, as the policy says. Packages
span files, so a package that is present takes in the children of another one of its name.
-/

namespace CodeAtlas

inductive CollisionPolicy where
  | lastWriteWins
  | error
deriving DecidableEq, Repr

def CollisionPolicy.name : CollisionPolicy → String
  | .lastWriteWins => "last-write-wins"
  | .error => "error"

/-- Any name but that of the error policy means that the last write wins. -/
def CollisionPolicy.ofName (text : String) : CollisionPolicy :=
  if text = "error" then .error else .lastWriteWins

structure Catalog where
  policy : CollisionPolicy
  store : Store := {}
  table : Table ComponentId := .empty
  journal : Journal := {}

/-- How placing a component under a name ends. -/
inductive Placement where
  | added
  | absorbed
  | replaced
  | refused
deriving DecidableEq, Repr

namespace Catalog

def empty (policy : CollisionPolicy) (store : Store) : Catalog :=
  ⟨policy, store, .empty, {}⟩

def size (catalog : Catalog) : Nat := catalog.table.size

def get? (catalog : Catalog) (name : String) : Option ComponentId := catalog.table.get? name

def record (catalog : Catalog) (d : Diagnostic) : Catalog :=
  { catalog with journal := catalog.journal.record d }

def note (catalog : Catalog) (event : Log.Event) : Catalog :=
  { catalog with journal := catalog.journal.note event }

/-- Whether a component is the one that the catalog has under the component's name. -/
def isCurrent (catalog : Catalog) (id : ComponentId) : Bool :=
  catalog.get? ((catalog.store.get id).qualifiedName.getD "") == some id

/-- Let a package take in the children of another one, as far as the children are current. -/
def absorb (catalog : Catalog) (existing newcomer : ComponentId) : Catalog :=
  if existing = newcomer then catalog
  else
    let children := (catalog.store.get existing).children ++ (catalog.store.get newcomer).children
    { catalog with
      store := catalog.store.modify existing fun c =>
        { c with children := children.filter catalog.isCurrent } }

/-- Remove a replaced component from the children of an open parent and of the component that has
its parent's name. -/
def detach (catalog : Catalog) (replaced : ComponentId) (parent : Option ComponentId) : Catalog :=
  let owner := (catalog.store.get replaced).parentName.bind catalog.get?
  let store := [parent, owner].reduceOption.foldl
    (fun store id => store.filterChildren id (· != replaced)) catalog.store
  { catalog with store }

/-- The diagnostic of one component replaced by another one of the same name. It is an error if
they come from different files. -/
def replacement (name : String) (old new : Component) : Diagnostic where
  kind := .nameCollision
  severity := if old.sourceFile = new.sourceFile then .warning else .error
  message := name ++ " declared at " ++ old.origin ++ " is replaced by " ++ new.origin
  path := new.sourceFile
  line := new.startLine
  names := [old.origin, new.origin]

/-- Replace the component under a name, which keeps its position. -/
def replace (catalog : Catalog) (name : String) (existing newcomer : ComponentId)
    (parent : Option ComponentId) : Catalog :=
  let store := catalog.store
  detach
    { catalog.record (replacement name (store.get existing) (store.get newcomer)) with
      table := catalog.table.put name newcomer }
    existing parent

/-- Place a component under a name. The parent is the component it has been attached to, if that
one is still open. -/
def place (catalog : Catalog) (name : String) (id : ComponentId) (parent : Option ComponentId) :
    Catalog × Placement :=
  match catalog.get? name with
  | none => ({ catalog with table := catalog.table.put name id }, .added)
  | some existing =>
    if (catalog.store.get existing).kind = .package ∧ (catalog.store.get id).kind = .package then
      (catalog.absorb existing id, .absorbed)
    else match catalog.policy with
      | .error => (catalog, .refused)
      | .lastWriteWins => (catalog.replace name existing id parent, .replaced)

/-- Insert a component under its qualified name. -/
def insert (catalog : Catalog) (id : ComponentId) (parent : Option ComponentId) :
    Outcome Catalog Unit :=
  let c := catalog.store.get id
  match c.qualifiedName with
  | none => .fail catalog .notFinal
  | some name =>
    match catalog.place name id parent with
    | (catalog, .refused) => .fail catalog (.nameCollision name c.sourceFile)
    | (catalog, _) => .ok catalog ()

/-- The diagnostic of a component that was refused in a merge. -/
def refusal (name : String) (kept refused : Component) : Diagnostic where
  kind := .nameCollision
  severity := .error
  message := (Fault.nameCollision name refused.sourceFile).message ++ "; keeping " ++ kept.origin
  path := refused.sourceFile
  line := refused.startLine
  names := [kept.origin, refused.origin]

def mergeEntry (catalog : Catalog) (entry : String × ComponentId) : Catalog :=
  match catalog.place entry.1 entry.2 none with
  | (catalog, .refused) =>
    match catalog.get? entry.1 with
    | some kept =>
      catalog.record (refusal entry.1 (catalog.store.get kept) (catalog.store.get entry.2))
    | none => catalog
  | (catalog, _) => catalog

/-- Place the components of another catalog, in its order. One that is refused is reported. -/
def merge (catalog : Catalog) (entries : List (String × ComponentId)) : Catalog :=
  entries.foldl mergeEntry catalog

/-- The components without a parent. -/
def roots (catalog : Catalog) : List ComponentId :=
  catalog.table.values.filter fun id => (catalog.store.get id).parentName.isNone

def ofKind (catalog : Catalog) (kind : Kind) : List ComponentId :=
  catalog.table.values.filter fun id => (catalog.store.get id).kind = kind

/-- A short account of the size. -/
def summary (catalog : Catalog) : String :=
  "SourceModel(" ++ toString catalog.size ++ " components)"

/-- Equality of the components under each name, whatever the order of the names. It has no answer
if the comparison of two components has none. -/
def sameTables? (store : Store) (a b : Table ComponentId) : Option Bool :=
  if a.size = b.size then go a.entries else some false
where
  go : List (String × ComponentId) → Option Bool
    | [] => some true
    | (name, x) :: rest =>
      match b.get? name with
      | none => some false
      | some y =>
        match store.same? x y with
        | some true => go rest
        | answer => answer

end Catalog

end CodeAtlas
