import CodeAtlas.Component.Basic

/-! # Stores of components

A store holds every component made so far. An id stands for one component through all changes to
it, so a component listed in several places changes in all of them.
-/

namespace CodeAtlas

structure Store where
  cells : Array Component := #[]

namespace Store

instance : Inhabited Store := ⟨⟨#[]⟩⟩

def get? (store : Store) (id : ComponentId) : Option Component := store.cells[id.index]?

def get (store : Store) (id : ComponentId) : Component := (store.get? id).getD default

/-- Add a component. Its id is one that was not in use. -/
def add (store : Store) (c : Component) : Store × ComponentId :=
  (⟨store.cells.push c⟩, ⟨store.cells.size⟩)

def modify (store : Store) (id : ComponentId) (f : Component → Component) : Store :=
  ⟨store.cells.modify id.index f⟩

theorem get?_add (store : Store) (c : Component) (id : ComponentId) :
    (store.add c).1.get? id = if id = (store.add c).2 then some c else store.get? id := by
  cases id with
  | mk index => simp [add, get?, Array.getElem?_push]

theorem get?_modify (store : Store) (id other : ComponentId) (f : Component → Component) :
    (store.modify id f).get? other =
      if other = id then (store.get? id).map f else store.get? other := by
  cases id with
  | mk i =>
    cases other with
    | mk j =>
      simp only [modify, get?, Array.getElem?_modify, ComponentId.mk.injEq, eq_comm (a := i)]
      split <;> simp_all

/-- List a component as a child of another one, which is known by the given name. -/
def addChild (store : Store) (parent child : ComponentId) (parentName : String) : Store :=
  (store.modify child fun c => { c with parentName := some parentName }).modify parent
    fun c => { c with children := c.children ++ [child] }

/-- Keep only those children of a component that satisfy the test. -/
def filterChildren (store : Store) (owner : ComponentId) (keep : ComponentId → Bool) : Store :=
  store.modify owner fun c => { c with children := c.children.filter keep }

/-- Compare two lists from left to right until a difference, or a comparison without end. -/
def sameAll (same : ComponentId → ComponentId → Option Bool) :
    List ComponentId → List ComponentId → Option Bool
  | a :: as, b :: bs =>
    match same a b with
    | some true => sameAll same as bs
    | answer => answer
  | _, _ => some true

/-- Compare two components and their children, at most `depth` levels deep. -/
def sameUpTo (store : Store) : (depth : Nat) → ComponentId → ComponentId → Option Bool
  | 0, _, _ => none
  | depth + 1, a, b =>
    if a = b then some true
    else
      let x := store.get a
      let y := store.get b
      if x.sameFields y && x.children.length == y.children.length then
        sameAll (sameUpTo store depth) x.children y.children
      else some false

/-- Equality of two components in all fields, children included. It has no answer if the children
lead back to the pair, which takes at most as many levels as there are pairs. -/
def same? (store : Store) (a b : ComponentId) : Option Bool :=
  sameUpTo store (store.cells.size * store.cells.size + 1) a b

end Store

end CodeAtlas
