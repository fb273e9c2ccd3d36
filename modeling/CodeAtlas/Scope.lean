import CodeAtlas.Component.Store
import CodeAtlas.Text.Dotted

/-! # Scopes

A scope is the nest of components that are still open. Each is opened in a frame with a number
that is never used again. A frame knows the frame it was opened in; components declared together
share that parent and one group, numbered by the first of them.
-/

namespace CodeAtlas

structure Frame where
  slot : Nat
  component : ComponentId
  parent : Option Nat
  group : Nat
deriving DecidableEq, Repr

/-- The open frames, innermost first, and how many frames there have ever been. -/
structure Scope where
  frames : List Frame := []
  pushed : Nat := 0
deriving DecidableEq, Repr

namespace Scope

instance : Inhabited Scope := ⟨⟨[], 0⟩⟩

def top? (scope : Scope) : Option Frame := scope.frames.head?

/-- Open a component inside the innermost open one. -/
def push (scope : Scope) (component : ComponentId) : Scope :=
  ⟨⟨scope.pushed, component, scope.top?.map Frame.slot, scope.pushed⟩ :: scope.frames,
    scope.pushed + 1⟩

/-- Open a component beside the innermost open one, under the same parent. -/
def pushBeside (scope : Scope) (top : Frame) (component : ComponentId) : Scope :=
  ⟨⟨scope.pushed, component, top.parent, top.group⟩ :: scope.frames, scope.pushed + 1⟩

def pushSibling? (scope : Scope) (component : ComponentId) : Option Scope :=
  scope.top?.map fun top => scope.pushBeside top component

def pop? (scope : Scope) : Option (Frame × Scope) :=
  match scope.frames with
  | [] => none
  | frame :: below => some (frame, { scope with frames := below })

/-- Close all frames at once. Their numbers stay used. -/
def clear (scope : Scope) : Scope := { scope with frames := [] }

/-- The number of open components declared together with the innermost one. -/
def groupSize? (scope : Scope) : Option Nat :=
  scope.top?.map fun top => scope.frames.countP (·.group == top.group)

/-- The components from the frame with the given number outwards. -/
def lineage : List Frame → Option Nat → List ComponentId
  | [], _ => []
  | frame :: below, slot =>
    if slot = some frame.slot then frame.component :: lineage below frame.parent
    else lineage below slot

/-- The dotted path of labels from the outermost component down to a frame. -/
def nameIn (store : Store) (frame : Frame) (below : List Frame) : String :=
  Dotted.join ((frame.component :: lineage below frame.parent).reverse.map
    fun id => (store.get id).label)

/-- The provisional names of the frames with their components, innermost first. -/
def namesFrom (store : Store) : List Frame → List (String × ComponentId)
  | [] => []
  | frame :: below => (nameIn store frame below, frame.component) :: namesFrom store below

/-- The provisional names of the open components, outermost first. -/
def openNames (scope : Scope) (store : Store) : List (String × ComponentId) :=
  (namesFrom store scope.frames).reverse

def topName? (scope : Scope) (store : Store) : Option String :=
  match scope.frames with
  | [] => none
  | frame :: below => some (nameIn store frame below)

/-- The outermost open component with the given provisional name. -/
def find? (scope : Scope) (store : Store) (name : String) : Option ComponentId :=
  ((scope.openNames store).find? (·.1 == name)).map Prod.snd

end Scope

end CodeAtlas
