import CodeAtlas.Tree.Place

/-! # Traversals

A walk enters a node, walks its named children in order and leaves the node. It is carried out
with a stack of visits that are still to be made. The whole tree in preorder, unnamed nodes
included, is what the search for errors runs through, without entering trees that hold none.
-/

namespace CodeAtlas

inductive Visit where
  | enter (p : Place)
  | exit (p : Place)

namespace Visit

def place : Visit → Place
  | enter p => p
  | exit p => p

/-- A bound on the visits that follow from one. -/
def weight : Visit → Nat
  | enter p => 2 * p.node.size
  | exit _ => 1

def weights : List Visit → Nat
  | [] => 0
  | visit :: rest => visit.weight + weights rest

theorem weights_append (first second : List Visit) :
    weights (first ++ second) = weights first + weights second := by
  induction first with
  | nil => simp [weights]
  | cons visit rest ih => simp [weights, ih, Nat.add_assoc]

theorem weights_enter (ps : List Place) :
    weights (ps.map enter) = 2 * Node.sizes (ps.map Place.node) := by
  induction ps with
  | nil => rfl
  | cons p rest ih =>
    simp only [List.map_cons, weights, weight, Node.sizes, ih]
    omega

end Visit

/-- All visits that follow from a stack of pending ones, the next one first. -/
def visitsFrom : List Visit → List Visit
  | [] => []
  | .exit p :: rest => .exit p :: visitsFrom rest
  | .enter p :: rest => .enter p :: visitsFrom (p.namedChildren.map .enter ++ .exit p :: rest)
termination_by pending => Visit.weights pending
decreasing_by
  · simp only [Visit.weights, Visit.weight]
    omega
  · have h := p.namedChildren_sizes
    simp only [Visit.weights_append, Visit.weights_enter, Visit.weights, Visit.weight]
    omega

namespace Place

/-- The visits of a walk that starts at a place. -/
def walk (p : Place) : List Visit := visitsFrom [.enter p]

/-- Search the pending trees for an error, skipping those that hold none. -/
def firstErrorIn : List Place → Option Place
  | [] => none
  | p :: rest =>
    if p.node.isError then some p
    else if p.node.label.hasError then firstErrorIn (p.children ++ rest)
    else firstErrorIn rest
termination_by pending => Node.sizes (pending.map node)
decreasing_by
  · have h := p.children_sizes
    simp only [List.map_append, Node.sizes_append, List.map_cons, Node.sizes]
    omega
  · have h := p.children_sizes
    simp only [List.map_cons, Node.sizes]
    omega

/-- The first error or missing node at a place or below. -/
def firstError? (p : Place) : Option Place := firstErrorIn [p]

end Place

mutual

/-- The places of a tree, each before its children and the children in order. -/
def preorderAt (source : List UInt8) (above : List Step) : Node → List Place
  | .mk label children =>
    ⟨source, .mk label children, above⟩ ::
      preorderBelow source (.mk label children) above [] children

def preorderBelow (source : List UInt8) (parent : Node) (above : List Step)
    (earlier : List Node) : List Node → List Place
  | [] => []
  | child :: rest =>
    preorderAt source (⟨parent, earlier⟩ :: above) child ++
      preorderBelow source parent above (child :: earlier) rest

end

def Place.preorder (p : Place) : List Place := preorderAt p.source p.above p.node

/-- The callback names that a visit calls for in order: on entering, the general one before that
of the node's type, and on leaving the other way round. -/
def Visit.callbacks : Visit → List String
  | enter p => ["enter_every_rule", "enter_" ++ p.node.type]
  | exit p => ["exit_" ++ p.node.type, "exit_every_rule"]

/-- The callbacks fired by a walk, for a listener that has some of them. -/
def Place.fired (p : Place) (has : String → Bool) : List (String × Place) :=
  p.walk.flatMap fun visit => (visit.callbacks.filter has).map (·, visit.place)

end CodeAtlas
