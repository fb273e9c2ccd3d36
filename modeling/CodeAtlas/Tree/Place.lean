import CodeAtlas.Tree.Node

/-! # Places in a tree

A place is a node together with the way down to it, so that its parents and the siblings before
it can be seen. Two nodes of a tree are the same one exactly if their places are.
-/

namespace CodeAtlas

/-- One step down: the parent, and the siblings before the child, nearest first. -/
structure Step where
  parent : Node
  earlier : List Node

/-- A node of a tree over a source, with the steps to it from the nearest one up. -/
structure Place where
  source : List UInt8
  node : Node
  above : List Step := []

namespace Place

def parent? (p : Place) : Option Node := p.above.head?.map Step.parent

def grandparent? (p : Place) : Option Node := (p.above.drop 1).head?.map Step.parent

def text (p : Place) : String := p.node.text p.source

def startLine (p : Place) : Int := p.node.startLine

def endLine (p : Place) : Int := p.node.endLine

/-- The places of children, given those before them. -/
def childrenFrom (p : Place) : List Node → List Node → List Place
  | _, [] => []
  | earlier, child :: rest =>
    ⟨p.source, child, ⟨p.node, earlier⟩ :: p.above⟩ :: childrenFrom p (child :: earlier) rest

def children (p : Place) : List Place := p.childrenFrom [] p.node.children

def namedChildren (p : Place) : List Place := p.children.filter (·.node.named)

def childInField? (p : Place) (field : String) : Option Place :=
  p.children.find? (·.node.field == some field)

/-- The named siblings before a place, nearest first. -/
def earlierNamed (p : Place) : List Node :=
  match p.above with
  | [] => []
  | step :: _ => step.earlier.filter Node.named

/-- Whether the node is the first one of its parent to fill the field. -/
def fills (p : Place) (field : String) : Bool :=
  p.node.field == some field &&
    match p.above with
    | [] => false
    | step :: _ => step.earlier.all (·.field != some field)

/-- The number of nodes met before this one, when each node is met before its children and the
children in order. -/
def index (p : Place) : Nat := go p.above
where
  go : List Step → Nat
    | [] => 0
    | step :: rest => Node.sizes step.earlier + 1 + go rest

theorem map_node_childrenFrom (p : Place) (earlier children : List Node) :
    (p.childrenFrom earlier children).map node = children := by
  induction children generalizing earlier with
  | nil => rfl
  | cons child rest ih => simp [childrenFrom, ih]

theorem map_node_children (p : Place) : p.children.map node = p.node.children :=
  p.map_node_childrenFrom [] p.node.children

theorem children_sizes (p : Place) : Node.sizes (p.children.map node) + 1 = p.node.size := by
  rw [map_node_children]
  cases p.node with
  | mk label children => simp [Node.children, Node.size]

theorem sizes_filter_le (keep : Place → Bool) (ps : List Place) :
    Node.sizes ((ps.filter keep).map node) ≤ Node.sizes (ps.map node) := by
  induction ps with
  | nil => simp
  | cons p rest ih =>
    by_cases h : keep p
    · simpa [h, Node.sizes] using ih
    · simp only [h, List.filter_cons_of_neg, Bool.not_eq_true, List.map_cons, Node.sizes]
      omega

theorem namedChildren_sizes (p : Place) :
    Node.sizes (p.namedChildren.map node) < p.node.size := by
  have h := sizes_filter_le (·.node.named) p.children
  have h' := p.children_sizes
  unfold namedChildren
  omega

end Place

end CodeAtlas
