import Mathlib.Data.List.Basic
import CodeAtlas.Tree.Traversal

/-! # Walks by recursion

The walk of a place enters it, walks its named children in order and leaves it. All places that
it meets are places of the tree. A structural form of the walk can be evaluated.
-/

namespace CodeAtlas

theorem visitsFrom_append (pending later : List Visit) :
    visitsFrom (pending ++ later) = visitsFrom pending ++ visitsFrom later := by
  fun_induction visitsFrom pending with
  | case1 => rfl
  | case2 p rest ih => rw [List.cons_append, visitsFrom, ih, List.cons_append]
  | case3 p rest ih =>
    rw [List.cons_append, visitsFrom, List.cons_append, ← ih, List.append_assoc, List.cons_append]

namespace Place

theorem visitsFrom_enter (ps : List Place) : visitsFrom (ps.map .enter) = ps.flatMap walk := by
  induction ps with
  | nil => simp [visitsFrom]
  | cons p rest ih =>
    rw [List.map_cons, List.flatMap_cons, ← ih, walk, ← visitsFrom_append, List.singleton_append]

theorem walk_eq (p : Place) : p.walk = .enter p :: (p.namedChildren.flatMap walk ++ [.exit p]) := by
  rw [walk, visitsFrom, visitsFrom_append, visitsFrom_enter]
  simp [visitsFrom]

theorem mem_walk_of_child {p c : Place} (hc : c ∈ p.namedChildren) {visit : Visit}
    (hv : visit ∈ c.walk) : visit ∈ p.walk := by
  rw [walk_eq]
  exact List.mem_cons_of_mem _
    (List.mem_append_left _ (List.mem_flatMap.mpr ⟨c, hc, hv⟩))

theorem enter_mem_walk (p : Place) : .enter p ∈ p.walk := by
  rw [walk_eq]
  exact List.mem_cons_self

theorem exit_mem_walk (p : Place) : .exit p ∈ p.walk := by
  rw [walk_eq]
  simp

theorem above_of_mem_childrenFrom {p c : Place} {earlier children : List Node}
    (h : c ∈ p.childrenFrom earlier children) :
    ∃ earlier', c.above = ⟨p.node, earlier'⟩ :: p.above := by
  induction children generalizing earlier with
  | nil => cases h
  | cons child rest ih =>
    rcases List.mem_cons.mp h with rfl | h
    · exact ⟨earlier, rfl⟩
    · exact ih h

theorem parent?_of_mem_namedChildren {p c : Place} (h : c ∈ p.namedChildren) :
    c.parent? = some p.node := by
  obtain ⟨earlier, he⟩ := above_of_mem_childrenFrom (List.mem_of_mem_filter h)
  rw [parent?, he]
  rfl

theorem size_le_sizes {n : Node} {ns : List Node} (h : n ∈ ns) : n.size ≤ Node.sizes ns := by
  obtain ⟨before, after, rfl⟩ := List.append_of_mem h
  rw [Node.sizes_append, Node.sizes]
  omega

theorem size_lt_of_mem_children {p c : Place} (h : c ∈ p.children) : c.node.size < p.node.size := by
  have hsum := p.children_sizes
  have hle := size_le_sizes (List.mem_map_of_mem (f := node) h)
  omega

/-- Induction from the named children of a place to the place. -/
theorem induction {P : Place → Prop} (h : ∀ p, (∀ c ∈ p.namedChildren, P c) → P p) (p : Place) :
    P p := by
  induction e : p.node.size using Nat.strongRecOn generalizing p with
  | ind size ih =>
    refine h p fun c hc => ih _ ?_ c rfl
    exact e ▸ size_lt_of_mem_children (List.mem_of_mem_filter hc)

theorem preorderBelow_eq (p : Place) (earlier children : List Node) :
    preorderBelow p.source p.node p.above earlier children =
      (p.childrenFrom earlier children).flatMap preorder := by
  induction children generalizing earlier with
  | nil => rfl
  | cons child rest ih => rw [preorderBelow, childrenFrom, List.flatMap_cons, ih, preorder]

theorem preorder_eq (p : Place) : p.preorder = p :: p.children.flatMap preorder := by
  obtain ⟨source, ⟨label, children⟩, above⟩ := p
  rw [preorder, preorderAt]
  exact congrArg _ (preorderBelow_eq ⟨source, .mk label children, above⟩ [] children)

theorem mem_preorder_self (p : Place) : p ∈ p.preorder := by
  rw [preorder_eq]
  exact List.mem_cons_self

theorem mem_preorder_trans {p q r : Place} (hq : q ∈ p.preorder) (hr : r ∈ q.preorder) :
    r ∈ p.preorder := by
  induction e : p.node.size using Nat.strongRecOn generalizing p with
  | ind size ih =>
    rw [preorder_eq] at hq
    rcases List.mem_cons.mp hq with rfl | hq
    · exact hr
    · obtain ⟨c, hc, hq⟩ := List.mem_flatMap.mp hq
      rw [preorder_eq]
      exact List.mem_cons_of_mem _
        (List.mem_flatMap.mpr ⟨c, hc, ih _ (e ▸ size_lt_of_mem_children hc) hq rfl⟩)

theorem mem_preorder_of_mem_walk {p : Place} {visit : Visit} (h : visit ∈ p.walk) :
    visit.place ∈ p.preorder := by
  induction p using induction with
  | h p ih =>
    rw [walk_eq, List.mem_cons, List.mem_append, List.mem_singleton] at h
    rw [preorder_eq]
    rcases h with rfl | h | rfl
    · exact List.mem_cons_self
    · obtain ⟨c, hc, h⟩ := List.mem_flatMap.mp h
      exact List.mem_cons_of_mem _
        (List.mem_flatMap.mpr ⟨c, List.mem_of_mem_filter hc, ih c hc h⟩)
    · exact List.mem_cons_self

end Place

mutual

/-- The visits of a walk, by recursion on the tree. -/
def visitsAt (source : List UInt8) (above : List Step) : Node → List Visit
  | .mk label children =>
    .enter ⟨source, .mk label children, above⟩ ::
      (visitsBelow source (.mk label children) above [] children ++
        [.exit ⟨source, .mk label children, above⟩])

def visitsBelow (source : List UInt8) (parent : Node) (above : List Step)
    (earlier : List Node) : List Node → List Visit
  | [] => []
  | child :: rest =>
    (if child.named then visitsAt source (⟨parent, earlier⟩ :: above) child else []) ++
      visitsBelow source parent above (child :: earlier) rest

end

namespace Place

theorem visitsBelow_eq (p : Place) (earlier children : List Node) :
    visitsBelow p.source p.node p.above earlier children =
      ((p.childrenFrom earlier children).filter (·.node.named)).flatMap
        fun c => visitsAt c.source c.above c.node := by
  induction children generalizing earlier with
  | nil => rfl
  | cons child rest ih =>
    rw [visitsBelow, childrenFrom, ih, List.filter_cons]
    dsimp only
    split <;> simp

theorem visitsAt_eq (p : Place) : visitsAt p.source p.above p.node = p.walk := by
  induction p using induction with
  | h p ih =>
    rw [walk_eq]
    have hbelow := p.visitsBelow_eq [] p.node.children
    have hchildren : p.namedChildren.flatMap (fun c => visitsAt c.source c.above c.node) =
        p.namedChildren.flatMap walk := List.flatMap_congr ih
    obtain ⟨source, ⟨label, children⟩, above⟩ := p
    rw [visitsAt]
    exact congrArg (fun visits => _ :: (visits ++ _)) (hbelow.trans hchildren)

end Place

end CodeAtlas
