import Mathlib.Data.List.TakeWhile
import CodeAtlas.Java.TypeName
import CodeAtlas.Proofs.Tree.Walk

/-! # Comments of constructs

The comment of a node is the nearest block comment among the named siblings before it, as long as
these are all comments. So it stands after the construct before, and no two constructs have the same
comment.
-/

namespace CodeAtlas

namespace Java.Form

def commentTypes : List String := ["block_comment", "line_comment", "comment"]

theorem ofType_eq_comment_iff {type : String} : ofType type = comment ↔ type ∈ commentTypes := by
  have htypes : ∀ entry ∈ types, entry.2 = comment → entry.1 ∈ commentTypes := by decide
  have hforms : ∀ type ∈ commentTypes, ofType type = comment := by decide
  refine ⟨fun h => ?_, hforms type⟩
  cases hl : types.lookup type with
  | none => simp [ofType, hl] at h
  | some form =>
    obtain rfl : form = comment := by simpa [ofType, hl] using h
    obtain ⟨first, last, e, -⟩ := List.lookup_eq_some_iff.mp hl
    exact htypes (type, comment) (e ▸ List.mem_append_right _ List.mem_cons_self) rfl

end Java.Form

namespace Place

open Java

variable {p m n k l : Place}

def siblingsFrom (source : List UInt8) (parent : Node) (up : List Step) : List Node → List Place
  | [] => []
  | n :: rest => ⟨source, n, ⟨parent, rest⟩ :: up⟩ :: siblingsFrom source parent up rest

/-- The named siblings before a place, nearest first. -/
def elders (n : Place) : List Place :=
  match n.above with
  | [] => []
  | step :: up => (siblingsFrom n.source step.parent up step.earlier).filter (·.node.named)

def IsComment (p : Place) : Prop := p.node.type ∈ Form.commentTypes

instance (p : Place) : Decidable p.IsComment := inferInstanceAs (Decidable (_ ∈ _))

def IsBlockComment (p : Place) : Prop := p.IsComment ∧ ['/', '*'] <+: p.text.toList

structure Heads (k n : Place) (between : List Place) : Prop where
  elders_eq : ∃ further, n.elders = between ++ k :: further
  isBlockComment : k.IsBlockComment
  isComment : ∀ q ∈ between, q.IsComment

/-- The nearest block comment before a place with nothing but comments between. -/
def CommentOf (k n : Place) : Prop :=
  ∃ between, k.Heads n between ∧
    ∀ other farther, Heads other n farther → between.length ≤ farther.length

theorem isComment_iff : p.IsComment ↔ p.form = .comment := Form.ofType_eq_comment_iff.symm

section Siblings

theorem map_node_siblingsFrom (source : List UInt8) (parent : Node) (up : List Step)
    (nodes : List Node) : (siblingsFrom source parent up nodes).map node = nodes := by
  induction nodes with
  | nil => rfl
  | cons n rest ih => rw [siblingsFrom, List.map_cons, ih]

theorem source_of_mem_siblingsFrom {source : List UInt8} {parent : Node} {up : List Step}
    {nodes : List Node} (h : k ∈ siblingsFrom source parent up nodes) : k.source = source := by
  induction nodes with
  | nil => cases h
  | cons n rest ih =>
    rcases List.mem_cons.mp h with rfl | h
    · rfl
    · exact ih h

theorem source_of_mem_elders (h : k ∈ n.elders) : k.source = n.source := by
  unfold elders at h
  split at h
  · cases h
  · exact source_of_mem_siblingsFrom (List.mem_of_mem_filter h)

theorem elders_of_root (h : n.above = []) : n.elders = [] := by
  simp [elders, h]

theorem earlierNamed_eq (n : Place) : n.earlierNamed = n.elders.map node := by
  obtain ⟨source, node, above⟩ := n
  cases above with
  | nil => rfl
  | cons step up =>
    have hnodes := map_node_siblingsFrom source step.parent up step.earlier
    change step.earlier.filter Node.named = _
    rw [← hnodes, List.filter_map]
    rfl

theorem elders_of_elders_eq {between further : List Place}
    (h : n.elders = between ++ k :: further) : k.elders = further := by
  unfold elders at h
  split at h
  · simp at h
  · rename_i step up _
    generalize step.earlier = nodes at h
    induction nodes generalizing between with
    | nil => simp [siblingsFrom] at h
    | cons node rest ih =>
      rw [siblingsFrom, List.filter_cons] at h
      split at h
      · cases between with
        | nil =>
          obtain ⟨rfl, rfl⟩ := List.cons.inj h
          rfl
        | cons _ between => exact ih (List.cons.inj h).2
      · exact ih h

theorem elders_of_childrenFrom {earlier children : List Node} {before after : List Place}
    (h : p.childrenFrom earlier children = before ++ n :: after) :
    n.elders = (before.filter (·.node.named)).reverse ++
      (siblingsFrom p.source p.node p.above earlier).filter (·.node.named) := by
  induction children generalizing earlier before with
  | nil => simp [childrenFrom] at h
  | cons child rest ih =>
    rw [childrenFrom] at h
    cases before with
    | nil =>
      obtain ⟨rfl, -⟩ := List.cons.inj h
      rfl
    | cons first before =>
      obtain ⟨rfl, hrest⟩ := List.cons.inj h
      rw [ih hrest, siblingsFrom, List.filter_cons, List.filter_cons]
      dsimp only
      split <;> simp

theorem elders_of_children {before after : List Place} (h : p.children = before ++ n :: after) :
    n.elders = (before.filter (·.node.named)).reverse := by
  rw [elders_of_childrenFrom h, siblingsFrom, List.filter_nil, List.append_nil]

theorem mem_elders_or (hm : m ∈ p.namedChildren) (hn : n ∈ p.namedChildren) (hne : m ≠ n) :
    m ∈ n.elders ∨ n ∈ m.elders := by
  obtain ⟨hm, hmnamed⟩ := List.mem_filter.mp hm
  obtain ⟨hn, hnnamed⟩ := List.mem_filter.mp hn
  obtain ⟨before, after, hsplit⟩ := List.append_of_mem hm
  rw [hsplit, List.mem_append, List.mem_cons] at hn
  rcases hn with hn | rfl | hn
  · right
    rw [elders_of_children hsplit, List.mem_reverse]
    exact List.mem_filter.mpr ⟨hn, hnnamed⟩
  · exact absurd rfl hne
  · left
    obtain ⟨middle, last, rfl⟩ := List.append_of_mem hn
    have hsplit' : p.children = (before ++ m :: middle) ++ n :: last := by simpa using hsplit
    rw [elders_of_children hsplit', List.mem_reverse]
    exact List.mem_filter.mpr ⟨by simp, hmnamed⟩

theorem mem_namedChildren_of_mem_elders (hn : n ∈ p.children) (hk : k ∈ n.elders) :
    k ∈ p.namedChildren := by
  obtain ⟨before, after, hsplit⟩ := List.append_of_mem hn
  rw [elders_of_children hsplit, List.mem_reverse] at hk
  obtain ⟨hk, hnamed⟩ := List.mem_filter.mp hk
  exact List.mem_filter.mpr ⟨hsplit ▸ List.mem_append_left _ hk, hnamed⟩

theorem length_elders_lt (h : k ∈ n.elders) : k.elders.length < n.elders.length := by
  obtain ⟨between, further, e⟩ := List.append_of_mem h
  rw [elders_of_elders_eq e, e, List.length_append, List.length_cons]
  omega

end Siblings

section Nearest

def nearestBlock? (siblings : List Place) : Option Place :=
  (siblings.takeWhile (·.form == .comment)).find? fun k => ['/', '*'].isPrefixOf k.text.toList

theorem precedingComment?_eq (n : Place) :
    n.precedingComment? = (nearestBlock? n.elders).map text := by
  have htext : (n.elders.takeWhile (·.form == .comment)).map (fun k => k.node.text n.source) =
      (n.elders.takeWhile (·.form == .comment)).map text := by
    refine List.map_congr_left fun k hk => ?_
    rw [text, source_of_mem_elders ((List.takeWhile_sublist _).subset hk)]
  rw [precedingComment?, earlierNamed_eq, List.takeWhile_map, List.map_map]
  exact (congrArg (List.find? _) htext).trans List.find?_map

/-- A sibling is within the run of comments if it is one and all nearer ones are. -/
theorem comments_eq_iff {siblings between : List Place} :
    (∃ rest, siblings.takeWhile (·.form == .comment) = between ++ k :: rest) ↔
      (∃ further, siblings = between ++ k :: further) ∧ k.IsComment ∧
        ∀ q ∈ between, q.IsComment := by
  constructor
  · rintro ⟨rest, htake⟩
    have hcomment (q : Place) (hq : q ∈ between ++ k :: rest) : q.IsComment := by
      rw [← htake] at hq
      exact isComment_iff.mpr (by simpa using List.mem_takeWhile_imp hq)
    refine ⟨⟨rest ++ siblings.dropWhile (·.form == .comment), ?_⟩, hcomment k (by simp),
      fun q hq => hcomment q (by simp [hq])⟩
    rw [← List.cons_append, ← List.append_assoc, ← htake, List.takeWhile_append_dropWhile]
  · rintro ⟨⟨further, rfl⟩, hk, hbetween⟩
    refine ⟨further.takeWhile (·.form == .comment), ?_⟩
    rw [List.takeWhile_append_of_pos, List.takeWhile_cons_of_pos]
    · simpa using isComment_iff.mp hk
    · intro q hq
      simpa using isComment_iff.mp (hbetween q hq)

theorem isBlockComment_iff (h : p.IsComment) :
    p.IsBlockComment ↔ ['/', '*'].isPrefixOf p.text.toList = true := by
  rw [List.isPrefixOf_iff_prefix]
  exact and_iff_right h

theorem nearestBlock?_eq_some_iff {siblings : List Place} :
    nearestBlock? siblings = some k ↔ ∃ between further, siblings = between ++ k :: further ∧
      k.IsBlockComment ∧ ∀ q ∈ between, q.IsComment ∧ ¬ q.IsBlockComment := by
  rw [nearestBlock?, List.find?_eq_some_iff_append]
  constructor
  · rintro ⟨hk, between, rest, htake, hnot⟩
    obtain ⟨⟨further, e⟩, hcomment, hbetween⟩ := comments_eq_iff.mp ⟨rest, htake⟩
    refine ⟨between, further, e, (isBlockComment_iff hcomment).mpr hk, fun q hq => ?_⟩
    rw [isBlockComment_iff (hbetween q hq), Bool.not_eq_true]
    exact ⟨hbetween q hq, by simpa using hnot q hq⟩
  · rintro ⟨between, further, e, hk, hbetween⟩
    obtain ⟨rest, htake⟩ := comments_eq_iff.mpr ⟨⟨further, e⟩, hk.1, fun q hq => (hbetween q hq).1⟩
    refine ⟨(isBlockComment_iff hk.1).mp hk, between, rest, htake, fun q hq => ?_⟩
    obtain ⟨hcomment, hnot⟩ := hbetween q hq
    rw [isBlockComment_iff hcomment, Bool.not_eq_true] at hnot
    rw [hnot, Bool.not_false]

theorem nearestBlock?_eq_none_iff :
    nearestBlock? n.elders = none ↔ ∀ k between, ¬ Heads k n between := by
  rw [nearestBlock?, List.find?_eq_none]
  constructor
  · rintro hnone k between ⟨hsplit, hk, hbetween⟩
    obtain ⟨rest, htake⟩ := comments_eq_iff.mpr ⟨hsplit, hk.1, hbetween⟩
    exact hnone k (htake ▸ by simp) ((isBlockComment_iff hk.1).mp hk)
  · intro hnone k hk hblock
    obtain ⟨between, rest, htake⟩ := List.append_of_mem hk
    obtain ⟨hsplit, hcomment, hbetween⟩ := comments_eq_iff.mp ⟨rest, htake⟩
    exact hnone k between ⟨hsplit, (isBlockComment_iff hcomment).mpr hblock, hbetween⟩

theorem commentOf_iff : k.CommentOf n ↔ nearestBlock? n.elders = some k := by
  rw [nearestBlock?_eq_some_iff]
  constructor
  · rintro ⟨between, ⟨⟨further, e⟩, hblock, hcomments⟩, hnearest⟩
    refine ⟨between, further, e, hblock, fun q hq => ⟨hcomments q hq, fun hqblock => ?_⟩⟩
    obtain ⟨nearer, rest, rfl⟩ := List.append_of_mem hq
    have hheads : Heads q n nearer :=
      ⟨⟨_, by rw [e, List.append_assoc]; rfl⟩, hqblock,
        fun r hr => hcomments r (List.mem_append_left _ hr)⟩
    have hle := hnearest q nearer hheads
    rw [List.length_append, List.length_cons] at hle
    omega
  · rintro ⟨between, further, e, hblock, hbetween⟩
    refine ⟨between, ⟨⟨further, e⟩, hblock, fun q hq => (hbetween q hq).1⟩, ?_⟩
    -- Both cuts are of the same list: if the other one were nearer, it would lie between.
    rintro other farther ⟨⟨rest, e'⟩, hother, -⟩
    rcases List.append_eq_append_iff.mp (e.symm.trans e') with ⟨more, rfl, -⟩ | ⟨more, rfl, hmore⟩
    · rw [List.length_append]
      omega
    · cases more with
      | nil => simp
      | cons q more =>
        obtain ⟨rfl, -⟩ := List.cons.inj hmore
        exact absurd hother (hbetween other (by simp)).2

end Nearest

theorem CommentOf.mem_elders (h : k.CommentOf n) {q : Place} (hq : q ∈ n.elders)
    (hc : ¬ q.IsComment) : q ∈ k.elders := by
  obtain ⟨between, ⟨⟨further, e⟩, hblock, hcomments⟩, -⟩ := h
  rw [elders_of_elders_eq e]
  rw [e, List.mem_append, List.mem_cons] at hq
  rcases hq with hq | rfl | hq
  · exact absurd (hcomments q hq) hc
  · exact absurd hblock.1 hc
  · exact hq

theorem CommentOf.mem (h : k.CommentOf n) : k ∈ n.elders := by
  obtain ⟨between, ⟨⟨further, e⟩, -, -⟩, -⟩ := h
  exact e ▸ List.mem_append_right _ List.mem_cons_self

/-- What belongs to a construct does not belong to a later one. -/
theorem CommentOf.ne_of_mem_elders (hk : k.CommentOf m) (hl : l.CommentOf n) (hm : m ∈ n.elders)
    (hc : ¬ m.IsComment) : k ≠ l := by
  -- Otherwise the comment would stand both before and after the first construct.
  rintro rfl
  have hlt := length_elders_lt (hl.mem_elders hm hc)
  have hlt' := length_elders_lt hk.mem
  omega

theorem precedingComment?_eq_some_iff {content : String} :
    n.precedingComment? = some content ↔ ∃ k : Place, k.CommentOf n ∧ k.text = content := by
  simp only [precedingComment?_eq, Option.map_eq_some_iff, commentOf_iff]

theorem precedingComment?_eq_none_iff :
    n.precedingComment? = none ↔ ∀ k between, ¬ Heads k n between := by
  rw [precedingComment?_eq, Option.map_eq_none_iff, nearestBlock?_eq_none_iff]

/-- The comment of a place is the text of the nearest block comment among the named siblings before
it with nothing but comments between, and it has none if there is no such sibling. Two constructs
side by side have the texts of different siblings, each of which stands after whatever construct is
before the one that it belongs to. -/
theorem comment_of_one_construct :
    (∀ n : Place, n.above = [] → n.elders = []) ∧
    (∀ (p n : Place) (before after : List Place), p.children = before ++ n :: after →
      n.elders = (before.filter (·.node.named)).reverse) ∧
    (∀ (n : Place) (content : String),
      n.precedingComment? = some content ↔ ∃ k : Place, k.CommentOf n ∧ k.text = content) ∧
    (∀ n : Place, n.precedingComment? = none ↔ ∀ k between, ¬ Heads k n between) ∧
    ∀ p : Place, ∀ m ∈ p.namedChildren, ∀ n ∈ p.namedChildren, m ≠ n →
      ¬ m.IsComment → ¬ n.IsComment → ∀ first second, m.precedingComment? = some first →
        n.precedingComment? = some second → ∃ k ∈ p.namedChildren, ∃ l ∈ p.namedChildren, k ≠ l ∧
          (k.CommentOf m ∧ k.text = first ∧ ∀ q ∈ m.elders, ¬ q.IsComment → q ∈ k.elders) ∧
          l.CommentOf n ∧ l.text = second ∧ ∀ q ∈ n.elders, ¬ q.IsComment → q ∈ l.elders := by
  refine ⟨fun n h => elders_of_root h, fun p n before after h => elders_of_children h,
    fun n content => precedingComment?_eq_some_iff, fun n => precedingComment?_eq_none_iff, ?_⟩
  intro p m hm n hn hne hmc hnc first second hfirst hsecond
  obtain ⟨k, hk, hktext⟩ := precedingComment?_eq_some_iff.mp hfirst
  obtain ⟨l, hl, hltext⟩ := precedingComment?_eq_some_iff.mp hsecond
  have hkl : k ≠ l := by
    rcases mem_elders_or hm hn hne with h | h
    · exact hk.ne_of_mem_elders hl h hmc
    · exact (hl.ne_of_mem_elders hk h hnc).symm
  exact ⟨k, mem_namedChildren_of_mem_elders (List.mem_of_mem_filter hm) hk.mem, l,
    mem_namedChildren_of_mem_elders (List.mem_of_mem_filter hn) hl.mem, hkl,
    ⟨hk, hktext, fun q => hk.mem_elders⟩, hl, hltext, fun q => hl.mem_elders⟩

def bodyNode (type : String) (first last : Nat) : Node := .mk { type, span := (first, last) } []

/-- Two methods under comments with the same text, the first one with a line comment between and the
second one with an unnamed node. -/
def alike : Place where
  source := Utf8.encode "/**/ //x f /**/;g"
  node := .mk { type := "class_body" }
    [bodyNode "block_comment" 0 4, bodyNode "line_comment" 5 8, bodyNode "method_declaration" 9 10,
      bodyNode "block_comment" 11 15, .mk { type := ";", named := false, span := (15, 16) } [],
      bodyNode "method_declaration" 16 17]

theorem comment_of_one_construct_alike :
    ∃ m ∈ alike.namedChildren, ∃ n ∈ alike.namedChildren, m.text = "f" ∧ n.text = "g" ∧
      ∃ k ∈ alike.namedChildren, ∃ l ∈ alike.namedChildren, k ≠ l ∧
        (k.CommentOf m ∧ k.text = "/**/") ∧ l.CommentOf n ∧ l.text = "/**/" := by
  let m : Place := ⟨alike.source, bodyNode "method_declaration" 9 10,
    [⟨alike.node, (alike.node.children.take 2).reverse⟩]⟩
  let n : Place := ⟨alike.source, bodyNode "method_declaration" 16 17,
    [⟨alike.node, (alike.node.children.take 5).reverse⟩]⟩
  have hm : m ∈ alike.namedChildren := List.mem_of_getElem? (i := 2) rfl
  have hn : n ∈ alike.namedChildren := List.mem_of_getElem? (i := 4) rfl
  have hmtext : m.text = "f" := by decide +kernel
  have hntext : n.text = "g" := by decide +kernel
  have hne : m ≠ n := by
    intro e
    rw [e, hntext] at hmtext
    exact absurd hmtext (by decide)
  obtain ⟨k, hk, l, hl, hkl, ⟨hkm, hktext, -⟩, hln, hltext, -⟩ :=
    comment_of_one_construct.2.2.2.2 alike m hm n hn hne (by decide) (by decide) "/**/" "/**/"
      (by decide +kernel) (by decide +kernel)
  exact ⟨m, hm, n, hn, hmtext, hntext, k, hk, l, hl, hkl, ⟨hkm, hktext⟩, hln, hltext⟩

end Place

end CodeAtlas
