import CodeAtlas.Proofs.Scope.Nesting

/-! # Names that tell open components apart

A component that is open inside of another one has a name with more dots. So if components that
were declared together have different labels, and none of these labels has a dot, then no two open
components have the same name, and each of them is found under its name.
-/

namespace CodeAtlas

namespace Dotted

def dots (name : String) : Nat := name.toList.count '.'

theorem dots_append (a b : String) : dots (a ++ b) = dots a + dots b := by
  simp [dots]

theorem dots_of_dotless {name : String} (h : hasDot name = false) : dots name = 0 :=
  List.count_eq_zero.mpr (dot_notMem_of_dotless h)

theorem join_concat_eq (segments : List String) (last : String) :
    join (segments ++ [last]) = join (segments ++ [""]) ++ last := by
  by_cases h : segments = []
  · simp [h, join]
  · rw [join_concat h, join_concat h, String.append_empty]

end Dotted

namespace Scope

variable {store : Store} {frame f g : Frame} {inner outer below members : List Frame} {group : Nat}

theorem nameIn_eq (store : Store) (frame : Frame) (below : List Frame) :
    nameIn store frame below =
      Dotted.join ((lineage below frame.parent).reverse.map (fun id => (store.get id).label) ++
        [""]) ++ (store.get frame.component).label := by
  rw [nameIn, List.reverse_cons, List.map_append]
  exact Dotted.join_concat_eq _ _

/-- The next frame further out has fewer dots in its name, or has been opened under the same parent
in the same group. -/
theorem Nested.dots_lt_or (store : Store) (h : Nested (frame :: f :: below)) :
    Dotted.dots (nameIn store f below) < Dotted.dots (nameIn store frame (f :: below)) ∨
      f.group = frame.group ∧ lineage below f.parent = lineage (f :: below) frame.parent := by
  cases h with
  | inside hn _ hp _ =>
    left
    have hname : nameIn store frame (f :: below) =
        nameIn store f below ++ "." ++ (store.get frame.component).label :=
      @Nested.nameIn_of_parent store [] below frame f hn hp
    rw [hname, Dotted.dots_append, Dotted.dots_append]
    have hdot : Dotted.dots "." = 1 := by decide
    omega
  | beside hn _ hp hg =>
    refine .inr ⟨hg.symm, ?_⟩
    have hne : frame.parent ≠ some f.slot := by
      rw [hp]
      rcases hn.parent_below with hnone | ⟨inner, p, outer, rfl, hp⟩
      · simp [hnone]
      · have hlt := hn.slot_lt p (by simp)
        simp only [hp, ne_eq, Option.some.injEq]
        omega
    rw [lineage, if_neg hne, hp]

structure Distinct (store : Store) (frames : List Frame) : Prop where
  nested : Nested frames
  dotless : ∀ f ∈ frames, ∀ g ∈ frames, f.group = g.group → f ≠ g →
    Dotted.hasDot (store.get f.component).label = false
  unique : ∀ f ∈ frames, ∀ g ∈ frames, f.group = g.group →
    (store.get f.component).label = (store.get g.component).label → f = g

theorem Distinct.tail (h : Distinct store (frame :: below)) : Distinct store below where
  nested := h.nested.tail
  dotless f hf g hg := h.dotless f (List.mem_cons_of_mem _ hf) g (List.mem_cons_of_mem _ hg)
  unique f hf g hg := h.unique f (List.mem_cons_of_mem _ hf) g (List.mem_cons_of_mem _ hg)

theorem Distinct.of_append (h : Distinct store (inner ++ outer)) : Distinct store outer := by
  induction inner with
  | nil => exact h
  | cons _ _ ih => exact ih h.tail

theorem Distinct.congr {t : Store} {frames : List Frame} (h : Distinct store frames)
    (hl : ∀ id, (t.get id).label = (store.get id).label) : Distinct t frames := by
  obtain ⟨hn, hd, hu⟩ := h
  constructor
  · exact hn
  all_goals simp only [hl]; assumption

theorem Nested.ne_of_mem (h : Nested (frame :: below)) (hf : f ∈ below) : f ≠ frame := by
  rintro rfl
  exact lt_irrefl _ (h.slot_lt f hf)

theorem Distinct.dots_eq (h : Distinct store (frame :: below)) (hf : f ∈ below)
    (hg : f.group = frame.group) (hl : lineage outer f.parent = lineage below frame.parent) :
    Dotted.dots (nameIn store f outer) = Dotted.dots (nameIn store frame below) := by
  have hne := h.nested.ne_of_mem hf
  have hm : f ∈ frame :: below := List.mem_cons_of_mem _ hf
  rw [nameIn_eq, nameIn_eq, hl, Dotted.dots_append, Dotted.dots_append,
    Dotted.dots_of_dotless (h.dotless f hm frame List.mem_cons_self hg hne),
    Dotted.dots_of_dotless (h.dotless frame List.mem_cons_self f hm hg.symm hne.symm)]

theorem Distinct.dots_lt_or (h : Distinct store (frame :: (inner ++ f :: outer))) :
    Dotted.dots (nameIn store f outer) < Dotted.dots (nameIn store frame (inner ++ f :: outer)) ∨
      f.group = frame.group ∧
        lineage outer f.parent = lineage (inner ++ f :: outer) frame.parent := by
  induction inner generalizing frame with
  | nil => exact h.nested.dots_lt_or store
  | cons next inner ih =>
    rcases h.nested.dots_lt_or store with hlt | ⟨hg, hl⟩
    · rcases ih h.tail with hlt' | ⟨hg', hl'⟩
      · exact .inl (hlt'.trans hlt)
      · exact .inl ((h.tail.dots_eq (by simp) hg' hl').trans_lt hlt)
    · rcases ih h.tail with hlt' | ⟨hg', hl'⟩
      · exact .inl (hlt'.trans_eq (h.dots_eq (by simp) hg hl))
      · exact .inr ⟨hg'.trans hg, hl'.trans hl⟩

theorem Distinct.nameIn_ne (h : Distinct store (frame :: (inner ++ f :: outer))) :
    nameIn store f outer ≠ nameIn store frame (inner ++ f :: outer) := by
  intro e
  have hf : f ∈ inner ++ f :: outer := by simp
  rcases h.dots_lt_or with hlt | ⟨hg, hl⟩
  · rw [e] at hlt
    exact lt_irrefl _ hlt
  · rw [nameIn_eq, nameIn_eq, hl, String.append_right_inj] at e
    exact h.nested.ne_of_mem hf
      (h.unique f (List.mem_cons_of_mem _ hf) frame List.mem_cons_self hg e)

/-- Whatever is open around it and inside of it, a frame is found under its name. -/
theorem Distinct.find?_nameIn (h : Distinct store (inner ++ f :: outer)) (pushed : Nat) :
    find? ⟨inner ++ f :: outer, pushed⟩ store (nameIn store f outer) = some f.component := by
  induction inner with
  | nil =>
    have hnone : find? ⟨outer, pushed⟩ store (nameIn store f outer) = none := by
      rw [Option.eq_none_iff_forall_ne_some]
      intro id hid
      obtain ⟨inner, g, out, e, hname, -⟩ := mem_openNames_iff.mp (mem_openNames_of_find? hid)
      obtain rfl : outer = inner ++ g :: out := e
      exact Distinct.nameIn_ne h hname.symm
    rw [List.nil_append, find?_cons, hnone, Option.none_or, if_pos rfl]
  | cons frame inner ih => rw [List.cons_append, find?_cons, ih h.tail, Option.some_or]

theorem Nested.parent_of_group (h : Nested (members ++ outer)) (hm : ∀ f ∈ members, f.group = group)
    (ho : ∀ f ∈ outer, f.group ≠ group) :
    ∀ f ∈ members, f.parent = outer.head?.map Frame.slot := by
  induction members with
  | nil => simp
  | cons frame members ih =>
    obtain ⟨hframe, hmembers⟩ := List.forall_mem_cons.mp hm
    have hrest := ih h.tail hmembers
    refine List.forall_mem_cons.mpr ⟨?_, hrest⟩
    cases members with
    | nil =>
      generalize e : [] ++ outer = below at h
      obtain rfl : outer = below := e
      cases h with
      | inside _ _ hp _ => exact hp
      | beside _ _ _ hg => exact absurd (hg.symm.trans hframe) (ho _ List.mem_cons_self)
    | cons next members =>
      cases h with
      | inside hn hs _ hg =>
        have hle := hn.group_le next List.mem_cons_self
        have hlt := hs next List.mem_cons_self
        have hnext := hmembers next List.mem_cons_self
        omega
      | beside _ _ hp _ => exact hp.trans (hrest next List.mem_cons_self)

theorem Nested.eq_filter_append {frames : List Frame} (h : Nested frames)
    (hg : ∀ f ∈ frames, f.group ≤ group) :
    frames = frames.filter (·.group == group) ++ frames.filter (·.group != group) := by
  induction frames with
  | nil => rfl
  | cons frame below ih =>
    obtain ⟨hframe, hbelow⟩ := List.forall_mem_cons.mp hg
    by_cases e : frame.group = group
    · rw [List.filter_cons_of_pos (by simpa using e), List.filter_cons_of_neg (by simpa using e),
        List.cons_append, ← ih h.tail hbelow]
    · have hne : ∀ f ∈ frame :: below, f.group ≠ group := by
        intro f hf
        rcases List.mem_cons.mp hf with rfl | hf
        · exact e
        · have hle := h.group_le_top f hf
          omega
      rw [List.filter_eq_nil_iff.mpr (by simpa using hne),
        List.filter_eq_self.mpr (by simpa using hne), List.nil_append]

end Scope

end CodeAtlas
