import Mathlib.Data.List.Nodup
import CodeAtlas.Proofs.Catalog.Overlay

/-! # Well-formed tables

In a well-formed table every child that a component lists is a component of the table, below the
component's name. While one such table is merged into another one, components may list children that
are still to come. If the last write wins, all of them have come in the end, and none that has been
replaced is still listed.
-/

namespace CodeAtlas

/-- The component goes by the name and lists each of its children once. They are no packages, have
the name as their parent's name, and are held under their own names. -/
structure Store.Proper (store : Store) (held : String → ComponentId → Prop) (name : String)
    (id : ComponentId) : Prop where
  has : store.Has id
  name_eq : (store.get id).qualifiedName = some name
  nodup : (store.get id).children.Nodup
  child : ∀ child ∈ (store.get id).children, (store.get child).kind ≠ .package ∧
    (store.get child).parentName = some name ∧
    ∃ n, (store.get child).qualifiedName = some n ∧ held n child

theorem Store.Proper.mono {s t : Store} {held held' : String → ComponentId → Prop} {name : String}
    {id : ComponentId} (h : s.Proper held name id) (ha : s.Alike t)
    (hs : (t.get id).children.Sublist (s.get id).children)
    (hh : ∀ n, ∀ child ∈ (t.get id).children, (s.get child).kind ≠ .package →
      held n child → held' n child) : t.Proper held' name id where
  has := ha.has_iff.mpr h.has
  name_eq := (ha.qualifiedName_eq id).trans h.name_eq
  nodup := h.nodup.sublist hs
  child c hm := by
    obtain ⟨hk, hp, n, hn, hheld⟩ := h.child c (hs.subset hm)
    rw [ha.kind_eq, ha.parentName_eq, ha.qualifiedName_eq]
    exact ⟨hk, hp, n, hn, hh n c hm hk hheld⟩

/-- Every key is its component's name, and what a component lists is in the table. -/
def Table.WellFormed (store : Store) (table : Table ComponentId) : Prop :=
  ∀ name id, table.get? name = some id →
    store.Proper (fun n child => table.get? n = some child) name id

theorem Table.WellFormed.named {store : Store} {table : Table ComponentId}
    (h : table.WellFormed store) : Catalog.Named store table.entries := by
  intro n id hm
  have hproper := h n id (Table.mem_entries_iff.mp hm)
  exact ⟨hproper.has, hproper.name_eq⟩

section Decidable

instance (store : Store) (id : ComponentId) : Decidable (store.Has id) :=
  inferInstanceAs (Decidable (id.index < store.cells.size))

instance (store : Store) (held : String → ComponentId → Prop)
    [∀ n child, Decidable (held n child)] (name : String) (id : ComponentId) :
    Decidable (store.Proper held name id) :=
  decidable_of_iff (store.Has id ∧ (store.get id).qualifiedName = some name ∧
    (store.get id).children.Nodup ∧ ∀ child ∈ (store.get id).children,
      (store.get child).kind ≠ .package ∧ (store.get child).parentName = some name ∧
      (store.get child).qualifiedName.any (fun n => decide (held n child)) = true) (by
    simp only [Option.any_eq_true, decide_eq_true_eq]
    exact ⟨fun ⟨h₁, h₂, h₃, h₄⟩ => ⟨h₁, h₂, h₃, h₄⟩, fun ⟨h₁, h₂, h₃, h₄⟩ => ⟨h₁, h₂, h₃, h₄⟩⟩)

instance (store : Store) (table : Table ComponentId) : Decidable (table.WellFormed store) :=
  decidable_of_iff (∀ entry ∈ table.entries,
    store.Proper (fun n child => table.get? n = some child) entry.1 entry.2) (by
    simp only [Table.WellFormed, Prod.forall, Table.mem_entries_iff])

instance (table table' : Table ComponentId) : Decidable (table.Apart table') :=
  decidable_of_iff (∀ entry ∈ table.entries, ∀ entry' ∈ table'.entries, entry.2 ≠ entry'.2) (by
    simp only [Table.Apart, Prod.forall, Table.mem_entries_iff]
    constructor
    · intro h m n id hm hn
      exact h m id hm n id hn rfl
    · rintro h m id hm n _ hn rfl
      exact h m n id hm hn)

end Decidable

namespace Catalog

variable {c after : Catalog} {done todo : List (String × ComponentId)} {name : String}
  {id existing : ComponentId}

/-- A well-formed table is being merged into a catalog. Its entries `done` have been placed, and
`todo` are still to come. -/
structure Midway (done todo : List (String × ComponentId)) (c : Catalog) : Prop where
  policy_eq : c.policy = .lastWriteWins
  nodup : ((done ++ todo).map Prod.fst).Nodup
  current : ∀ name id, c.get? name = some id →
    c.store.Proper (fun n child => c.get? n = some child ∨ (n, child) ∈ todo) name id
  coming : ∀ name id, (name, id) ∈ todo →
    c.store.Proper (fun n child => (n, child) ∈ done ++ todo) name id
  new : ∀ name id, (name, id) ∈ todo → ∀ n, c.get? n ≠ some id
  settled : ∀ name id, (name, id) ∈ done → (c.store.get id).kind ≠ .package →
    c.get? name = some id
  foreign : ∀ name id owner, (name, id) ∈ todo → c.get? name = some owner →
    ∀ child ∈ (c.store.get owner).children, ∀ n, (n, child) ∉ done ++ todo

theorem Midway.ne_of_mem (h : Midway done ((name, id) :: todo) c) {entry : String × ComponentId}
    (hm : entry ∈ done ∨ entry ∈ todo) : entry.1 ≠ name := by
  have hn := h.nodup
  rw [List.map_append, List.map_cons, List.nodup_middle, List.nodup_cons, ← List.map_append] at hn
  intro e
  exact hn.1 (List.mem_map.mpr ⟨entry, List.mem_append.mpr hm, e⟩)

theorem Midway.name_unique (h : Midway done todo c) {m n : String} (hm : c.get? m = some id)
    (hn : c.get? n = some id) : m = n :=
  Option.some.inj ((h.current m id hm).name_eq.symm.trans (h.current n id hn).name_eq)

/-- The entry to come takes its name, and what had the name is listed nowhere any more. -/
theorem Midway.put (h : Midway done ((name, id) :: todo) c) (hp : after.policy = c.policy)
    (ha : c.store.Alike after.store)
    (hget : ∀ n, after.get? n = if n = name then some id else c.get? n)
    (hsub : ∀ i, (after.store.get i).children.Sublist (c.store.get i).children)
    (hstruck : ∀ p owner existing, p ≠ name → c.get? p = some owner →
      c.get? name = some existing → existing ∉ (after.store.get owner).children) :
    Midway (done ++ [(name, id)]) todo after := by
  have hentries : done ++ [(name, id)] ++ todo = done ++ (name, id) :: todo := by simp
  have hself : after.get? name = some id := by rw [hget, if_pos rfl]
  have hother {n : String} (hn : n ≠ name) : after.get? n = c.get? n := by rw [hget, if_neg hn]
  constructor
  · exact hp.trans h.policy_eq
  · rw [hentries]
    exact h.nodup
  · intro n i hi
    by_cases e : n = name
    · subst e
      obtain rfl := Option.some.inj (hself.symm.trans hi)
      refine (h.coming n id List.mem_cons_self).mono ha (hsub id) fun m child _ hk hm => ?_
      rcases List.mem_append.mp hm with hm | hm
      · exact .inl ((hother (h.ne_of_mem (.inl hm))).trans (h.settled m child hm hk))
      · rcases List.mem_cons.mp hm with e | hm
        · cases e
          exact .inl hself
        · exact .inr hm
    · rw [hother e] at hi
      refine (h.current n i hi).mono ha (hsub i) fun m child hc _ hm => ?_
      rcases hm with hm | hm
      · have hne : m ≠ name := by
          rintro rfl
          exact hstruck n i child e hi hm hc
        exact .inl ((hother hne).trans hm)
      · rcases List.mem_cons.mp hm with e | hm
        · cases e
          exact .inl hself
        · exact .inr hm
  · intro n i hm
    rw [hentries]
    exact (h.coming n i (List.mem_cons_of_mem _ hm)).mono ha (hsub i) fun _ _ _ _ hm => hm
  · intro n i hm m hi
    rw [hget] at hi
    split at hi
    · obtain rfl := Option.some.inj hi
      have hname := (h.coming n id (List.mem_cons_of_mem _ hm)).name_eq
      rw [(h.coming name id List.mem_cons_self).name_eq] at hname
      exact h.ne_of_mem (.inr hm) (Option.some.inj hname).symm
    · exact h.new n i (List.mem_cons_of_mem _ hm) m hi
  · intro n i hm hk
    rw [ha.kind_eq] at hk
    rcases List.mem_append.mp hm with hm | hm
    · exact (hother (h.ne_of_mem (.inl hm))).trans (h.settled n i hm hk)
    · cases List.mem_singleton.mp hm
      exact hself
  · intro n i owner hm hi child hc m
    rw [hother (h.ne_of_mem (.inr hm))] at hi
    rw [hentries]
    exact h.foreign n i owner (List.mem_cons_of_mem _ hm) hi child ((hsub owner).subset hc) m

/-- A component that lists the one to be replaced is its owner by name. -/
theorem Midway.replace (h : Midway done ((name, id) :: todo) c)
    (he : c.get? name = some existing) :
    Midway (done ++ [(name, id)]) todo (c.replace name existing id none) := by
  have hchildren := c.children_replace name existing id none
  refine h.put rfl (c.alike_replace ..) (Table.get?_put c.table name id) (fun i => ?_) ?_
  · rw [hchildren]
    split
    · exact List.filter_sublist
    · exact .refl _
  · intro p owner x hne hp hx hm
    obtain rfl := Option.some.inj (he.symm.trans hx)
    rw [hchildren] at hm
    split at hm
    · simp at hm
    · rename_i hno
      obtain ⟨-, hparent, -⟩ := (h.current p owner hp).child existing hm
      refine hno (.inr ?_)
      rw [ownerAfter, hparent, Option.bind_some, Table.get?_put, if_neg hne]
      exact hp

theorem Midway.absorb (h : Midway done ((name, id) :: todo) c)
    (he : c.get? name = some existing) (hk : (c.store.get id).kind = .package) :
    Midway (done ++ [(name, id)]) todo (c.absorb existing id) := by
  have hentries : done ++ [(name, id)] ++ todo = done ++ (name, id) :: todo := by simp
  have hne : existing ≠ id := by
    rintro rfl
    exact h.new name existing List.mem_cons_self name he
  have hget (n : String) : (c.absorb existing id).get? n = c.get? n := by
    rw [get?, table_absorb]
    rfl
  have hold := h.current name existing he
  have hnew := h.coming name id List.mem_cons_self
  have ha := c.alike_absorb existing id
  have hchildren := children_absorb hold.has hne
  have hkept {i : ComponentId} (hi : i ≠ existing) :
      ((c.absorb existing id).store.get i).children = (c.store.get i).children := by
    rw [hchildren, if_neg hi]
  constructor
  · exact policy_absorb.trans h.policy_eq
  · rw [hentries]
    exact h.nodup
  · intro n i hi
    rw [hget] at hi
    simp only [hget]
    by_cases e : i = existing
    · subst e
      obtain rfl := h.name_unique hi he
      refine ⟨ha.has_iff.mpr hold.has, (ha.qualifiedName_eq i).trans hold.name_eq, ?_, ?_⟩
      · rw [hchildren, if_pos rfl]
        refine (List.nodup_append.mpr ⟨hold.nodup, hnew.nodup, ?_⟩).sublist List.filter_sublist
        rintro child hm _ hm' rfl
        obtain ⟨-, -, m, -, hentry⟩ := hnew.child child hm'
        exact h.foreign n id i List.mem_cons_self hi child hm m hentry
      · intro child hm
        rw [hchildren, if_pos rfl, List.mem_filter, List.mem_append] at hm
        rw [ha.kind_eq, ha.parentName_eq, ha.qualifiedName_eq]
        obtain ⟨hm, hcurrent⟩ := hm
        have hlisted : (c.store.get child).kind ≠ .package ∧
            (c.store.get child).parentName = some n ∧
            ∃ m, (c.store.get child).qualifiedName = some m := by
          rcases hm with hm | hm
          · obtain ⟨hkind, hparent, m, hq, -⟩ := hold.child child hm
            exact ⟨hkind, hparent, m, hq⟩
          · obtain ⟨hkind, hparent, m, hq, -⟩ := hnew.child child hm
            exact ⟨hkind, hparent, m, hq⟩
        obtain ⟨hkind, hparent, m, hq⟩ := hlisted
        exact ⟨hkind, hparent, m, hq, .inl ((isCurrent_iff hq).mp hcurrent)⟩
    · refine (h.current n i hi).mono ha (by rw [hkept e]) fun m child _ hkind hm => ?_
      refine hm.imp_right fun hm => (List.mem_cons.mp hm).resolve_left ?_
      intro e
      cases e
      exact hkind hk
  · intro n i hm
    have hi : i ≠ existing := by
      rintro rfl
      exact h.new n i (List.mem_cons_of_mem _ hm) name he
    rw [hentries]
    exact (h.coming n i (List.mem_cons_of_mem _ hm)).mono ha (by rw [hkept hi]) fun _ _ _ _ hm => hm
  · intro n i hm m
    rw [hget]
    exact h.new n i (List.mem_cons_of_mem _ hm) m
  · intro n i hm hkind
    rw [ha.kind_eq] at hkind
    rw [hget]
    rcases List.mem_append.mp hm with hm | hm
    · exact h.settled n i hm hkind
    · cases List.mem_singleton.mp hm
      exact absurd hk hkind
  · intro n i owner hm hi
    rw [hget] at hi
    have ho : owner ≠ existing := by
      rintro rfl
      exact h.ne_of_mem (.inr hm) (h.name_unique hi he)
    rw [hkept ho, hentries]
    exact h.foreign n i owner (List.mem_cons_of_mem _ hm) hi

theorem Midway.step (h : Midway done ((name, id) :: todo) c) :
    Midway (done ++ [(name, id)]) todo (c.mergeEntry (name, id)) := by
  have hp := c.placed name id none
  rw [mergeEntry_of_lastWriteWins h.policy_eq]
  generalize c.place name id none = result at hp
  cases hp with
  | added hnone =>
    refine h.put rfl (.refl _) (Table.get?_put c.table name id) (fun _ => .refl _) ?_
    intro p owner existing _ _ he
    rw [hnone] at he
    cases he
  | absorbed he _ hk => exact h.absorb he hk
  | refused _ _ hp => exact absurd (h.policy_eq.symm.trans hp) nofun
  | replaced he => exact h.replace he

theorem Midway.merge (h : Midway done todo c) : Midway (done ++ todo) [] (c.merge todo) := by
  induction todo generalizing done c with
  | nil =>
    rw [List.append_nil]
    exact h
  | cons entry rest ih =>
    have hrest := ih h.step
    rwa [List.append_assoc, List.singleton_append] at hrest

variable {table : Table ComponentId}

theorem midway_start (hp : c.policy = .lastWriteWins) (hc : c.table.WellFormed c.store)
    (ht : table.WellFormed c.store) (ha : c.table.Apart table) : Midway [] table.entries c := by
  have hheld (n : String) (child : ComponentId) :
      (n, child) ∈ table.entries ↔ table.get? n = some child := Table.mem_entries_iff
  refine ⟨hp, table.nodup, fun n i hi => ?_, fun n i hm => ?_, fun n i hm m hi => ?_, nofun, ?_⟩
  · exact (hc n i hi).mono (.refl _) (.refl _) fun _ _ _ _ => .inl
  · have hproper := ht n i ((hheld n i).mp hm)
    exact hproper.mono (.refl _) (.refl _) fun m child _ _ => (hheld m child).mpr
  · exact ha m n i hi ((hheld n i).mp hm)
  · intro n i owner hm ho child hchild m hentry
    obtain ⟨-, -, m', -, hcurrent⟩ := (hc n owner ho).child child hchild
    exact ha m' m child hcurrent ((hheld m child).mp hentry)

/-- Merging a well-formed table into a catalog with other components leaves a well-formed one. -/
theorem wellFormed_merge (hp : c.policy = .lastWriteWins) (hc : c.table.WellFormed c.store)
    (ht : table.WellFormed c.store) (ha : c.table.Apart table) :
    (c.merge table.entries).policy = .lastWriteWins ∧
      (c.merge table.entries).table.WellFormed (c.merge table.entries).store := by
  have hend := (midway_start hp hc ht ha).merge
  refine ⟨hend.policy_eq, fun n i hi => ?_⟩
  refine (hend.current n i hi).mono (.refl _) (.refl _) fun _ _ _ _ hm => ?_
  exact hm.resolve_right nofun

def mergeAll (catalog : Catalog) (tables : List (Table ComponentId)) : Catalog :=
  tables.foldl (fun c t => c.merge t.entries) catalog

variable {store : Store} {tables : List (Table ComponentId)}

theorem wellFormed_mergeFrom (merged : List (Table ComponentId))
    (hg : Gathered store (merged.flatMap Table.entries) c)
    (hp : c.policy = .lastWriteWins) (hc : c.table.WellFormed c.store)
    (ht : ∀ t ∈ tables, t.WellFormed store) (ha : (merged ++ tables).Pairwise Table.Apart) :
    Gathered store ((merged ++ tables).flatMap Table.entries) (c.mergeAll tables) ∧
      (c.mergeAll tables).table.WellFormed (c.mergeAll tables).store := by
  induction tables generalizing merged c with
  | nil =>
    rw [List.append_nil]
    exact ⟨hg, hc⟩
  | cons table rest ih =>
    obtain ⟨htable, hrest⟩ := List.forall_mem_cons.mp ht
    have hapart (t : Table ComponentId) (hm : t ∈ merged) : t.Apart table :=
      (List.pairwise_append.mp ha).2.2 t hm table List.mem_cons_self
    have hseen {n : String} {i : ComponentId} (hi : (n, i) ∈ merged.flatMap Table.entries)
        (m : String) : table.get? m ≠ some i := by
      obtain ⟨t, hm, hi⟩ := Joins.mem_seen_iff.mp hi
      exact hapart t hm n m i hi
    -- The components of the table are as they were in the store.
    have hhere : table.WellFormed c.store := by
      intro n i hi
      have hkept := hg.untouched i fun m hm => hseen hm n hi
      exact (htable n i hi).mono hg.alike (by rw [hkept]) fun _ _ _ _ hm => hm
    obtain ⟨hpolicy, hwf⟩ := wellFormed_merge hp hc hhere fun m n i hm =>
      hseen (hg.origin m i hm) n
    have hg' : Gathered store ((merged ++ [table]).flatMap Table.entries)
        (c.merge table.entries) := by
      rw [List.flatMap_append, List.flatMap_singleton]
      exact hg.merge htable.named
    rw [List.append_cons] at ha ⊢
    exact ih _ hg' hpolicy hwf hrest ha

/-- If well-formed tables without common components are merged one after the other and the last
write wins, the catalog is well-formed after each of them. It has the names of all that were
merged. -/
theorem wellFormed_mergeAll (store : Store) (tables : List (Table ComponentId))
    (ht : ∀ t ∈ tables, t.WellFormed store) (ha : tables.Pairwise Table.Apart) (k : Nat) :
    let model := (empty .lastWriteWins store).mergeAll (tables.take k)
    model.table.WellFormed model.store ∧
      ∀ name, name ∈ model.table.keys ↔ ∃ t ∈ tables.take k, name ∈ t.keys := by
  intro model
  have hstart : Gathered store [] (empty .lastWriteWins store) :=
    ⟨.refl store, nofun, nofun, nofun, fun _ _ => rfl⟩
  obtain ⟨hg, hwf⟩ := wellFormed_mergeFrom [] hstart rfl nofun
    (fun t hm => ht t (List.mem_of_mem_take hm)) (ha.sublist (List.take_sublist k tables))
  refine ⟨hwf, fun name => ?_⟩
  simp only [Table.mem_keys_iff]
  constructor
  · rintro ⟨id, hi⟩
    obtain ⟨t, hm, hi⟩ := Joins.mem_seen_iff.mp (hg.origin name id hi)
    exact ⟨t, hm, id, hi⟩
  · rintro ⟨t, hm, id, hi⟩
    exact hg.present name id (Joins.mem_seen_iff.mpr ⟨t, hm, hi⟩)

/-- Three tables for a package `p` with a class `A`. In the first one the class comes before its
method `f`, in the second one `p` is a class and comes first, and in the third one the class has a
method `g`. -/
def regrouped : Store × List (Table ComponentId) :=
  (⟨#[.ofNames .package "p" none [1], .ofNames .classType "p.A" "p" [2],
      .ofNames .method "p.A.f" "p.A" [], .ofNames .classType "p" none [4],
      .ofNames .classType "p.A" "p" [], .ofNames .method "p.A.g" "p.A" [],
      .ofNames .classType "p.A" "p" [5], .ofNames .package "p" none [6]]⟩,
    [.ofList [("p.A", ⟨1⟩), ("p.A.f", ⟨2⟩), ("p", ⟨0⟩)], .ofList [("p", ⟨3⟩), ("p.A", ⟨4⟩)],
      .ofList [("p.A.g", ⟨5⟩), ("p.A", ⟨6⟩), ("p", ⟨7⟩)]])

theorem wellFormed_mergeAll_regrouped :
    (∀ t ∈ regrouped.2, t.WellFormed regrouped.1) ∧ regrouped.2.Pairwise Table.Apart ∧
    let model := (empty .lastWriteWins regrouped.1).mergeAll (regrouped.2.take 3)
    model.table.WellFormed model.store ∧
      model.table.entries = [("p.A", ⟨6⟩), ("p.A.f", ⟨2⟩), ("p", ⟨7⟩), ("p.A.g", ⟨5⟩)] ∧
      (model.store.get ⟨7⟩).children = [⟨6⟩] ∧ (model.store.get ⟨3⟩).children = [] := by
  have ht : ∀ t ∈ regrouped.2, t.WellFormed regrouped.1 := by decide +kernel
  have ha : regrouped.2.Pairwise Table.Apart := by decide +kernel
  obtain ⟨hwf, -⟩ := wellFormed_mergeAll regrouped.1 regrouped.2 ht ha 3
  exact ⟨ht, ha, hwf, by decide +kernel, by decide +kernel, by decide +kernel⟩

end Catalog

end CodeAtlas
