import CodeAtlas.Proofs.Catalog.Merging

/-! # Catalogs laid over each other

Components of a catalog that are placed over a base catalog take over their names, which keep their
positions. Of the base catalog's own components nothing changes but that replaced ones are struck
off. Which ones depends only on the order in which the names first come, and not on how often each
of them is placed.
-/

namespace CodeAtlas

theorem Component.eq_of_bare {c c' : Component} (h : c.bare = c'.bare)
    (hc : c.children = c'.children) : c = c' := by
  cases c
  cases c'
  simp_all [Component.bare]

namespace Table

variable {α : Type} {table table' : Table α} {entries : List (String × α)} {key : String}

theorem lookup_eq_none_iff : entries.lookup key = none ↔ key ∉ entries.map Prod.fst := by
  simp only [List.lookup_eq_none_iff, List.mem_map, not_exists, not_and, bne_iff_ne]
  exact forall₂_congr fun entry _ => ne_comm

theorem entries_eq (table : Table α) :
    table.entries = table.keys.filterMap fun key => (table.get? key).map (Prod.mk key) := by
  rw [keys, List.filterMap_map]
  refine (List.filterMap_some.symm.trans (List.filterMap_congr fun entry hm => ?_))
  rw [Function.comp_apply, mem_entries_iff.mp hm]
  rfl

theorem eq_of_get? (hk : table.keys = table'.keys) (hg : ∀ key, table.get? key = table'.get? key) :
    table = table' := by
  have h : table.entries = table'.entries := by simp only [entries_eq, hk, hg]
  cases table
  cases table'
  cases h
  rfl

end Table

namespace Catalog

variable {base base' c c' o : Catalog} {s : Store} {own : List (String × ComponentId)}
  {names before : List String} {n : String} {x id owner child : ComponentId}
  {parent : Option ComponentId}

theorem place_cases (hp : c.policy = .lastWriteWins) (hk : (c.store.get x).kind ≠ .package)
    (n : String) (parent : Option ComponentId) :
    c.get? n = none ∧ (c.place n x parent).1 = { c with table := c.table.put n x } ∨
      ∃ existing, c.get? n = some existing ∧
        (c.place n x parent).1 = c.replace n existing x parent := by
  have h := c.placed n x parent
  generalize c.place n x parent = result at h
  cases h with
  | added hn => exact .inl ⟨hn, rfl⟩
  | absorbed _ _ hk' => exact absurd hk' hk
  | refused _ _ hp' => exact absurd (hp.symm.trans hp') nofun
  | replaced hn => exact .inr ⟨_, hn, rfl⟩

theorem table_place (hp : c.policy = .lastWriteWins) (hk : (c.store.get x).kind ≠ .package) :
    (c.place n x parent).1.table = c.table.put n x := by
  rcases place_cases hp hk n parent with ⟨-, e⟩ | ⟨existing, -, e⟩ <;> rw [e]
  rfl

theorem policy_place (c : Catalog) (n : String) (x : ComponentId) (parent : Option ComponentId) :
    (c.place n x parent).1.policy = c.policy := by
  have h := c.placed n x parent
  generalize c.place n x parent = result at h
  cases h with
  | added | refused => rfl
  | absorbed => exact policy_absorb
  | replaced => exact policy_replace

theorem mergeEntry_of_lastWriteWins (hp : c.policy = .lastWriteWins)
    (entry : String × ComponentId) :
    c.mergeEntry entry = (c.place entry.1 entry.2 none).1 := by
  have h := c.placed entry.1 entry.2 none
  unfold mergeEntry
  generalize c.place entry.1 entry.2 none = result at h ⊢
  cases h with
  | added | absorbed | replaced => rfl
  | refused _ _ hp' => exact absurd (hp.symm.trans hp') nofun

/-- A child of the base catalog is struck off its owner there when its name is taken over, unless
the name of its parent is the same one or has been taken over before. -/
def strikesAt (base : Catalog) (before : List String) (n : String) (owner child : ComponentId) :
    Bool :=
  base.get? n == some child && (base.store.get child).parentName.any fun p =>
    p ∉ n :: before && base.get? p == some owner

def struck (base : Catalog) (before : List String) :
    List String → ComponentId → ComponentId → Bool
  | [], _, _ => false
  | n :: names, owner, child =>
    base.strikesAt before n owner child || base.struck (before ++ [n]) names owner child

theorem struck_append : base.struck before (names ++ [n]) owner child =
    (base.struck before names owner child ||
      base.strikesAt (before ++ names) n owner child) := by
  induction names generalizing before with
  | nil => simp [struck]
  | cons m names ih => simp [struck, ih, Bool.or_assoc]

theorem strikesAt_iff : base.strikesAt before n owner child = true ↔
    base.get? n = some child ∧ ∃ p, (base.store.get child).parentName = some p ∧ p ≠ n ∧
      p ∉ before ∧ base.get? p = some owner := by
  simp [strikesAt, Option.any_eq_true, and_assoc]

theorem struck_congr (ht : base'.table = base.table)
    (hp : ∀ n id, base.get? n = some id →
      (base'.store.get id).parentName = (base.store.get id).parentName) :
    base'.struck before names owner child = base.struck before names owner child := by
  have hget (n : String) : base'.get? n = base.get? n := congrArg (·.get? n) ht
  have hat (before : List String) (n : String) :
      base'.strikesAt before n owner child = base.strikesAt before n owner child := by
    rw [Bool.eq_iff_iff, strikesAt_iff, strikesAt_iff]
    simp only [hget]
    refine and_congr_right fun hn => ?_
    rw [hp n child hn]
  induction names generalizing before with
  | nil => rfl
  | cons n names ih => rw [struck, struck, hat, ih]

/-- The catalog `c` is the base catalog with entries laid over it. Components of the store `s` are
those that were there before. -/
structure Over (s : Store) (base : Catalog) (own : List (String × ComponentId)) (c : Catalog) :
    Prop where
  policy_eq : c.policy = .lastWriteWins
  keys_eq : c.table.keys = base.table.keys ++ (own.map Prod.fst).filter (· ∉ base.table.keys)
  get?_eq : ∀ n, c.get? n = (own.lookup n).or (base.get? n)
  apart : ∀ n id, own.lookup n = some id → ¬ s.Has id
  bare_eq : ∀ id, s.Has id → (c.store.get id).bare = (base.store.get id).bare
  children_eq : ∀ id, s.Has id → (c.store.get id).children =
    (base.store.get id).children.filter (!base.struck [] (own.map Prod.fst) id ·)

structure Holds (s : Store) (base : Catalog) : Prop where
  named : ∀ n id, base.get? n = some id → s.Has id
  listed : ∀ id, s.Has id → ∀ child ∈ (base.store.get id).children, s.Has child

theorem Holds.of_eq (h : Holds s c) (ht : c'.table = c.table) (hs : c'.store = c.store) :
    Holds s c' := by
  refine ⟨fun n id hn => h.named n id ?_, ?_⟩
  · rw [get?, ht] at hn
    exact hn
  · rw [hs]
    exact h.listed

theorem Holds.of_has_iff {t : Store} (h : Holds s c) (ht : ∀ id, t.Has id ↔ s.Has id) :
    Holds t c := by
  refine ⟨fun n id hn => (ht id).mpr (h.named n id hn), fun id hi child hm => ?_⟩
  exact (ht child).mpr (h.listed id ((ht id).mp hi) child hm)

theorem over_self (h : base.policy = .lastWriteWins) : Over s base [] base := by
  refine ⟨h, by simp, fun n => rfl, nofun, fun _ _ => rfl, fun _ _ => ?_⟩
  simp [struck]

theorem Over.of_eq (h : Over s base own c) (hp : c'.policy = c.policy) (ht : c'.table = c.table)
    (hg : ∀ id, s.Has id → c'.store.get id = c.store.get id) : Over s base own c' where
  policy_eq := hp.trans h.policy_eq
  keys_eq := by rw [ht, h.keys_eq]
  get?_eq n := by rw [get?, ht]; exact h.get?_eq n
  apart := h.apart
  bare_eq id hi := by rw [hg id hi, h.bare_eq id hi]
  children_eq id hi := by rw [hg id hi, h.children_eq id hi]

/-- What the same entries make of two base catalogs that do not differ is the same. -/
theorem Over.unique (h : Over s base own c) (h' : Over s base' own c') (hb : Holds s base)
    (ht : base'.table = base.table)
    (hg : ∀ id, s.Has id → base'.store.get id = base.store.get id) :
    c'.table = c.table ∧ ∀ id, s.Has id → c'.store.get id = c.store.get id := by
  refine ⟨Table.eq_of_get? ?_ fun n => ?_, fun id hi => Component.eq_of_bare ?_ ?_⟩
  · rw [h.keys_eq, h'.keys_eq, ht]
  · have hbase : base'.get? n = base.get? n := congrArg (·.get? n) ht
    exact (h'.get?_eq n).trans ((h.get?_eq n).trans (by rw [hbase])).symm
  · rw [h.bare_eq id hi, h'.bare_eq id hi, hg id hi]
  · have hs (child : ComponentId) : base'.struck [] (own.map Prod.fst) id child =
        base.struck [] (own.map Prod.fst) id child :=
      struck_congr ht fun n e he => by rw [hg e (hb.named n e he)]
    rw [h.children_eq id hi, h'.children_eq id hi, hg id hi]
    simp only [hs]

theorem Over.get?_eq_old (h : Over s base own c) (hi : s.Has id) :
    c.get? n = some id ↔ n ∉ own.map Prod.fst ∧ base.get? n = some id := by
  rw [h.get?_eq, ← Table.lookup_eq_none_iff]
  cases hn : own.lookup n with
  | none => simp
  | some y =>
    simp only [Option.some_or, Option.some.injEq, reduceCtorEq, false_and, iff_false]
    rintro rfl
    exact h.apart n y hn hi

theorem Over.keys_put (h : Over s base own c) (n : String) (x : ComponentId) :
    (c.table.put n x).keys =
      base.table.keys ++ ((Table.putEntry n x own).map Prod.fst).filter (· ∉ base.table.keys) := by
  have hmem : n ∈ c.table.keys ↔ n ∈ base.table.keys ∨ n ∈ own.map Prod.fst := by
    rw [h.keys_eq]
    by_cases hbase : n ∈ base.table.keys <;> simp [hbase]
  rw [Table.keys_put, Table.keys_putEntry, h.keys_eq]
  by_cases hown : n ∈ own.map Prod.fst
  · rw [if_pos hown, ← h.keys_eq, if_pos (hmem.mpr (.inr hown)), h.keys_eq]
  · rw [if_neg hown, List.filter_append]
    by_cases hbase : n ∈ base.table.keys
    · rw [← h.keys_eq, if_pos (hmem.mpr (.inl hbase)), h.keys_eq]
      simp [hbase]
    · rw [← h.keys_eq, if_neg (by rw [hmem]; exact not_or.mpr ⟨hbase, hown⟩), h.keys_eq]
      simp [hbase]

section Place

variable (h : Over s base own c) (hb : Holds s base)
include h hb

theorem Over.listed (hi : s.Has id) (hm : child ∈ (c.store.get id).children) : s.Has child := by
  rw [h.children_eq id hi] at hm
  exact hb.listed id hi child (List.mem_of_mem_filter hm)

theorem Over.get?_eq_new (hi : ¬ s.Has id) : c.get? n = some id ↔ own.lookup n = some id := by
  rw [h.get?_eq]
  cases own.lookup n with
  | none => simpa using fun e => hi (hb.named n id e)
  | some y => simp

theorem Over.ownerAfter_iff (hx : ¬ s.Has x) (hc : base.get? n = some child) (hi : s.Has id) :
    c.ownerAfter n child x = some id ↔ base.strikesAt (own.map Prod.fst) n id child = true := by
  have hparent : (c.store.get child).parentName = (base.store.get child).parentName := by
    have e := congrArg Component.parentName (h.bare_eq child (hb.named n child hc))
    exact e
  rw [strikesAt_iff, ownerAfter, hparent, Option.bind_eq_some_iff]
  simp only [hc, true_and, Table.get?_put]
  refine exists_congr fun p => and_congr_right fun _ => ?_
  split
  · rename_i e
    simp only [Option.some.injEq, e, ne_eq, not_true_eq_false, false_and, iff_false]
    rintro rfl
    exact hx hi
  · rename_i e
    exact (h.get?_eq_old hi).trans (by simp [e])

/-- Of the components of the base catalog, a child is struck off when its name is taken over for
the first time. -/
theorem Over.children_place (hx : ¬ s.Has x) (hk : (c.store.get x).kind ≠ .package)
    (hp : ∀ p, parent = some p → ¬ s.Has p) (hi : s.Has id) :
    ((c.place n x parent).1.store.get id).children = (base.store.get id).children.filter
      (!base.struck [] ((Table.putEntry n x own).map Prod.fst) id ·) := by
  rw [Table.keys_putEntry]
  have hparent : parent ≠ some id := fun e => hp id e hi
  rcases place_cases h.policy_eq hk n parent with ⟨hn, e⟩ | ⟨existing, hn, e⟩
  · -- The name is new, and strikes nothing off.
    rw [e]
    have hnone := (h.get?_eq n).symm.trans hn
    obtain ⟨hown, hbase⟩ := Option.or_eq_none_iff.mp hnone
    rw [if_neg (Table.lookup_eq_none_iff.mp hown)]
    simp only [struck_append, List.nil_append]
    have hno (child : ComponentId) :
        base.strikesAt (own.map Prod.fst) n id child = false := by
      simp [strikesAt, hbase]
    simp only [hno, Bool.or_false]
    exact h.children_eq id hi
  · rw [e, children_replace]
    by_cases hold : s.Has existing
    · -- The name is taken over from the base catalog.
      obtain ⟨hown, hbase⟩ := (h.get?_eq_old hold).mp hn
      rw [if_neg hown]
      simp only [struck_append, List.nil_append, hparent, false_or,
        h.ownerAfter_iff hb hx hbase hi, Bool.not_or]
      rw [← List.filter_filter, List.filter_comm, ← h.children_eq id hi]
      split
      · rename_i hs
        refine List.filter_congr fun child _ => ?_
        rw [Bool.eq_iff_iff, bne_iff_ne, Bool.not_eq_true', ← Bool.not_eq_true, not_iff_not]
        refine ⟨fun e => e ▸ hs, fun hs' => ?_⟩
        exact Option.some.inj ((strikesAt_iff.mp hs').1.symm.trans hbase)
      · rename_i hs
        refine (List.filter_eq_self.mpr fun child _ => ?_).symm
        rw [Bool.not_eq_true', ← Bool.not_eq_true]
        intro hs'
        obtain rfl := Option.some.inj ((strikesAt_iff.mp hs').1.symm.trans hbase)
        exact hs hs'
    · -- The name has been taken over before, by a component that nothing there lists.
      have hown := (h.get?_eq_new hb hold).mp hn
      have hmem : n ∈ own.map Prod.fst := by
        by_contra hno
        rw [Table.lookup_eq_none_iff.mpr hno] at hown
        cases hown
      rw [if_pos hmem, ← h.children_eq id hi]
      have hno : existing ∉ (c.store.get id).children := fun hm => hold (h.listed hb hi hm)
      split
      · refine List.filter_eq_self.mpr fun child hm => ?_
        simp only [bne_iff_ne, ne_eq]
        rintro rfl
        exact hno hm
      · rfl

theorem Over.place (hx : ¬ s.Has x) (hk : (c.store.get x).kind ≠ .package)
    (hp : ∀ p, parent = some p → ¬ s.Has p) :
    Over s base (Table.putEntry n x own) (c.place n x parent).1 where
  policy_eq := (c.policy_place n x parent).trans h.policy_eq
  keys_eq := by rw [table_place h.policy_eq hk, h.keys_put]
  get?_eq m := by
    rw [get?, table_place h.policy_eq hk, Table.get?_put, Table.lookup_putEntry]
    split
    · rfl
    · exact h.get?_eq m
  apart m id hm := by
    rw [Table.lookup_putEntry] at hm
    split at hm
    · cases hm
      exact hx
    · exact h.apart m id hm
  bare_eq id hi := ((c.alike_place n x parent).bare_eq id).trans (h.bare_eq id hi)
  children_eq id hi := h.children_place hb hx hk hp hi

/-- A component that takes over a name from the base catalog changes no component that lists none
of the base catalog's. -/
theorem Over.get_place (hk : (c.store.get x).kind ≠ .package) (hn : own.lookup n = none)
    (hl : ∀ child ∈ (c.store.get id).children, ¬ s.Has child) :
    (c.place n x parent).1.store.get id = c.store.get id := by
  rcases place_cases h.policy_eq hk n parent with ⟨-, e⟩ | ⟨existing, hg, e⟩
  · rw [e]
  · refine Component.eq_of_bare ((c.alike_place n x parent).bare_eq id) ?_
    rw [e, children_replace]
    split
    · refine List.filter_eq_self.mpr fun child hm => ?_
      simp only [bne_iff_ne, ne_eq]
      rintro rfl
      rw [h.get?_eq, hn, Option.none_or] at hg
      exact hl child hm (hb.named n child hg)
    · rfl

end Place

theorem Over.merge (h : Over s base own c) (hb : Holds s base)
    {entries : List (String × ComponentId)} (hn : ((own ++ entries).map Prod.fst).Nodup)
    (hx : ∀ entry ∈ entries, ¬ s.Has entry.2)
    (hk : ∀ entry ∈ entries, (c.store.get entry.2).kind ≠ .package)
    (hl : ∀ id, ¬ s.Has id → ∀ child ∈ (c.store.get id).children, ¬ s.Has child) :
    Over s base (own ++ entries) (c.merge entries) ∧
      ∀ id, ¬ s.Has id → (c.merge entries).store.get id = c.store.get id := by
  induction entries generalizing own c with
  | nil => exact ⟨by rw [List.append_nil]; exact h, fun _ _ => rfl⟩
  | cons entry rest ih =>
    obtain ⟨n, x⟩ := entry
    obtain ⟨hx, hxs⟩ := List.forall_mem_cons.mp hx
    obtain ⟨hk, hks⟩ := List.forall_mem_cons.mp hk
    have hlookup : own.lookup n = none := by
      rw [Table.lookup_eq_none_iff]
      intro hm
      rw [List.map_append, List.nodup_append] at hn
      exact hn.2.2 n hm n (by simp) rfl
    have hput : Table.putEntry n x own = own ++ [(n, x)] := Table.putEntry_of_lookup_none hlookup
    have hover : Over s base (own ++ [(n, x)]) (c.place n x none).1 := by
      rw [← hput]
      exact h.place hb hx hk nofun
    have hget (id : ComponentId) (hi : ¬ s.Has id) :
        (c.place n x none).1.store.get id = c.store.get id :=
      h.get_place hb hk hlookup (hl id hi)
    rw [List.append_cons] at hn ⊢
    rw [Catalog.merge, List.foldl_cons, mergeEntry_of_lastWriteWins h.policy_eq]
    obtain ⟨hover', hget'⟩ := ih hover hn hxs
      (fun entry hm => by rw [hget _ (hxs entry hm)]; exact hks entry hm)
      (fun id hi => by rw [hget id hi]; exact hl id hi)
    exact ⟨hover', fun id hi => (hget' id hi).trans (hget id hi)⟩

/-- The catalog `c` is the base catalog with the catalog `o` laid over it. -/
structure Laid (s : Store) (base o c : Catalog) : Prop where
  overlay : Over s base o.table.entries c
  policy_eq : o.policy = .lastWriteWins
  same : ∀ id, ¬ s.Has id → c.store.get id = o.store.get id

section Laid

variable (h : Laid s base o c) (hb : Holds s base)
include h hb

theorem Laid.ownerAfter_iff (hc : ¬ s.Has child) (hi : ¬ s.Has id) :
    c.ownerAfter n child x = some id ↔ o.ownerAfter n child x = some id := by
  rw [ownerAfter, ownerAfter, h.same child hc, Option.bind_eq_some_iff, Option.bind_eq_some_iff]
  refine exists_congr fun p => and_congr_right fun _ => ?_
  rw [Table.get?_put, Table.get?_put]
  split
  · rfl
  · exact h.overlay.get?_eq_new hb hi

theorem Laid.same_place (hl : ∀ id, ¬ s.Has id → ∀ child ∈ (o.store.get id).children, ¬ s.Has child)
    (hk : (o.store.get x).kind ≠ .package) (hx : ¬ s.Has x) (hi : ¬ s.Has id) :
    (c.place n x parent).1.store.get id = (o.place n x parent).1.store.get id := by
  have hk' : (c.store.get x).kind ≠ .package := by rwa [h.same x hx]
  rcases place_cases h.policy_eq hk n parent with ⟨hn, e⟩ | ⟨y, hn, e⟩
  · rw [e, h.overlay.get_place hb hk' hn fun child hm => hl id hi child (h.same id hi ▸ hm)]
    exact h.same id hi
  · have hy : ¬ s.Has y := h.overlay.apart n y hn
    have hn' := (h.overlay.get?_eq_new hb hy).mpr hn
    rcases place_cases h.overlay.policy_eq hk' n parent with ⟨hnone, -⟩ | ⟨y', hy', e'⟩
    · exact absurd (hn'.symm.trans hnone) nofun
    · obtain rfl := Option.some.inj (hn'.symm.trans hy')
      refine Component.eq_of_bare ?_ ?_
      · rw [(c.alike_place n x parent).bare_eq, (o.alike_place n x parent).bare_eq, h.same id hi]
      · rw [e, e', children_replace, children_replace, h.same id hi]
        simp only [h.ownerAfter_iff hb hy hi]

theorem Laid.place (hl : ∀ id, ¬ s.Has id → ∀ child ∈ (o.store.get id).children, ¬ s.Has child)
    (hk : (o.store.get x).kind ≠ .package) (hx : ¬ s.Has x)
    (hp : ∀ p, parent = some p → ¬ s.Has p) :
    Laid s base (o.place n x parent).1 (c.place n x parent).1 where
  overlay := by
    rw [table_place h.policy_eq hk]
    exact h.overlay.place hb hx (by rwa [h.same x hx]) hp
  policy_eq := (o.policy_place n x parent).trans h.policy_eq
  same id hi := h.same_place hb hl hk hx hi

end Laid

/-- The catalog `m` has what `c` has, in a store that may hold more than that of `c`. The other
components are those of the store `s`. -/
structure Matches (s : Store) (c m : Catalog) : Prop where
  policy_eq : m.policy = c.policy
  table_eq : m.table = c.table
  size_eq : m.store.cells.size = s.cells.size
  has : ∀ id, c.store.Has id → s.Has id
  agree : ∀ id, c.store.Has id → m.store.get id = c.store.get id
  rest : ∀ id, ¬ c.store.Has id → m.store.get id = s.get id

theorem Holds.place (h : Holds s c) (hs : ∀ id, s.Has id → c.store.Has id) (hx : s.Has x) :
    Holds s (c.place n x parent).1 := by
  have hput (m : String) (id : ComponentId) (hi : (c.table.put n x).get? m = some id) :
      s.Has id := by
    rw [Table.get?_put] at hi
    split at hi
    · exact Option.some.inj hi ▸ hx
    · exact h.named m id hi
  have hp := c.placed n x parent
  generalize c.place n x parent = result at hp
  cases hp with
  | added => exact ⟨hput, h.listed⟩
  | refused => exact h
  | replaced =>
    refine ⟨hput, fun id hi child hm => h.listed id hi child ?_⟩
    rw [children_replace] at hm
    split at hm
    · exact List.mem_of_mem_filter hm
    · exact hm
  | @absorbed existing he =>
    have hexisting := h.named n existing he
    refine ⟨fun m id hi => h.named m id ?_, fun id hi child hm => ?_⟩
    · rw [get?, table_absorb] at hi
      exact hi
    · by_cases hne : existing = x
      · simp only [Catalog.absorb, if_pos hne] at hm
        exact h.listed id hi child hm
      · rw [children_absorb (hs existing hexisting) hne] at hm
        split at hm
        · rcases List.mem_append.mp (List.mem_of_mem_filter hm) with hm | hm
          · exact h.listed existing hexisting child hm
          · exact h.listed x hx child hm
        · exact h.listed id hi child hm

theorem Matches.of_eq {m m' : Catalog} (h : Matches s c m) (hcp : c'.policy = c.policy)
    (hct : c'.table = c.table) (hcs : c'.store = c.store) (hmp : m'.policy = m.policy)
    (hmt : m'.table = m.table) (hms : m'.store = m.store) : Matches s c' m' := by
  obtain ⟨h₁, h₂, h₃, h₄, h₅, h₆⟩ := h
  constructor
  all_goals simp only [hcp, hct, hcs, hmp, hmt, hms]
  all_goals assumption

section Matches

variable {m : Catalog} (h : Matches s c m) (hc : Holds c.store c)
include h hc

theorem Matches.absorb {existing : ComponentId} (he : c.store.Has existing)
    (hx : c.store.Has x) : Matches s (c.absorb existing x) (m.absorb existing x) := by
  have hm (id : ComponentId) (hi : c.store.Has id) : m.store.Has id := by
    rw [Store.Has, h.size_eq]
    exact h.has id hi
  have halike := c.alike_absorb existing x
  refine ⟨?_, ?_, ?_, fun id hi => h.has id (halike.has_iff.mp hi), fun id hi => ?_,
    fun id hi => ?_⟩
  · rw [policy_absorb, policy_absorb, h.policy_eq]
  · rw [table_absorb, table_absorb, h.table_eq]
  · rw [(m.alike_absorb existing x).size_eq, h.size_eq]
  · rw [halike.has_iff] at hi
    refine Component.eq_of_bare ?_ ?_
    · rw [halike.bare_eq, (m.alike_absorb existing x).bare_eq, h.agree id hi]
    · by_cases hne : existing = x
      · simp only [Catalog.absorb, if_pos hne, h.agree id hi]
      · rw [children_absorb he hne, children_absorb (hm existing he) hne, h.agree existing he,
          h.agree x hx, h.agree id hi]
        split
        · refine List.filter_congr fun child hmem => ?_
          have hchild : c.store.Has child := by
            rcases List.mem_append.mp hmem with hmem | hmem
            · exact hc.listed existing he child hmem
            · exact hc.listed x hx child hmem
          rw [isCurrent, isCurrent, h.agree child hchild, get?, h.table_eq]
          rfl
        · rfl
  · rw [halike.has_iff] at hi
    have hne : id ≠ existing := fun e => hi (e ▸ he)
    rw [get_absorb_of_ne hne]
    exact h.rest id hi

theorem Matches.replace {existing : ComponentId} (he : c.store.Has existing)
    (hx : c.store.Has x) :
    Matches s (c.replace n existing x none) (m.replace n existing x none) := by
  have halike := c.alike_replace n existing x none
  have howner : m.ownerAfter n existing x = c.ownerAfter n existing x := by
    rw [ownerAfter, ownerAfter, h.agree existing he, h.table_eq]
  refine ⟨h.policy_eq, ?_, ?_, fun id hi => h.has id (halike.has_iff.mp hi), fun id hi => ?_,
    fun id hi => ?_⟩
  · rw [table_replace, table_replace, h.table_eq]
  · rw [(m.alike_replace n existing x none).size_eq, h.size_eq]
  · rw [halike.has_iff] at hi
    refine Component.eq_of_bare ?_ ?_
    · rw [halike.bare_eq, (m.alike_replace n existing x none).bare_eq, h.agree id hi]
    · rw [children_replace, children_replace, howner, h.agree id hi]
  · rw [halike.has_iff] at hi
    refine (get_replace_of_ne (by simp) ?_).trans (h.rest id hi)
    rw [howner]
    intro e
    obtain ⟨p, -, hp⟩ := Option.bind_eq_some_iff.mp e
    rw [Table.get?_put] at hp
    split at hp
    · exact hi (Option.some.inj hp ▸ hx)
    · exact hi (hc.named p id hp)

theorem Matches.place (hx : c.store.Has x) :
    Matches s (c.place n x none).1 (m.place n x none).1 := by
  have hget : m.get? n = c.get? n := congrArg (·.get? n) h.table_eq
  unfold Catalog.place
  rw [hget]
  cases hn : c.get? n with
  | none =>
    exact ⟨h.policy_eq, congrArg (·.put n x) h.table_eq, h.size_eq, h.has, h.agree, h.rest⟩
  | some existing =>
    have he := hc.named n existing hn
    dsimp only
    rw [h.agree existing he, h.agree x hx, h.policy_eq]
    split
    · exact h.absorb hc he hx
    · split
      · exact h
      · exact h.replace hc he hx

end Matches

theorem alike_merge (c : Catalog) (entries : List (String × ComponentId)) :
    c.store.Alike (c.merge entries).store := by
  induction entries generalizing c with
  | nil => exact .refl _
  | cons entry rest ih =>
    refine Store.Alike.trans ?_ (ih (c.mergeEntry entry))
    rw [store_mergeEntry]
    exact c.alike_place entry.1 entry.2 none

/-- A catalog laid over another one, and the entries of the former merged into what matches the
latter. -/
theorem Laid.matches {m : Catalog} {t : Store} (h : Laid s base o c) (hb : Holds s base)
    (hp : base.policy = .lastWriteWins) (hbase : ∀ id, base.store.Has id ↔ s.Has id)
    (hc : ∀ id, c.store.Has id ↔ o.store.Has id)
    (hs : ∀ id, s.Has id → o.store.Has id) (ht : o.store.Extends t) (hw : s.Widens t)
    (hn : ∀ n id, o.get? n = some id → o.store.Has id ∧ (o.store.get id).kind ≠ .package)
    (hm : Matches t base m) : Matches t c (m.merge o.table.entries) := by
  have hold (id : ComponentId) (hi : s.Has id) : m.store.get id = base.store.get id :=
    hm.agree id ((hbase id).mpr hi)
  have hnew (id : ComponentId) (hi : ¬ s.Has id) : m.store.get id = t.get id :=
    hm.rest id (mt (hbase id).mp hi)
  have hholds : Holds s m := by
    refine ⟨fun n id e => hb.named n id ?_, fun id hi => ?_⟩
    · rw [get?, hm.table_eq] at e
      exact e
    · rw [hold id hi]
      exact hb.listed id hi
  have hpolicy : m.policy = .lastWriteWins := hm.policy_eq.trans hp
  have hentry (entry : String × ComponentId) (he : entry ∈ o.table.entries) :
      o.get? entry.1 = some entry.2 := Table.mem_entries_iff.mp he
  obtain ⟨hover, hkept⟩ := (over_self (s := s) hpolicy).merge hholds o.table.nodup
    (fun entry he => h.overlay.apart _ _ (hentry entry he))
    (fun entry he => by
      obtain ⟨hhas, hk⟩ := hn _ _ (hentry entry he)
      rw [hnew _ (h.overlay.apart _ _ (hentry entry he)), ht.get_eq _ hhas]
      exact hk)
    (fun id hi => by
      rw [hnew id hi]
      exact hw.own id hi)
  obtain ⟨htable, hsame⟩ := h.overlay.unique hover hb hm.table_eq hold
  refine ⟨?_, htable, ?_, fun id hi => ?_, fun id hi => ?_, fun id hi => ?_⟩
  · rw [hover.policy_eq, h.overlay.policy_eq]
  · rw [(m.alike_merge _).size_eq, hm.size_eq]
  · exact ht.has id ((hc id).mp hi)
  · by_cases ho : s.Has id
    · exact hsame id ho
    · rw [hkept id ho, hnew id ho, ht.get_eq id ((hc id).mp hi), h.same id ho]
  · have ho : ¬ s.Has id := fun ho => hi ((hc id).mpr (hs id ho))
    rw [hkept id ho, hnew id ho]

end Catalog

end CodeAtlas
