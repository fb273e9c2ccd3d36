import CodeAtlas.Proofs.Catalog.Clashes
import CodeAtlas.Proofs.Catalog.WellFormed

/-! # The order of merged tables

Where tables share nothing but packages and packages come after their children, every child is
current when its package is merged. So a package takes in all children that the tables list for it,
nothing else changes and nothing is reported. None of this depends on the order of the tables, but
for the order in which a package lists its children.
-/

namespace CodeAtlas

/-- Every key is its component's name. A package lists no packages, only components that the table
has under their names, and none that comes after it. -/
structure Table.ChildrenFirst (store : Store) (table : Table ComponentId) : Prop where
  named : Catalog.Named store table.entries
  child : ∀ p package, table.get? p = some package → (store.get package).kind = .package →
    ∀ child ∈ (store.get package).children, (store.get child).kind ≠ .package ∧
      ∃ n, (store.get child).qualifiedName = some n ∧ table.get? n = some child
  after : table.entries.Pairwise fun entry later =>
    (store.get entry.2).kind = .package → later.2 ∉ (store.get entry.2).children

section Decidable

variable (store : Store)

instance (entries : List (String × ComponentId)) : Decidable (Catalog.Named store entries) :=
  decidable_of_iff (∀ entry ∈ entries,
    store.Has entry.2 ∧ (store.get entry.2).qualifiedName = some entry.1) (by
    simp only [Catalog.Named, Prod.forall])

instance (table : Table ComponentId) : Decidable (table.ChildrenFirst store) :=
  decidable_of_iff (Catalog.Named store table.entries ∧
    (∀ entry ∈ table.entries, (store.get entry.2).kind = .package →
      ∀ child ∈ (store.get entry.2).children, (store.get child).kind ≠ .package ∧
        (store.get child).qualifiedName.any (fun n => table.get? n = some child) = true) ∧
    table.entries.Pairwise fun entry later =>
      (store.get entry.2).kind = .package → later.2 ∉ (store.get entry.2).children) (by
    simp only [Prod.forall, Table.mem_entries_iff, Option.any_eq_true, decide_eq_true_eq]
    exact ⟨fun ⟨h₁, h₂, h₃⟩ => ⟨h₁, h₂, h₃⟩, fun ⟨h₁, h₂, h₃⟩ => ⟨h₁, h₂, h₃⟩⟩)

end Decidable

theorem Table.Apart.symm {table table' : Table ComponentId} (h : table.Apart table') :
    table'.Apart table :=
  fun m n id hm hn => h n m id hn hm

namespace Catalog

variable {policy : CollisionPolicy} {store : Store} {c : Catalog}
  {seen todo entries entries' : List (String × ComponentId)} {name : String} {id : ComponentId}

structure Mergeable (store : Store) (entries : List (String × ComponentId)) : Prop where
  named : Named store entries
  compatible : entries.Pairwise (Compatible store)
  distinct : (entries.map Prod.snd).Nodup
  child : ∀ p package, (p, package) ∈ entries → (store.get package).kind = .package →
    ∀ child ∈ (store.get package).children, (store.get child).kind ≠ .package ∧
      ∃ n, (n, child) ∈ entries
  after : entries.Pairwise fun entry later =>
    (store.get entry.2).kind = .package → later.2 ∉ (store.get entry.2).children

theorem Mergeable.notMem_seen (h : Mergeable store (seen ++ (name, id) :: todo)) :
    id ∉ seen.map Prod.snd := by
  have hdistinct := h.distinct
  rw [List.map_append, List.nodup_append] at hdistinct
  exact fun hm => hdistinct.2.2 id hm id (by simp) rfl

theorem Mergeable.child_before (h : Mergeable store (seen ++ (name, id) :: todo)) {p : String}
    {package child : ComponentId} (hp : (p, package) ∈ seen ++ [(name, id)])
    (hk : (store.get package).kind = .package) (hc : child ∈ (store.get package).children) :
    (store.get child).kind ≠ .package ∧ ∃ n, (n, child) ∈ seen := by
  obtain ⟨hplain, n, hn⟩ := h.child p package
    (List.append_cons seen (name, id) todo ▸ List.mem_append_left _ hp) hk child hc
  refine ⟨hplain, n, ?_⟩
  obtain ⟨-, hlater, hseen⟩ := List.pairwise_append.mp h.after
  rcases List.mem_append.mp hn with hn | hn
  · exact hn
  · rcases List.mem_append.mp hp with hp | hp
    · exact absurd hc (hseen _ hp _ hn hk)
    · obtain ⟨rfl, rfl⟩ : p = name ∧ package = id := by simpa using hp
      rcases List.mem_cons.mp hn with e | hn
      · cases e
        exact absurd hk hplain
      · exact absurd hc ((List.pairwise_cons.mp hlater).1 _ hn hk)

theorem Tracks.get?_of_mem (h : Tracks policy store seen c)
    (hs : seen.Pairwise (Compatible store)) (hm : (name, id) ∈ seen)
    (hk : (store.get id).kind ≠ .package) : c.get? name = some id := by
  obtain ⟨current, hw, hcurrent⟩ := exists_winner policy store hm
  rcases eq_or_packages hs hm hcurrent with rfl | ⟨hpackage, -⟩
  · exact (h.get?_eq name).trans hw
  · exact absurd hpackage hk

theorem Tracks.mem_of_get? (h : Tracks policy store seen c) (hi : c.get? name = some id) :
    (name, id) ∈ seen :=
  mem_claimants_iff.mp (winner_mem ((h.get?_eq name).symm.trans hi))

def jointChildren (store : Store) (entries : List (String × ComponentId)) (name : String) :
    List ComponentId :=
  (claimants entries name).flatMap fun id => (store.get id).children

theorem jointChildren_concat_self (store : Store) (entries : List (String × ComponentId))
    (name : String) (id : ComponentId) : jointChildren store (entries ++ [(name, id)]) name =
      jointChildren store entries name ++ (store.get id).children := by
  simp [jointChildren, claimants_append, claimants_singleton]

theorem jointChildren_concat_of_ne {p : String} (h : name ≠ p) :
    jointChildren store (entries ++ [(name, id)]) p = jointChildren store entries p := by
  simp [jointChildren, claimants_append, claimants_singleton, h]

/-- The entries have been merged without a report, and nothing but the packages of the catalog has
changed. These list what all packages of their names list. -/
structure Assembled (policy : CollisionPolicy) (store : Store)
    (seen : List (String × ComponentId)) (c : Catalog) : Prop where
  tracks : Tracks policy store seen c
  plain : ∀ id, (store.get id).kind ≠ .package → c.store.get id = store.get id
  new : ∀ id, id ∉ seen.map Prod.snd → c.store.get id = store.get id
  children : ∀ p package, c.get? p = some package → (store.get package).kind = .package →
    (c.store.get package).children = jointChildren store seen p
  journal_eq : c.journal = {}

theorem assembled_empty (policy : CollisionPolicy) (store : Store) :
    Assembled policy store [] (empty policy store) :=
  ⟨tracks_empty policy store {}, fun _ _ => rfl, fun _ _ => rfl, nofun, rfl⟩

theorem Assembled.isCurrent (h : Assembled policy store seen c)
    (ho : Mergeable store (seen ++ (name, id) :: todo)) (hk : (store.get id).kind = .package)
    (hkinds : ∀ other ∈ claimants seen name, (store.get other).kind = .package)
    {child : ComponentId} (hc : child ∈ jointChildren store (seen ++ [(name, id)]) name) :
    c.isCurrent child = true := by
  obtain ⟨package, hm, hc⟩ := List.mem_flatMap.mp hc
  have hpackage : (store.get package).kind = .package := by
    rw [claimants_append, claimants_singleton, if_pos rfl] at hm
    rcases List.mem_append.mp hm with hm | hm
    · exact hkinds package hm
    · rwa [List.mem_singleton.mp hm]
  obtain ⟨hplain, n, hn⟩ := ho.child_before (mem_claimants_iff.mp hm) hpackage hc
  have hname := (ho.named n child (List.mem_append_left _ hn)).2
  have hget := h.tracks.get?_of_mem (List.pairwise_append.mp ho.compatible).1 hn hplain
  simpa [Catalog.isCurrent, h.tracks.alike.qualifiedName_eq, hname] using hget

theorem Assembled.added (h : Assembled policy store seen c)
    (ho : Mergeable store (seen ++ (name, id) :: todo)) (hnone : c.get? name = none)
    {after : Catalog} (ht : Tracks policy store (seen ++ [(name, id)]) after)
    (hstore : after.store = c.store) (hjournal : after.journal = c.journal)
    (hget : ∀ n, after.get? n = if n = name then some id else c.get? n) :
    Assembled policy store (seen ++ [(name, id)]) after := by
  have hnew := ho.notMem_seen
  have hunclaimed : claimants seen name = [] :=
    winner_eq_none_iff.mp ((h.tracks.get?_eq name).symm.trans hnone)
  refine ⟨ht, ?_, ?_, ?_, hjournal.trans h.journal_eq⟩
  · rw [hstore]
    exact h.plain
  · intro i hi
    rw [hstore]
    exact h.new i fun hm => hi (by simp [hm])
  · intro p package hp hk
    rw [hget] at hp
    rw [hstore]
    by_cases e : p = name
    · subst e
      obtain rfl : id = package := by simpa using hp
      rw [jointChildren_concat_self, jointChildren, hunclaimed, h.new id hnew]
      rfl
    · rw [if_neg e] at hp
      rw [jointChildren_concat_of_ne fun e' => e e'.symm]
      exact h.children p package hp hk

theorem Assembled.absorbed (h : Assembled policy store seen c)
    (ho : Mergeable store (seen ++ (name, id) :: todo)) {existing : ComponentId}
    (he : c.get? name = some existing) (hk : (store.get existing).kind = .package)
    (hk' : (store.get id).kind = .package) {after : Catalog}
    (ht : Tracks policy store (seen ++ [(name, id)]) after)
    (hstore : after.store = (c.absorb existing id).store) (hjournal : after.journal = c.journal)
    (hget : ∀ n, after.get? n = c.get? n) :
    Assembled policy store (seen ++ [(name, id)]) after := by
  have hseen : (name, existing) ∈ seen := h.tracks.mem_of_get? he
  obtain ⟨hhas, hname⟩ := ho.named name existing (List.mem_append_left _ hseen)
  have hnew := ho.notMem_seen
  have hne : existing ≠ id := fun e => hnew (e ▸ List.mem_map_of_mem hseen)
  have hkept {i : ComponentId} (hi : i ≠ existing) : after.store.get i = c.store.get i := by
    rw [hstore]
    exact get_absorb_of_ne hi
  have hkinds (other : ComponentId) (hm : other ∈ claimants seen name) :
      (store.get other).kind = .package := by
    have hcompatible := (List.pairwise_append.mp ho.compatible).1
    rcases eq_or_packages hcompatible (mem_claimants_iff.mp hm) hseen with rfl | ⟨hother, -⟩
    · exact hk
    · exact hother
  have hchildren : (after.store.get existing).children =
      jointChildren store (seen ++ [(name, id)]) name := by
    rw [hstore, children_absorb (h.tracks.alike.has_iff.mpr hhas) hne, if_pos rfl,
      h.children name existing he hk, h.new id hnew, ← jointChildren_concat_self]
    exact List.filter_eq_self.mpr fun child hc => h.isCurrent ho hk' hkinds hc
  refine ⟨ht, ?_, ?_, ?_, hjournal.trans h.journal_eq⟩
  · intro i hi
    have hother : i ≠ existing := fun e => hi (e ▸ hk)
    exact (hkept hother).trans (h.plain i hi)
  · intro i hi
    have hi' : i ∉ seen.map Prod.snd := fun hm => hi (by simp [hm])
    have hother : i ≠ existing := fun e => hi' (e ▸ List.mem_map_of_mem hseen)
    exact (hkept hother).trans (h.new i hi')
  · intro p package hp hpackage
    rw [hget] at hp
    by_cases e : p = name
    · subst e
      obtain rfl := Option.some.inj (he.symm.trans hp)
      exact hchildren
    · -- A package of another name is another package.
      have hp' := ho.named p package (List.mem_append_left _ (h.tracks.mem_of_get? hp))
      have hother : package ≠ existing := by
        rintro rfl
        exact e (Option.some.inj (hp'.2.symm.trans hname))
      rw [hkept hother, jointChildren_concat_of_ne fun e' => e e'.symm]
      exact h.children p package hp hpackage

theorem Assembled.mergeEntry (h : Assembled policy store seen c)
    (ho : Mergeable store (seen ++ (name, id) :: todo)) :
    Assembled policy store (seen ++ [(name, id)]) (c.mergeEntry (name, id)) := by
  have ht := h.tracks.mergeEntry (name, id)
  have hstore := c.store_mergeEntry (name, id)
  have htable := c.table_mergeEntry (name, id)
  obtain ⟨hseen, -, hlater⟩ := List.pairwise_append.mp ho.compatible
  have hclash : clash c.store (c.get? name) id = false := by
    rw [clash_congr h.tracks.alike, h.tracks.get?_eq]
    exact (clash_winner_iff hseen).mpr fun entry hm => hlater entry hm _ List.mem_cons_self
  have hjournal : (c.mergeEntry (name, id)).journal = c.journal := by
    rcases c.journal_mergeEntry name id with ⟨-, hj⟩ | ⟨hc, -⟩
    · exact hj
    · rw [hclash] at hc
      cases hc
  have hplaced := c.placed name id none
  dsimp only at hstore htable
  generalize c.place name id none = result at hplaced hstore htable
  cases hplaced with
  | added hnone =>
    refine h.added ho hnone ht hstore hjournal fun n => ?_
    rw [get?, htable]
    exact Table.get?_put ..
  | absorbed he hk hk' =>
    rw [h.tracks.alike.kind_eq] at hk hk'
    refine h.absorbed ho he hk hk' ht hstore hjournal fun n => ?_
    rw [get?, htable, table_absorb]
    rfl
  | refused he hk | replaced he hk =>
    rw [clash_eq_true_iff.mpr ⟨_, he, hk⟩] at hclash
    cases hclash

/-- Merging mergeable entries takes their packages together. -/
theorem Assembled.merge (h : Assembled policy store seen c)
    (ho : Mergeable store (seen ++ entries)) :
    Assembled policy store (seen ++ entries) (c.merge entries) := by
  induction entries generalizing seen c with
  | nil =>
    rw [List.append_nil]
    exact h
  | cons entry rest ih =>
    obtain ⟨name, id⟩ := entry
    have hnext := h.mergeEntry ho
    rw [List.append_cons] at ho ⊢
    exact ih hnext ho

section Perm

variable {c' : Catalog} {seen' : List (String × ComponentId)}

theorem jointChildren_perm (store : Store) (hp : seen.Perm seen') (name : String) :
    (jointChildren store seen name).Perm (jointChildren store seen' name) := by
  apply List.Perm.flatMap_right
  exact (hp.filter _).map _

theorem Assembled.plain_eq (h : Assembled policy store seen c)
    (h' : Assembled policy store seen' c') (hp : seen.Perm seen')
    (hs : seen'.Pairwise (Compatible store)) (hi : c.get? name = some id)
    (hk : (store.get id).kind ≠ .package) :
    c'.get? name = some id ∧ c'.store.get id = c.store.get id := by
  have hm := hp.mem_iff.mp (h.tracks.mem_of_get? hi)
  exact ⟨h'.tracks.get?_of_mem hs hm hk, (h'.plain id hk).trans (h.plain id hk).symm⟩

theorem Assembled.package_perm (h : Assembled policy store seen c)
    (h' : Assembled policy store seen' c') (hp : seen.Perm seen')
    (hs : seen.Pairwise (Compatible store)) {package : ComponentId}
    (hi : c.get? name = some package) (hk : (store.get package).kind = .package) :
    ∃ package', c'.get? name = some package' ∧ (store.get package').kind = .package ∧
      (c'.store.get package').children.Perm (c.store.get package).children := by
  have hm := h.tracks.mem_of_get? hi
  obtain ⟨package', hw, hm'⟩ := exists_winner policy store (hp.mem_iff.mp hm)
  have hi' := (h'.tracks.get?_eq name).trans hw
  have hk' : (store.get package').kind = .package := by
    rcases eq_or_packages hs hm (hp.mem_iff.mpr hm') with rfl | ⟨-, hk'⟩
    · exact hk
    · exact hk'
  refine ⟨package', hi', hk', ?_⟩
  rw [h.children name package hi hk, h'.children name package' hi' hk']
  exact (jointChildren_perm store hp name).symm

end Perm

section Tables

variable {tables tables' : List (Table ComponentId)}

theorem mergeAll_eq (c : Catalog) (tables : List (Table ComponentId)) :
    c.mergeAll tables = c.merge (tables.flatMap Table.entries) :=
  List.foldl_flatMap.symm

theorem mergeable_tables (hf : ∀ t ∈ tables, t.ChildrenFirst store)
    (ha : tables.Pairwise Table.Apart) (hs : tables.Pairwise (Table.SharePackagesOnly store)) :
    Mergeable store (tables.flatMap Table.entries) where
  named n id hm := by
    obtain ⟨t, ht, hm⟩ := List.mem_flatMap.mp hm
    exact (hf t ht).named n id hm
  compatible := Table.pairwise_compatible_iff.mpr hs
  distinct := by
    rw [List.Nodup, List.pairwise_map, List.pairwise_flatMap]
    constructor
    · intro t ht
      -- A component of a table has one name, and a table has each name once.
      refine (List.pairwise_map.mp t.nodup).imp_of_mem fun {entry entry'} hm hm' hne e => hne ?_
      have hname := ((hf t ht).named entry.1 entry.2 hm).2
      rw [e, ((hf t ht).named entry'.1 entry'.2 hm').2] at hname
      exact (Option.some.inj hname).symm
    · refine ha.imp fun hapart entry hm entry' hm' e => ?_
      exact hapart entry.1 entry'.1 entry.2 (Table.mem_entries_iff.mp hm)
        (e ▸ Table.mem_entries_iff.mp hm')
  child p package hm hk child hc := by
    obtain ⟨t, ht, hm⟩ := List.mem_flatMap.mp hm
    obtain ⟨hplain, n, -, hn⟩ := (hf t ht).child p package (Table.mem_entries_iff.mp hm) hk child hc
    exact ⟨hplain, n, List.mem_flatMap.mpr ⟨t, ht, Table.mem_entries_iff.mpr hn⟩⟩
  after := by
    rw [List.pairwise_flatMap]
    refine ⟨fun t ht => (hf t ht).after, ?_⟩
    -- What a package of one table lists is of that table, so it is in no other one.
    refine ha.imp_of_mem fun {t t'} ht _ hapart entry hm entry' hm' hk hc => ?_
    obtain ⟨-, n, -, hn⟩ :=
      (hf t ht).child entry.1 entry.2 (Table.mem_entries_iff.mp hm) hk entry'.2 hc
    exact hapart n entry'.1 entry'.2 hn (Table.mem_entries_iff.mp hm')

theorem assembled_mergeAll (policy : CollisionPolicy) (hf : ∀ t ∈ tables, t.ChildrenFirst store)
    (ha : tables.Pairwise Table.Apart) (hs : tables.Pairwise (Table.SharePackagesOnly store)) :
    Assembled policy store (tables.flatMap Table.entries)
      ((empty policy store).mergeAll tables) := by
  rw [mergeAll_eq]
  exact (assembled_empty policy store).merge (mergeable_tables hf ha hs)

theorem Assembled.mem_keys_iff (h : Assembled policy store (tables.flatMap Table.entries) c) :
    name ∈ c.table.keys ↔ ∃ t ∈ tables, name ∈ t.keys := by
  rw [h.tracks.keys_eq, List.mem_eraseDups, List.map_flatMap, List.mem_flatMap]
  rfl

/-- If tables share nothing but packages, and packages come after their children, then the order in
which they are merged does not matter under either policy: the catalog has all their names, the same
components that are no packages, and packages with the same children in some order. Nothing is
reported. -/
theorem mergeAll_perm (policy : CollisionPolicy) (store : Store)
    (tables tables' : List (Table ComponentId)) (hp : tables.Perm tables')
    (hf : ∀ t ∈ tables, t.ChildrenFirst store) (ha : tables.Pairwise Table.Apart)
    (hs : tables.Pairwise (Table.SharePackagesOnly store)) :
    let model := (empty policy store).mergeAll tables
    let model' := (empty policy store).mergeAll tables'
    (∀ name, name ∈ model.table.keys ↔ ∃ t ∈ tables, name ∈ t.keys) ∧
      (∀ name, name ∈ model'.table.keys ↔ name ∈ model.table.keys) ∧
      (∀ name id, model.get? name = some id → (model.store.get id).kind ≠ .package →
        model'.get? name = some id ∧ model'.store.get id = model.store.get id) ∧
      (∀ name package, model.get? name = some package →
        (model.store.get package).kind = .package →
        ∃ package', model'.get? name = some package' ∧
          (model'.store.get package').kind = .package ∧
          (model'.store.get package').children.Perm (model.store.get package).children) ∧
      model.journal = {} ∧ model'.journal = {} := by
  intro model model'
  have hf' : ∀ t ∈ tables', t.ChildrenFirst store := fun t ht => hf t (hp.mem_iff.mpr ht)
  have ha' := hp.pairwise ha Table.Apart.symm
  have hs' := hp.pairwise hs Table.SharePackagesOnly.symm
  have h : Assembled policy store _ model := assembled_mergeAll policy hf ha hs
  have h' : Assembled policy store _ model' := assembled_mergeAll policy hf' ha' hs'
  have hentries : (tables.flatMap Table.entries).Perm (tables'.flatMap Table.entries) :=
    hp.flatMap_right _
  refine ⟨fun name => h.mem_keys_iff, fun name => ?_, fun name id hi hk => ?_,
    fun name package hi hk => ?_, h.journal_eq, h'.journal_eq⟩
  · rw [h.mem_keys_iff, h'.mem_keys_iff]
    simp only [hp.mem_iff]
  · rw [h.tracks.alike.kind_eq] at hk
    exact h.plain_eq h' hentries (Table.pairwise_compatible_iff.mpr hs') hi hk
  · rw [h.tracks.alike.kind_eq] at hk
    simp only [h'.tracks.alike.kind_eq]
    exact h.package_perm h' hentries (Table.pairwise_compatible_iff.mpr hs) hi hk

/-- Two tables for a package `p`, one with a class `A` that has a method `f` and one with a
class `B`. -/
def spread : Store × List (Table ComponentId) :=
  (⟨#[.ofNames .package "p" none [1], .ofNames .classType "p.A" "p" [2],
      .ofNames .method "p.A.f" "p.A" [], .ofNames .package "p" none [4],
      .ofNames .classType "p.B" "p" []]⟩,
    [.ofList [("p.A.f", ⟨2⟩), ("p.A", ⟨1⟩), ("p", ⟨0⟩)], .ofList [("p.B", ⟨4⟩), ("p", ⟨3⟩)]])

theorem mergeAll_perm_spread :
    (∀ t ∈ spread.2, t.ChildrenFirst spread.1) ∧ spread.2.Pairwise Table.Apart ∧
    spread.2.Pairwise (Table.SharePackagesOnly spread.1) ∧
    let model := (empty .error spread.1).mergeAll spread.2
    let model' := (empty .error spread.1).mergeAll spread.2.reverse
    (∀ name, name ∈ model'.table.keys ↔ name ∈ model.table.keys) ∧
      model'.get? "p.A" = some ⟨1⟩ ∧ (model'.store.get ⟨1⟩).children = [⟨2⟩] ∧
      model.get? "p" = some ⟨0⟩ ∧ (model.store.get ⟨0⟩).children = [⟨1⟩, ⟨4⟩] ∧
      model'.get? "p" = some ⟨3⟩ ∧ (model'.store.get ⟨3⟩).children.Perm [⟨1⟩, ⟨4⟩] ∧
      (model'.store.get ⟨3⟩).children = [⟨4⟩, ⟨1⟩] ∧ model'.journal = {} := by
  have hf : ∀ t ∈ spread.2, t.ChildrenFirst spread.1 := by decide +kernel
  have ha : spread.2.Pairwise Table.Apart := by decide +kernel
  have hs : spread.2.Pairwise (Table.SharePackagesOnly spread.1) := by decide +kernel
  obtain ⟨-, hkeys, hplain, hpackages, -, hjournal⟩ := mergeAll_perm .error spread.1 spread.2
    spread.2.reverse (List.reverse_perm _).symm hf ha hs
  refine ⟨hf, ha, hs, ?_⟩
  intro model model'
  have hclass : model.get? "p.A" = some ⟨1⟩ := by decide +kernel
  have hmembers : (model.store.get ⟨1⟩).children = [⟨2⟩] := by decide +kernel
  have hpackage : model.get? "p" = some ⟨0⟩ := by decide +kernel
  have hchildren : (model.store.get ⟨0⟩).children = [⟨1⟩, ⟨4⟩] := by decide +kernel
  have hpackage' : model'.get? "p" = some ⟨3⟩ := by decide +kernel
  obtain ⟨hclass', hsame⟩ := hplain "p.A" ⟨1⟩ hclass (by decide +kernel)
  obtain ⟨package', hget, -, hperm⟩ := hpackages "p" ⟨0⟩ hpackage (by decide +kernel)
  cases hpackage'.symm.trans hget
  exact ⟨hkeys, hclass', (congrArg Component.children hsame).trans hmembers, hpackage, hchildren,
    hpackage', hchildren ▸ hperm, by decide +kernel, hjournal⟩

end Tables

end Catalog

end CodeAtlas
