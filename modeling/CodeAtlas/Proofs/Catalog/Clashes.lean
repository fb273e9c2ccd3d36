import Mathlib.Data.List.Pairwise
import CodeAtlas.Proofs.Catalog.Succession

/-! # Clashes in a merge

An entry clashes if another component has its name by then, unless both are packages. A merge
reports its clashes and nothing else, and between files each of them is an error. There are none
exactly if all entries that share a name are packages.
-/

namespace CodeAtlas

/-- The diagnostics `after` go on where `before` ends, with `n` more errors. -/
structure Diagnostics.Adds (n : Nat) (before after : Diagnostics) : Prop where
  errors : before.errors <+: after.errors
  warnings : before.warnings <+: after.warnings
  length_eq : after.errors.length = before.errors.length + n

namespace Diagnostics

variable {m n : Nat} {ds ds' ds'' : Diagnostics}

theorem Adds.refl (ds : Diagnostics) : Adds 0 ds ds :=
  ⟨List.prefix_refl _, List.prefix_refl _, rfl⟩

theorem Adds.trans (h : Adds m ds ds') (h' : Adds n ds' ds'') : Adds (m + n) ds ds'' where
  errors := h.errors.trans h'.errors
  warnings := h.warnings.trans h'.warnings
  length_eq := by
    have hfirst := h.length_eq
    have hsecond := h'.length_eq
    omega

theorem adds_record (ds : Diagnostics) {d : Diagnostic} (h : d.severity = .error) :
    Adds 1 ds (ds.record d) := by
  rw [record, if_pos h]
  exact ⟨List.prefix_append _ _, List.prefix_refl _, List.length_append⟩

theorem adds_extend (ds other : Diagnostics) : Adds other.errors.length ds (ds.extend other) :=
  ⟨List.prefix_append _ _, List.prefix_append _ _, List.length_append⟩

theorem Adds.ok_iff (h : Adds n ds ds') : ds'.ok = true ↔ ds.ok = true ∧ n = 0 := by
  have hlength := h.length_eq
  simp only [ok, List.isEmpty_iff_length_eq_zero]
  omega

end Diagnostics

namespace Catalog

variable {c : Catalog} {policy : CollisionPolicy} {store : Store}
  {seen entries : List (String × ComponentId)} {name : String} {id : ComponentId}

/-- A component has the name that a newer one claims, and they are not both packages. -/
def clash (store : Store) (current? : Option ComponentId) (newer : ComponentId) : Bool :=
  current?.any fun current =>
    !((store.get current).kind = .package ∧ (store.get newer).kind = .package)

def clashes (policy : CollisionPolicy) (store : Store) (seen : List (String × ComponentId)) :
    List (String × ComponentId) → Nat
  | [] => 0
  | (name, id) :: rest =>
    (clash store (winner policy store (claimants seen name)) id).toNat +
      clashes policy store (seen ++ [(name, id)]) rest

def Compatible (store : Store) (entry entry' : String × ComponentId) : Prop :=
  entry.1 = entry'.1 → (store.get entry.2).kind = .package ∧ (store.get entry'.2).kind = .package

instance : Std.Symm (Compatible store) :=
  ⟨fun _ _ h e => (h e.symm).symm⟩

theorem clash_eq_true_iff {current? : Option ComponentId} : clash store current? id = true ↔
    ∃ current, current? = some current ∧
      ¬ ((store.get current).kind = .package ∧ (store.get id).kind = .package) := by
  simp only [clash, Option.any_eq_true, Bool.not_eq_true', decide_eq_false_iff_not]

theorem clashes_append (first second : List (String × ComponentId)) :
    clashes policy store seen (first ++ second) =
      clashes policy store seen first + clashes policy store (seen ++ first) second := by
  induction first generalizing seen with
  | nil => simp [clashes]
  | cons entry rest ih =>
    obtain ⟨name, id⟩ := entry
    rw [List.cons_append, clashes, clashes, ih, List.append_assoc, List.singleton_append]
    omega

theorem mem_claimants_iff : id ∈ claimants entries name ↔ (name, id) ∈ entries := by
  simp [claimants]

theorem winner_eq_none_iff {ids : List ComponentId} :
    winner policy store ids = none ↔ ids = [] := by
  cases ids <;> cases policy <;> simp [winner]

theorem exists_winner (policy : CollisionPolicy) (store : Store) (hm : (name, id) ∈ seen) :
    ∃ current, winner policy store (claimants seen name) = some current ∧
      (name, current) ∈ seen := by
  cases hw : winner policy store (claimants seen name) with
  | none =>
    have hclaims := mem_claimants_iff.mpr hm
    rw [winner_eq_none_iff.mp hw] at hclaims
    cases hclaims
  | some current => exact ⟨current, rfl, mem_claimants_iff.mp (winner_mem hw)⟩

theorem eq_or_packages {other : ComponentId} (h : seen.Pairwise (Compatible store))
    (hm : (name, id) ∈ seen) (ho : (name, other) ∈ seen) :
    id = other ∨ (store.get id).kind = .package ∧ (store.get other).kind = .package := by
  by_cases e : id = other
  · exact .inl e
  · exact .inr (h.forall hm ho (by simpa using e) rfl)

theorem clash_winner_iff (h : seen.Pairwise (Compatible store)) :
    clash store (winner policy store (claimants seen name)) id = false ↔
      ∀ entry ∈ seen, Compatible store entry (name, id) := by
  rw [← Bool.not_eq_true, clash_eq_true_iff]
  push Not
  constructor
  · rintro hno ⟨n, other⟩ hm e
    obtain rfl : n = name := e
    obtain ⟨current, hw, hcurrent⟩ := exists_winner policy store hm
    obtain ⟨hkind, hnew⟩ := hno current hw
    -- All that have claimed the name are packages, as the one that has it now.
    rcases eq_or_packages h hm hcurrent with rfl | ⟨hother, -⟩
    · exact ⟨hkind, hnew⟩
    · exact ⟨hother, hnew⟩
  · intro hall current hw
    exact hall (name, current) (mem_claimants_iff.mp (winner_mem hw)) rfl

theorem clashes_eq_zero_iff (h : seen.Pairwise (Compatible store)) :
    clashes policy store seen entries = 0 ↔ (seen ++ entries).Pairwise (Compatible store) := by
  induction entries generalizing seen with
  | nil => simpa [clashes] using h
  | cons entry rest ih =>
    obtain ⟨name, id⟩ := entry
    have hnext : clash store (winner policy store (claimants seen name)) id = false ↔
        (seen ++ [(name, id)]).Pairwise (Compatible store) := by
      rw [clash_winner_iff h, List.pairwise_append]
      simp [h]
    rw [clashes, Nat.add_eq_zero_iff, Bool.toNat_eq_zero, hnext,
      List.append_cons seen (name, id) rest]
    constructor
    · rintro ⟨hseen, hrest⟩
      exact (ih hseen).mp hrest
    · intro hall
      have hseen := (List.pairwise_append.mp hall).1
      exact ⟨hseen, (ih hseen).mpr hall⟩

/-- An entry that clashes is reported, as an error if the two components come from different files.
Any other entry is placed without a word. -/
theorem journal_mergeEntry (c : Catalog) (name : String) (id : ComponentId) :
    (clash c.store (c.get? name) id = false ∧ (c.mergeEntry (name, id)).journal = c.journal) ∨
      clash c.store (c.get? name) id = true ∧ ∃ current d, c.get? name = some current ∧
        (c.mergeEntry (name, id)).journal = c.journal.record d ∧
        ((c.store.get current).sourceFile ≠ (c.store.get id).sourceFile → d.severity = .error) := by
  have hp := c.placed name id none
  unfold mergeEntry
  dsimp only
  generalize c.place name id none = result at hp
  cases hp with
  | added hn =>
    left
    rw [hn]
    exact ⟨rfl, rfl⟩
  | absorbed he hk hk' =>
    left
    rw [he]
    exact ⟨by simp [clash, hk, hk'], journal_absorb⟩
  | @refused existing he hk =>
    right
    refine ⟨clash_eq_true_iff.mpr ⟨existing, he, hk⟩, existing,
      refusal name (c.store.get existing) (c.store.get id), he, ?_, fun _ => rfl⟩
    simp only [he]
    rfl
  | @replaced existing he hk =>
    right
    refine ⟨clash_eq_true_iff.mpr ⟨existing, he, hk⟩, existing, _, he, rfl, fun hne => ?_⟩
    exact if_neg hne

theorem clash_congr {s t : Store} (h : s.Alike t) (current? : Option ComponentId) :
    clash t current? id = clash s current? id := by
  simp only [clash, h.kind_eq]

theorem Tracks.adds_merge (h : Tracks policy store seen c) (hn : (entries.map Prod.fst).Nodup)
    (hs : ∀ name current id, (name, current) ∈ seen → (name, id) ∈ entries →
      (store.get current).sourceFile ≠ (store.get id).sourceFile) :
    Diagnostics.Adds (clashes policy store seen entries) c.journal.diagnostics
      (c.merge entries).journal.diagnostics := by
  induction entries generalizing seen c with
  | nil => exact .refl _
  | cons entry rest ih =>
    obtain ⟨name, id⟩ := entry
    obtain ⟨hnot, hnodup⟩ := List.nodup_cons.mp hn
    have hrest := ih (h.mergeEntry (name, id)) hnodup fun n current i hc hi => by
      rcases List.mem_append.mp hc with hc | hc
      · exact hs n current i hc (List.mem_cons_of_mem _ hi)
      · -- An entry of this name has just been merged, so no other one is to come.
        obtain ⟨rfl, rfl⟩ : n = name ∧ current = id := by simpa using hc
        exact absurd (List.mem_map_of_mem hi) hnot
    have hfirst : Diagnostics.Adds
        (clash store (winner policy store (claimants seen name)) id).toNat
        c.journal.diagnostics (c.mergeEntry (name, id)).journal.diagnostics := by
      rw [← h.get?_eq, ← clash_congr h.alike]
      rcases c.journal_mergeEntry name id with ⟨e, hj⟩ | ⟨e, current, d, hget, hj, hd⟩
      · rw [e, hj]
        exact .refl _
      · rw [e, hj]
        apply Diagnostics.adds_record
        apply hd
        rw [h.alike.sourceFile_eq, h.alike.sourceFile_eq]
        rw [h.get?_eq] at hget
        exact hs name current id (mem_claimants_iff.mp (winner_mem hget)) List.mem_cons_self
    exact hfirst.trans hrest

end Catalog

namespace Table

variable {store : Store} {table table' : Table ComponentId}

def SharePackagesOnly (store : Store) (table table' : Table ComponentId) : Prop :=
  ∀ name, name ∈ table.keys → name ∈ table'.keys →
    table.HasPackage store name ∧ table'.HasPackage store name

theorem SharePackagesOnly.symm (h : table.SharePackagesOnly store table') :
    table'.SharePackagesOnly store table :=
  fun name hm hm' => (h name hm' hm).symm

instance : Decidable (table.SharePackagesOnly store table') :=
  inferInstanceAs (Decidable (∀ name, name ∈ table.keys → name ∈ table'.keys →
    table.HasPackage store name ∧ table'.HasPackage store name))

theorem sharePackagesOnly_iff : table.SharePackagesOnly store table' ↔
    ∀ entry ∈ table.entries, ∀ entry' ∈ table'.entries, Catalog.Compatible store entry entry' := by
  constructor
  · rintro h ⟨name, id⟩ hm ⟨name', id'⟩ hm' e
    obtain rfl : name = name' := e
    have hid := mem_entries_iff.mp hm
    have hid' := mem_entries_iff.mp hm'
    obtain ⟨⟨package, hp, hk⟩, package', hp', hk'⟩ :=
      h name (mem_keys_iff.mpr ⟨id, hid⟩) (mem_keys_iff.mpr ⟨id', hid'⟩)
    cases hid.symm.trans hp
    cases hid'.symm.trans hp'
    exact ⟨hk, hk'⟩
  · intro h name hm hm'
    obtain ⟨id, hid⟩ := mem_keys_iff.mp hm
    obtain ⟨id', hid'⟩ := mem_keys_iff.mp hm'
    obtain ⟨hk, hk'⟩ := h _ (mem_entries_iff.mpr hid) _ (mem_entries_iff.mpr hid') rfl
    exact ⟨⟨id, hid, hk⟩, id', hid', hk'⟩

theorem pairwise_compatible_iff {tables : List (Table ComponentId)} :
    (tables.flatMap entries).Pairwise (Catalog.Compatible store) ↔
      tables.Pairwise (SharePackagesOnly store) := by
  have hown (t : Table ComponentId) : t.entries.Pairwise (Catalog.Compatible store) :=
    (List.pairwise_map.mp t.nodup).imp fun hne e => absurd e hne
  simp only [List.pairwise_flatMap, hown, implies_true, true_and]
  exact List.Pairwise.iff fun _ _ => sharePackagesOnly_iff.symm

end Table

end CodeAtlas
