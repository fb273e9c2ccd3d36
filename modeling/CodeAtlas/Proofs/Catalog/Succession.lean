import CodeAtlas.Proofs.Builder.Tally
import CodeAtlas.Proofs.Catalog.Overlay

/-! # Who succeeds to a name

The component that a catalog has under a name after a merge depends only on the policy and on the
components that have claimed the name, in their order. Every entry that is merged adds a name, is
reported as a collision or is a package that is absorbed.
-/

namespace CodeAtlas.Catalog

variable {c : Catalog} {policy : CollisionPolicy} {store : Store}
  {seen entries : List (String × ComponentId)} {name : String} {id : ComponentId}

def claimants (entries : List (String × ComponentId)) (name : String) : List ComponentId :=
  (entries.filter (·.1 = name)).map Prod.snd

/-- A newer component succeeds to a name, but a package that meets a package stays. -/
def successor (store : Store) (current newer : ComponentId) : ComponentId :=
  if (store.get current).kind = .package ∧ (store.get newer).kind = .package then current else newer

/-- The claimant that has the name in the end: the first one if collisions are refused, and else
the last one that has succeeded to it. -/
def winner (policy : CollisionPolicy) (store : Store) : List ComponentId → Option ComponentId
  | [] => none
  | first :: rest =>
    match policy with
    | .error => some first
    | .lastWriteWins => some (rest.foldl (successor store) first)

/-- How many packages among the entries claim a name that a package has by then. -/
def absorptions (policy : CollisionPolicy) (store : Store) (seen : List (String × ComponentId)) :
    List (String × ComponentId) → Nat
  | [] => 0
  | (name, id) :: rest =>
    (if (store.get id).kind = .package ∧ (winner policy store (claimants seen name)).any
      (fun current => (store.get current).kind = .package) = true then 1 else 0) +
      absorptions policy store (seen ++ [(name, id)]) rest

theorem claimants_append (first second : List (String × ComponentId)) (name : String) :
    claimants (first ++ second) name = claimants first name ++ claimants second name := by
  simp [claimants]

theorem claimants_singleton (entry : String × ComponentId) (name : String) :
    claimants [entry] name = if entry.1 = name then [entry.2] else [] := by
  unfold claimants
  split <;> simp_all

theorem claimants_table (table : Table ComponentId) (name : String) :
    claimants table.entries name = (table.get? name).toList := by
  have hnodup := table.nodup
  unfold Table.get?
  generalize table.entries = entries at hnodup
  induction entries with
  | nil => rfl
  | cons entry rest ih =>
    obtain ⟨key, value⟩ := entry
    obtain ⟨hnot, hrest⟩ := List.nodup_cons.mp hnodup
    rw [← List.singleton_append, claimants_append, claimants_singleton, ih hrest]
    by_cases e : key = name
    · subst e
      rw [Table.lookup_eq_none_iff.mpr hnot]
      simp
    · have hb : (name == key) = false := by simpa using fun e' : name = key => e e'.symm
      simp [e, List.lookup_cons, hb]

theorem claimants_flatMap (tables : List (Table ComponentId)) (name : String) :
    claimants (tables.flatMap Table.entries) name = tables.filterMap (·.get? name) := by
  induction tables with
  | nil => rfl
  | cons table rest ih =>
    rw [List.flatMap_cons, claimants_append, claimants_table, ih]
    cases h : table.get? name <;> simp [h]

def claimed (policy : CollisionPolicy) (store : Store) (current? : Option ComponentId)
    (newer : ComponentId) : ComponentId :=
  match current?, policy with
  | none, _ => newer
  | some current, .error => current
  | some current, .lastWriteWins => successor store current newer

theorem winner_concat (policy : CollisionPolicy) (store : Store) (ids : List ComponentId)
    (newer : ComponentId) : winner policy store (ids ++ [newer]) =
      some (claimed policy store (winner policy store ids) newer) := by
  cases ids with
  | nil => cases policy <;> rfl
  | cons first rest => cases policy <;> simp [winner, claimed]

theorem foldl_successor_mem (store : Store) (first : ComponentId) (rest : List ComponentId) :
    rest.foldl (successor store) first ∈ first :: rest := by
  induction rest generalizing first with
  | nil => exact List.mem_singleton.mpr rfl
  | cons newer rest ih =>
    have hnext : successor store first newer = first ∨ successor store first newer = newer := by
      unfold successor
      split <;> simp
    rw [List.foldl_cons]
    rcases List.mem_cons.mp (ih (successor store first newer)) with e | hm
    · rw [e]
      rcases hnext with e | e <;> simp [e]
    · exact List.mem_cons_of_mem _ (List.mem_cons_of_mem _ hm)

theorem winner_mem {ids : List ComponentId} (h : winner policy store ids = some id) : id ∈ ids := by
  cases ids with
  | nil => cases h
  | cons first rest =>
    cases policy with
    | error =>
      cases h
      exact List.mem_cons_self
    | lastWriteWins =>
      cases h
      exact foldl_successor_mem store first rest

theorem absorptions_append (first second : List (String × ComponentId)) :
    absorptions policy store seen (first ++ second) =
      absorptions policy store seen first + absorptions policy store (seen ++ first) second := by
  induction first generalizing seen with
  | nil => simp [absorptions]
  | cons entry rest ih =>
    obtain ⟨name, id⟩ := entry
    rw [List.cons_append, absorptions, absorptions, ih, List.append_assoc, List.singleton_append]
    omega

structure Tracks (policy : CollisionPolicy) (store : Store) (seen : List (String × ComponentId))
    (c : Catalog) : Prop where
  policy_eq : c.policy = policy
  alike : store.Alike c.store
  keys_eq : c.table.keys = (seen.map Prod.fst).eraseDups
  get?_eq : ∀ name, c.get? name = winner policy store (claimants seen name)

theorem tracks_empty (policy : CollisionPolicy) (store : Store) (journal : Journal) :
    Tracks policy store [] ⟨policy, store, .empty, journal⟩ :=
  ⟨rfl, .refl store, rfl, fun _ => rfl⟩

theorem Tracks.of_eq {after : Catalog} (h : Tracks policy store seen c)
    (hp : after.policy = c.policy) (hs : after.store = c.store) (ht : after.table = c.table) :
    Tracks policy store seen after := by
  refine ⟨hp.trans h.policy_eq, hs ▸ h.alike, ht ▸ h.keys_eq, fun name => ?_⟩
  rw [get?, ht]
  exact h.get?_eq name

theorem policy_mergeEntry (c : Catalog) (entry : String × ComponentId) :
    (c.mergeEntry entry).policy = c.policy := by
  have hp := c.policy_place entry.1 entry.2 none
  unfold mergeEntry
  generalize c.place entry.1 entry.2 none = result at hp
  split
  · split <;> exact hp
  · exact hp

theorem keys_mergeEntry (c : Catalog) (entry : String × ComponentId) :
    (c.mergeEntry entry).table.keys =
      if entry.1 ∈ c.table.keys then c.table.keys else c.table.keys ++ [entry.1] := by
  have hp := c.placed entry.1 entry.2 none
  rw [table_mergeEntry]
  generalize c.place entry.1 entry.2 none = result at hp
  cases hp with
  | added | replaced => exact Table.keys_put ..
  | absorbed he =>
    rw [table_absorb, if_pos (Table.mem_keys_iff.mpr ⟨_, he⟩)]
  | refused he => rw [if_pos (Table.mem_keys_iff.mpr ⟨_, he⟩)]

theorem get?_mergeEntry_self (c : Catalog) (name : String) (id : ComponentId) :
    (c.mergeEntry (name, id)).get? name = some (claimed c.policy c.store (c.get? name) id) := by
  have hp := c.placed name id none
  rw [get?, table_mergeEntry]
  dsimp only
  generalize c.place name id none = result at hp
  cases hp with
  | added hn =>
    rw [hn, Table.get?_put, if_pos rfl]
    rfl
  | absorbed he hk hk' =>
    rw [table_absorb, he]
    cases hpolicy : c.policy with
    | error => exact he
    | lastWriteWins =>
      rw [claimed, successor, if_pos ⟨hk, hk'⟩]
      exact he
  | refused he _ hpolicy =>
    rw [he, hpolicy]
    exact he
  | replaced he hk hpolicy =>
    rw [table_replace, Table.get?_put, if_pos rfl, he, hpolicy, claimed, successor, if_neg hk]

theorem claimed_congr {s t : Store} (h : s.Alike t) (current? : Option ComponentId)
    (newer : ComponentId) : claimed policy t current? newer = claimed policy s current? newer := by
  unfold claimed successor
  simp only [h.kind_eq]

theorem Tracks.mergeEntry (h : Tracks policy store seen c) (entry : String × ComponentId) :
    Tracks policy store (seen ++ [entry]) (c.mergeEntry entry) where
  policy_eq := (c.policy_mergeEntry entry).trans h.policy_eq
  alike := by
    rw [store_mergeEntry]
    exact h.alike.trans (c.alike_place ..)
  keys_eq := by
    rw [keys_mergeEntry, h.keys_eq, List.map_append, List.eraseDups_append]
    by_cases hm : entry.1 ∈ seen.map Prod.fst
    · simp [hm, List.removeAll]
    · simp [hm, List.removeAll, List.eraseDups_cons]
  get?_eq name := by
    rw [claimants_append, claimants_singleton]
    by_cases e : entry.1 = name
    · subst e
      rw [get?_mergeEntry_self, h.policy_eq, h.get?_eq, claimed_congr h.alike, if_pos rfl,
        winner_concat]
    · rw [get?_mergeEntry_of_ne fun e' => e e'.symm, if_neg e, List.append_nil]
      exact h.get?_eq name

theorem Tracks.merge (h : Tracks policy store seen c) (entries : List (String × ComponentId)) :
    Tracks policy store (seen ++ entries) (c.merge entries) := by
  induction entries generalizing seen c with
  | nil =>
    rw [List.append_nil]
    exact h
  | cons entry rest ih =>
    have hrest := ih (h.mergeEntry entry)
    rwa [List.append_assoc, List.singleton_append] at hrest

theorem collisions_record (c : Catalog) {d : Diagnostic} (h : d.kind = .nameCollision) :
    (c.record d).collisions = c.collisions + 1 := by
  unfold collisions
  rw [← h]
  exact c.journal.diagnostics.length_ofKind_record d

theorem account_mergeEntry (c : Catalog) (name : String) (id : ComponentId) :
    ∃ reported, (c.mergeEntry (name, id)).collisions = c.collisions + reported ∧
      c.size + 1 = (c.mergeEntry (name, id)).size + reported +
        if (c.store.get id).kind = .package ∧ (c.get? name).any
          (fun current => (c.store.get current).kind = .package) = true then 1 else 0 := by
  have hp := c.placed name id none
  unfold Catalog.mergeEntry
  dsimp only
  generalize c.place name id none = result at hp
  cases hp with
  | added hn =>
    have hsize : (c.table.put name id).size = c.table.size + 1 := Table.size_put_of_none hn
    rw [hn, if_neg (by simp)]
    exact ⟨0, rfl, hsize.symm⟩
  | absorbed he hk hk' =>
    rw [he, if_pos ⟨hk', by simpa using hk⟩]
    refine ⟨0, ?_, ?_⟩
    · rw [collisions, journal_absorb]
      rfl
    · rw [size, size, table_absorb]
  | refused he hk =>
    rw [he, if_neg fun h => hk ⟨by simpa using h.2, h.1⟩]
    simp only [he]
    exact ⟨1, collisions_record c rfl, rfl⟩
  | replaced he hk =>
    have hsize : (c.table.put name id).size = c.table.size := Table.size_put_of_some he
    rw [he, if_neg fun h => hk ⟨by simpa using h.2, h.1⟩]
    exact ⟨1, collisions_record c rfl, congrArg (· + 1) hsize.symm⟩

/-- Nothing that is merged is lost without a report. -/
theorem Tracks.account (h : Tracks policy store seen c) (entries : List (String × ComponentId)) :
    ∃ reported, (c.merge entries).collisions = c.collisions + reported ∧
      c.size + entries.length =
        (c.merge entries).size + reported + absorptions policy store seen entries := by
  induction entries generalizing seen c with
  | nil => exact ⟨0, rfl, rfl⟩
  | cons entry rest ih =>
    obtain ⟨name, id⟩ := entry
    have hmerge : c.merge ((name, id) :: rest) = (c.mergeEntry (name, id)).merge rest := rfl
    obtain ⟨first, hfirst, hsize⟩ := c.account_mergeEntry name id
    obtain ⟨others, hothers, hsizes⟩ := ih (h.mergeEntry (name, id))
    simp only [h.alike.kind_eq, h.get?_eq] at hsize
    rw [hmerge, absorptions, List.length_cons]
    exact ⟨first + others, by omega, by omega⟩

end CodeAtlas.Catalog
