import Mathlib.Data.List.ReduceOption
import CodeAtlas.Catalog
import CodeAtlas.Proofs.Component.Store

/-! # What placing a component does

Placing a component under a name has four outcomes. None of them changes a component but for the
children it lists: a package takes in children, and a replaced component is struck off.
-/

namespace CodeAtlas

namespace Table

variable {α : Type} {table : Table α}

theorem mem_of_lookup_eq_some {entries : List (String × α)} {key : String} {value : α}
    (h : entries.lookup key = some value) : (key, value) ∈ entries := by
  induction entries with
  | nil => simp at h
  | cons entry rest ih =>
    obtain ⟨first, old⟩ := entry
    by_cases e : key = first
    · subst e
      simp only [List.lookup_cons_self, Option.some.injEq] at h
      simp [h]
    · have hb : (key == first) = false := by simpa using e
      rw [List.lookup_cons, hb] at h
      exact List.mem_cons_of_mem _ (ih h)

theorem lookup_of_mem {entries : List (String × α)} (hn : (entries.map Prod.fst).Nodup)
    {key : String} {value : α} (h : (key, value) ∈ entries) : entries.lookup key = some value := by
  induction entries with
  | nil => simp at h
  | cons entry rest ih =>
    obtain ⟨first, old⟩ := entry
    simp only [List.map_cons, List.nodup_cons] at hn
    rcases List.mem_cons.mp h with e | h
    · cases e
      simp
    · have e : (key == first) = false := by
        simpa using fun e : key = first => hn.1 (e ▸ List.mem_map_of_mem h)
      rw [List.lookup_cons, e]
      exact ih hn.2 h

theorem mem_entries_iff {key : String} {value : α} :
    (key, value) ∈ table.entries ↔ table.get? key = some value :=
  ⟨lookup_of_mem table.nodup, mem_of_lookup_eq_some⟩

theorem mem_values_iff {value : α} : value ∈ table.values ↔ ∃ key, table.get? key = some value := by
  simp only [values, List.mem_map, Prod.exists, mem_entries_iff, exists_eq_right]

theorem mem_keys_iff {key : String} : key ∈ table.keys ↔ ∃ value, table.get? key = some value := by
  simp [keys, mem_entries_iff]

theorem size_put_of_none {key : String} {value : α} (h : table.get? key = none) :
    (table.put key value).size = table.size + 1 := by
  have hkeys := congrArg List.length (table.keys_put key value)
  rw [if_neg (by simp [mem_keys_iff, h])] at hkeys
  simpa [keys, size] using hkeys

theorem size_put_of_some {key : String} {value old : α} (h : table.get? key = some old) :
    (table.put key value).size = table.size := by
  have hkeys := congrArg List.length (table.keys_put key value)
  rw [if_pos (mem_keys_iff.mpr ⟨old, h⟩)] at hkeys
  simpa [keys, size] using hkeys

end Table

namespace Catalog

variable {catalog : Catalog} {name : String} {id existing newcomer : ComponentId}
  {parent : Option ComponentId}

def withStore (catalog : Catalog) (store : Store) : Catalog := { catalog with store }

@[simp] theorem store_withStore (catalog : Catalog) (store : Store) :
    (catalog.withStore store).store = store :=
  rfl

@[simp] theorem get?_withStore (catalog : Catalog) (store : Store) (name : String) :
    (catalog.withStore store).get? name = catalog.get? name :=
  rfl

inductive Placed (catalog : Catalog) (name : String) (id : ComponentId)
    (parent : Option ComponentId) : Catalog × Placement → Prop
  | added : catalog.get? name = none →
      Placed catalog name id parent ({ catalog with table := catalog.table.put name id }, .added)
  | absorbed {existing : ComponentId} : catalog.get? name = some existing →
      (catalog.store.get existing).kind = .package → (catalog.store.get id).kind = .package →
      Placed catalog name id parent (catalog.absorb existing id, .absorbed)
  | refused {existing : ComponentId} : catalog.get? name = some existing →
      ¬ ((catalog.store.get existing).kind = .package ∧ (catalog.store.get id).kind = .package) →
      catalog.policy = .error → Placed catalog name id parent (catalog, .refused)
  | replaced {existing : ComponentId} : catalog.get? name = some existing →
      ¬ ((catalog.store.get existing).kind = .package ∧ (catalog.store.get id).kind = .package) →
      catalog.policy = .lastWriteWins →
      Placed catalog name id parent (catalog.replace name existing id parent, .replaced)

theorem placed (catalog : Catalog) (name : String) (id : ComponentId)
    (parent : Option ComponentId) :
    Placed catalog name id parent (catalog.place name id parent) := by
  unfold place
  split
  · rename_i h
    exact .added h
  · rename_i existing h
    split
    · rename_i hk
      exact .absorbed h hk.1 hk.2
    · rename_i hk
      split
      · rename_i hp
        exact .refused h hk hp
      · rename_i hp
        exact .replaced h hk hp

theorem Placed.of_added {after : Catalog} (h : Placed catalog name id parent (after, .added)) :
    catalog.get? name = none ∧ after = { catalog with table := catalog.table.put name id } := by
  cases h with
  | added hg => exact ⟨hg, rfl⟩

theorem Placed.of_refused {after : Catalog} (h : Placed catalog name id parent (after, .refused)) :
    catalog.policy = .error ∧ after = catalog := by
  cases h with
  | refused _ _ hp => exact ⟨hp, rfl⟩

theorem Placed.of_replaced {after : Catalog}
    (h : Placed catalog name id parent (after, .replaced)) :
    ∃ existing, catalog.get? name = some existing ∧
      ¬ ((catalog.store.get existing).kind = .package ∧ (catalog.store.get id).kind = .package) ∧
      after = catalog.replace name existing id parent := by
  cases h with
  | replaced hg hk _ => exact ⟨_, hg, hk, rfl⟩

theorem Placed.of_absorbed {after : Catalog}
    (h : Placed catalog name id parent (after, .absorbed)) :
    ∃ existing, catalog.get? name = some existing ∧
      (catalog.store.get existing).kind = .package ∧ (catalog.store.get id).kind = .package ∧
      after = catalog.absorb existing id := by
  cases h with
  | absorbed hg hk hk' => exact ⟨_, hg, hk, hk', rfl⟩

theorem isCurrent_iff {q : String} (h : (catalog.store.get id).qualifiedName = some q) :
    catalog.isCurrent id = true ↔ catalog.get? q = some id := by
  simp [isCurrent, h]

theorem get?_put (catalog : Catalog) (name : String) (id : ComponentId) (other : String) :
    get? { catalog with table := catalog.table.put name id } other =
      if other = name then some id else catalog.get? other :=
  Table.get?_put ..

theorem alike_absorb (catalog : Catalog) (existing newcomer : ComponentId) :
    catalog.store.Alike (catalog.absorb existing newcomer).store := by
  unfold absorb
  split
  · exact .refl _
  · exact Store.alike_modify fun _ => rfl

@[simp] theorem table_absorb : (catalog.absorb existing newcomer).table = catalog.table := by
  unfold absorb
  split <;> rfl

@[simp] theorem policy_absorb : (catalog.absorb existing newcomer).policy = catalog.policy := by
  unfold absorb
  split <;> rfl

@[simp] theorem journal_absorb : (catalog.absorb existing newcomer).journal = catalog.journal := by
  unfold absorb
  split <;> rfl

theorem children_absorb (h : catalog.store.Has existing) (hne : existing ≠ newcomer)
    (id : ComponentId) : ((catalog.absorb existing newcomer).store.get id).children =
      if id = existing then ((catalog.store.get existing).children ++
        (catalog.store.get newcomer).children).filter catalog.isCurrent
      else (catalog.store.get id).children := by
  simp only [absorb, if_neg hne]
  rw [Store.get_modify h]
  split <;> rfl

def ownerAfter (catalog : Catalog) (name : String) (existing newcomer : ComponentId) :
    Option ComponentId :=
  (catalog.store.get existing).parentName.bind (catalog.table.put name newcomer).get?

theorem journal_replace (catalog : Catalog) (name : String) (existing newcomer : ComponentId)
    (parent : Option ComponentId) :
    (catalog.replace name existing newcomer parent).journal = catalog.journal.record
      (replacement name (catalog.store.get existing) (catalog.store.get newcomer)) :=
  rfl

theorem store_replace (catalog : Catalog) (name : String) (existing newcomer : ComponentId)
    (parent : Option ComponentId) : (catalog.replace name existing newcomer parent).store =
      [parent, catalog.ownerAfter name existing newcomer].reduceOption.foldl
        (fun store id => store.filterChildren id (· != existing)) catalog.store :=
  rfl

@[simp] theorem table_replace : (catalog.replace name existing newcomer parent).table =
    catalog.table.put name newcomer :=
  rfl

@[simp] theorem policy_replace :
    (catalog.replace name existing newcomer parent).policy = catalog.policy :=
  rfl

theorem alike_replace (catalog : Catalog) (name : String) (existing newcomer : ComponentId)
    (parent : Option ComponentId) :
    catalog.store.Alike (catalog.replace name existing newcomer parent).store := by
  rw [store_replace]
  generalize [parent, catalog.ownerAfter name existing newcomer].reduceOption = owners
  generalize catalog.store = store
  induction owners generalizing store with
  | nil => exact .refl _
  | cons owner owners ih => exact (Store.alike_filterChildren store owner _).trans (ih _)

/-- A replaced component is struck off the children of the open parent and of the owner by name;
all other lists of children stay. -/
theorem children_replace (catalog : Catalog) (name : String) (existing newcomer : ComponentId)
    (parent : Option ComponentId) (id : ComponentId) :
    ((catalog.replace name existing newcomer parent).store.get id).children =
      if parent = some id ∨ catalog.ownerAfter name existing newcomer = some id then
        (catalog.store.get id).children.filter (· != existing)
      else (catalog.store.get id).children := by
  rw [store_replace]
  generalize catalog.ownerAfter name existing newcomer = owner
  cases parent with
  | none =>
    cases owner with
    | none => simp
    | some owner => simp [Store.children_filterChildren, eq_comm (a := owner)]
  | some parent =>
    cases owner with
    | none => simp [Store.children_filterChildren, eq_comm (a := parent)]
    | some owner =>
      simp only [List.reduceOption_cons_of_some, List.reduceOption_nil, List.foldl_cons,
        List.foldl_nil, Store.children_filterChildren, Option.some.injEq, eq_comm (a := parent),
        eq_comm (a := owner)]
      by_cases ho : id = owner
      · subst ho
        by_cases hp : id = parent <;> simp [hp]
      · simp [ho]

theorem get_absorb_of_ne (h : id ≠ existing) :
    (catalog.absorb existing newcomer).store.get id = catalog.store.get id := by
  unfold absorb
  split
  · rfl
  · exact Store.get_modify_of_ne h

theorem get_replace_of_ne (hp : parent ≠ some id)
    (ho : catalog.ownerAfter name existing newcomer ≠ some id) :
    (catalog.replace name existing newcomer parent).store.get id = catalog.store.get id := by
  have hkeep {owner : ComponentId} (h : some owner ≠ some id) (store : Store) :
      (store.filterChildren owner (· != existing)).get id = store.get id :=
    Store.get_modify_of_ne fun e => h (congrArg some e.symm)
  rw [store_replace]
  generalize catalog.ownerAfter name existing newcomer = owner at ho
  cases parent <;> cases owner <;> simp_all

theorem alike_place (catalog : Catalog) (name : String) (id : ComponentId)
    (parent : Option ComponentId) : catalog.store.Alike (catalog.place name id parent).1.store := by
  have h := catalog.placed name id parent
  generalize catalog.place name id parent = result at h
  cases h with
  | added => exact .refl _
  | absorbed => exact catalog.alike_absorb ..
  | refused => exact .refl _
  | replaced => exact catalog.alike_replace ..

end Catalog

end CodeAtlas
