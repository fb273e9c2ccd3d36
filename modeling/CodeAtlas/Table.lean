/-! # Ordered tables

A table holds one value for each of its keys, in the order in which the keys first came. Putting
a value at a key that is present keeps the key's position.
-/

namespace CodeAtlas

variable {α : Type}

/-- Entries with pairwise distinct keys. -/
structure Table (α : Type) where
  entries : List (String × α)
  nodup : (entries.map Prod.fst).Nodup

namespace Table

def putEntry (key : String) (value : α) : List (String × α) → List (String × α)
  | [] => [(key, value)]
  | entry :: rest =>
    if entry.1 = key then (key, value) :: rest else entry :: putEntry key value rest

theorem keys_putEntry (key : String) (value : α) (entries : List (String × α)) :
    (putEntry key value entries).map Prod.fst =
      if key ∈ entries.map Prod.fst then entries.map Prod.fst
      else entries.map Prod.fst ++ [key] := by
  induction entries with
  | nil => simp [putEntry]
  | cons entry rest ih =>
    unfold putEntry
    by_cases h : entry.1 = key
    · simp [h]
    · have h' : key ≠ entry.1 := fun e => h e.symm
      simp only [h, if_false, List.map_cons, ih, List.mem_cons, h', false_or]
      split <;> simp

theorem nodup_putEntry (key : String) (value : α) {entries : List (String × α)}
    (h : (entries.map Prod.fst).Nodup) : ((putEntry key value entries).map Prod.fst).Nodup := by
  rw [keys_putEntry]
  split
  · exact h
  · rename_i hk
    rw [List.nodup_append]
    refine ⟨h, by simp, ?_⟩
    intro a ha b hb e
    rw [List.mem_singleton] at hb
    exact hk (hb ▸ e ▸ ha)

theorem lookup_putEntry (key : String) (value : α) (entries : List (String × α)) (k : String) :
    (putEntry key value entries).lookup k = if k = key then some value else entries.lookup k := by
  induction entries with
  | nil =>
    by_cases h : k = key
    · simp [putEntry, h]
    · have hb : (k == key) = false := by simpa using h
      simp [putEntry, List.lookup_cons, hb, h]
  | cons entry rest ih =>
    obtain ⟨first, old⟩ := entry
    unfold putEntry
    by_cases hf : first = key
    · subst hf
      by_cases h : k = first
      · simp [h]
      · have hb : (k == first) = false := by simpa using h
        simp [List.lookup_cons, hb, h]
    · simp only [hf, if_false, List.lookup_cons, ih]
      by_cases hk : k = first
      · simp [hk, hf]
      · have hb : (k == first) = false := by simpa using hk
        simp [hb]

def empty : Table α := ⟨[], List.nodup_nil⟩

instance : EmptyCollection (Table α) := ⟨empty⟩

instance : Inhabited (Table α) := ⟨empty⟩

/-- Set the value at a key, in place if the key is present and else at the end. -/
def put (table : Table α) (key : String) (value : α) : Table α :=
  ⟨putEntry key value table.entries, nodup_putEntry key value table.nodup⟩

def get? (table : Table α) (key : String) : Option α := table.entries.lookup key

def keys (table : Table α) : List String := table.entries.map Prod.fst

def values (table : Table α) : List α := table.entries.map Prod.snd

def size (table : Table α) : Nat := table.entries.length

def ofList (entries : List (String × α)) : Table α :=
  entries.foldl (fun table entry => table.put entry.1 entry.2) empty

theorem keys_put (table : Table α) (key : String) (value : α) :
    (table.put key value).keys = if key ∈ table.keys then table.keys else table.keys ++ [key] :=
  keys_putEntry key value table.entries

theorem get?_put (table : Table α) (key : String) (value : α) (k : String) :
    (table.put key value).get? k = if k = key then some value else table.get? k :=
  lookup_putEntry key value table.entries k

/-- Whether two tables map the same keys to the same values, in whatever order. -/
def same [BEq α] (a b : Table α) : Bool :=
  a.size == b.size && a.entries.all fun entry => b.get? entry.1 == some entry.2

end Table

end CodeAtlas
