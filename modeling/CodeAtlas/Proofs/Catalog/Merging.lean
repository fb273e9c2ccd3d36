import CodeAtlas.Proofs.Catalog.Placement
import CodeAtlas.Proofs.Text.Dotted

/-! # Merging tables

Tables with one package each, which comes last in its table, are merged into one catalog. If the
tables agree on what is a package, then after each of them every package of the catalog lists
exactly the components that the catalog has with the package's name as their parent's name.
-/

namespace CodeAtlas

namespace Table

variable {table : Table ComponentId} {store : Store}

def HasPackage (table : Table ComponentId) (store : Store) (name : String) : Prop :=
  ∃ id, table.get? name = some id ∧ (store.get id).kind = .package

/-- The table has a component of the name, or one whose parent has the name. -/
def Mentions (table : Table ComponentId) (store : Store) (name : String) : Prop :=
  (∃ id, table.get? name = some id) ∨
    ∃ n id, table.get? n = some id ∧ (store.get id).parentName = some name

def Apart (table table' : Table ComponentId) : Prop :=
  ∀ m n id, table.get? m = some id → table'.get? n ≠ some id

theorem putEntry_of_lookup_none {entries : List (String × ComponentId)} {key : String}
    {value : ComponentId} (h : entries.lookup key = none) :
    putEntry key value entries = entries ++ [(key, value)] := by
  induction entries with
  | nil => rfl
  | cons entry rest ih =>
    obtain ⟨first, old⟩ := entry
    by_cases e : key = first
    · simp [e] at h
    · have hb : (key == first) = false := by simpa using e
      rw [List.lookup_cons, hb] at h
      rw [putEntry, if_neg fun e' => e e'.symm, ih h, List.cons_append]

theorem entries_put {key : String} {value : ComponentId} (h : table.get? key = none) :
    (table.put key value).entries = table.entries ++ [(key, value)] :=
  putEntry_of_lookup_none h

end Table

def PackagesKeepKind (store : Store) (tables : List (Table ComponentId)) : Prop :=
  ∀ t ∈ tables, ∀ t' ∈ tables, ∀ name, t.HasPackage store name → ∀ id, t'.get? name = some id →
    (store.get id).kind = .package

/-- Tables agree on packages if a package in one table is no other component in another one, and no
parent of components there without being a package there too. -/
structure PackagesAgree (store : Store) (tables : List (Table ComponentId)) : Prop where
  keepKind : PackagesKeepKind store tables
  owned : ∀ t ∈ tables, ∀ t' ∈ tables, ∀ name, t.HasPackage store name → ∀ n id,
    t'.get? n = some id → (store.get id).parentName = some name → t'.HasPackage store name

section Decidable

variable (table : Table ComponentId) (store : Store) (tables : List (Table ComponentId))

instance (name : String) : Decidable (table.HasPackage store name) :=
  decidable_of_iff ((table.get? name).any (fun id => (store.get id).kind = .package) = true) (by
    simp [Table.HasPackage, Option.any_eq_true])

theorem packagesKeepKind_iff : PackagesKeepKind store tables ↔
    ∀ t ∈ tables, ∀ t' ∈ tables, ∀ entry ∈ t.entries, (store.get entry.2).kind = .package →
      (t'.get? entry.1).all (fun id => (store.get id).kind = .package) = true := by
  simp only [PackagesKeepKind, Table.HasPackage, Option.all_eq_true, decide_eq_true_eq]
  constructor
  · intro h t ht t' ht' entry hm hk id hi
    exact h t ht t' ht' entry.1 ⟨entry.2, Table.mem_entries_iff.mp hm, hk⟩ id hi
  · rintro h t ht t' ht' name ⟨package, hp, hk⟩ id hi
    exact h t ht t' ht' _ (Table.mem_entries_iff.mpr hp) hk id hi

instance : Decidable (PackagesKeepKind store tables) :=
  decidable_of_iff _ (packagesKeepKind_iff store tables).symm

theorem packagesAgree_iff : PackagesAgree store tables ↔ PackagesKeepKind store tables ∧
    ∀ t ∈ tables, ∀ t' ∈ tables, ∀ entry ∈ t.entries, (store.get entry.2).kind = .package →
      ∀ entry' ∈ t'.entries, (store.get entry'.2).parentName = some entry.1 →
        t'.HasPackage store entry.1 := by
  constructor
  · intro h
    refine ⟨h.keepKind, fun t ht t' ht' entry hm hk entry' hm' hp => ?_⟩
    exact h.owned t ht t' ht' entry.1 ⟨entry.2, Table.mem_entries_iff.mp hm, hk⟩ entry'.1 entry'.2
      (Table.mem_entries_iff.mp hm') hp
  · rintro ⟨hkeep, howned⟩
    refine ⟨hkeep, fun t ht t' ht' name ⟨package, hp, hk⟩ n id hi hparent => ?_⟩
    exact howned t ht t' ht' _ (Table.mem_entries_iff.mpr hp) hk _ (Table.mem_entries_iff.mpr hi)
      hparent

instance : Decidable (PackagesAgree store tables) :=
  decidable_of_iff _ (packagesAgree_iff store tables).symm

end Decidable

theorem PackagesAgree.subset {store : Store} {tables tables' : List (Table ComponentId)}
    (h : PackagesAgree store tables) (hs : tables' ⊆ tables) : PackagesAgree store tables' :=
  ⟨fun t ht t' ht' => h.keepKind t (hs ht) t' (hs ht'),
    fun t ht t' ht' => h.owned t (hs ht) t' (hs ht')⟩

theorem PackagesAgree.hasPackage {store : Store} {tables : List (Table ComponentId)}
    (h : PackagesAgree store tables) {t t' : Table ComponentId} (ht : t ∈ tables)
    (ht' : t' ∈ tables) {name : String} (hp : t.HasPackage store name)
    (hm : t'.Mentions store name) : t'.HasPackage store name := by
  rcases hm with ⟨id, hi⟩ | ⟨n, id, hi, hparent⟩
  · exact ⟨id, hi, h.keepKind t ht t' ht' name hp id hi⟩
  · exact h.owned t ht t' ht' name hp n id hi hparent

/-- A table as the walk of a unit leaves it. Its package, if there is one, comes last and lists the
components of the table that have its name as their parent's name. -/
structure Bundle (store : Store) (table : Table ComponentId)
    (package? : Option (String × ComponentId)) : Prop where
  entries_eq : ∃ rest, table.entries = rest ++ package?.toList ∧
    ∀ entry ∈ rest, (store.get entry.2).kind ≠ .package
  named : ∀ n id, table.get? n = some id →
    store.Has id ∧ (store.get id).qualifiedName = some n
  parentName_eq : ∀ n id, table.get? n = some id → (store.get id).kind ≠ .package →
    (store.get id).parentName = Dotted.parent? n
  package : ∀ p package, package? = some (p, package) →
    (store.get package).kind = .package ∧ (store.get package).parentName = none
  nodup : ∀ p package, package? = some (p, package) → (store.get package).children.Nodup
  lists : ∀ p package, package? = some (p, package) → ∀ child,
    child ∈ (store.get package).children ↔
      (∃ n, table.get? n = some child) ∧ (store.get child).parentName = some p

theorem Bundle.get?_package {store : Store} {table : Table ComponentId} {p : String}
    {package : ComponentId} {package? : Option (String × ComponentId)}
    (h : Bundle store table package?) (hp : package? = some (p, package)) :
    table.get? p = some package := by
  obtain ⟨rest, hentries, -⟩ := h.entries_eq
  rw [← Table.mem_entries_iff, hentries, hp]
  simp

theorem Bundle.of_extends {s t : Store} {table : Table ComponentId}
    {package? : Option (String × ComponentId)} (h : Bundle s table package?) (he : s.Extends t) :
    Bundle t table package? := by
  have hget {n : String} {id : ComponentId} (hi : table.get? n = some id) : t.get id = s.get id :=
    he.get_eq id (h.named n id hi).1
  obtain ⟨rest, hentries, hrest⟩ := h.entries_eq
  have hpackage {p : String} {package : ComponentId} (hp : package? = some (p, package)) :
      t.get package = s.get package :=
    hget (h.get?_package hp)
  constructor
  · refine ⟨rest, hentries, fun entry hm => ?_⟩
    rw [hget (Table.mem_entries_iff.mp (by rw [hentries]; exact List.mem_append_left _ hm))]
    exact hrest entry hm
  · intro n id hi
    rw [hget hi]
    exact ⟨he.has id (h.named n id hi).1, (h.named n id hi).2⟩
  · intro n id hi
    rw [hget hi]
    exact h.parentName_eq n id hi
  · intro p package hp
    rw [hpackage hp]
    exact h.package p package hp
  · intro p package hp
    rw [hpackage hp]
    exact h.nodup p package hp
  · intro p package hp child
    rw [hpackage hp, h.lists p package hp]
    refine and_congr_right ?_
    rintro ⟨n, hn⟩
    rw [hget hn]

namespace Catalog

variable {catalog : Catalog} {store : Store} {seen : List (String × ComponentId)}
  {pending : ComponentId → Prop} {name : String} {id : ComponentId}

theorem store_mergeEntry (catalog : Catalog) (entry : String × ComponentId) :
    (catalog.mergeEntry entry).store = (catalog.place entry.1 entry.2 none).1.store := by
  unfold mergeEntry
  split
  · split <;> simp_all [record]
  · simp_all

theorem table_mergeEntry (catalog : Catalog) (entry : String × ComponentId) :
    (catalog.mergeEntry entry).table = (catalog.place entry.1 entry.2 none).1.table := by
  unfold mergeEntry
  split
  · split <;> simp_all [record]
  · simp_all

theorem get?_mergeEntry (catalog : Catalog) (name : String) (id : ComponentId) :
    (∀ n, (catalog.mergeEntry (name, id)).get? n =
      if n = name then some id else catalog.get? n) ∨
    (∃ existing, catalog.get? name = some existing) ∧
      ∀ n, (catalog.mergeEntry (name, id)).get? n = catalog.get? n := by
  have hp := catalog.placed name id none
  unfold get?
  rw [table_mergeEntry]
  generalize catalog.place name id none = result at hp
  cases hp with
  | added => exact .inl (Table.get?_put catalog.table name id)
  | absorbed he => exact .inr ⟨⟨_, he⟩, fun n => by rw [table_absorb]⟩
  | refused he => exact .inr ⟨⟨_, he⟩, fun _ => rfl⟩
  | replaced => exact .inl (Table.get?_put catalog.table name id)

theorem get?_mergeEntry_of_ne {entry : String × ComponentId} (h : name ≠ entry.1) :
    (catalog.mergeEntry entry).get? name = catalog.get? name := by
  rcases catalog.get?_mergeEntry entry.1 entry.2 with he | ⟨-, he⟩
  · rw [he, if_neg h]
  · exact he name

theorem get?_merge_of_notMem {front : List (String × ComponentId)}
    (h : name ∉ front.map Prod.fst) : (catalog.merge front).get? name = catalog.get? name := by
  induction front generalizing catalog with
  | nil => rfl
  | cons entry rest ih =>
    obtain ⟨hne, hrest⟩ := not_or.mp (List.mem_cons.not.mp h)
    exact (ih hrest).trans (get?_mergeEntry_of_ne hne)

theorem get?_merge {front : List (String × ComponentId)} (hn : (front.map Prod.fst).Nodup)
    (hm : (name, id) ∈ front) (hnone : catalog.get? name = none) :
    (catalog.merge front).get? name = some id := by
  induction front generalizing catalog with
  | nil => cases hm
  | cons entry rest ih =>
    obtain ⟨hnot, hn⟩ := List.nodup_cons.mp hn
    rcases List.mem_cons.mp hm with rfl | hm
    · refine (get?_merge_of_notMem hnot).trans ?_
      rcases catalog.get?_mergeEntry name id with h | ⟨⟨existing, he⟩, -⟩
      · rw [h, if_pos rfl]
      · rw [hnone] at he
        cases he
    · have hne : name ≠ entry.1 := fun e => hnot (e ▸ List.mem_map_of_mem hm)
      exact ih hn hm ((get?_mergeEntry_of_ne hne).trans hnone)

def Named (store : Store) (entries : List (String × ComponentId)) : Prop :=
  ∀ n id, (n, id) ∈ entries → store.Has id ∧ (store.get id).qualifiedName = some n

/-- The catalog has been made by merging the given entries: it has all of their names and no other
components, and all other components of the store are as they were. -/
structure Gathered (store : Store) (seen : List (String × ComponentId)) (catalog : Catalog) :
    Prop where
  alike : store.Alike catalog.store
  named : Named store seen
  origin : ∀ n id, catalog.get? n = some id → (n, id) ∈ seen
  present : ∀ n id, (n, id) ∈ seen → ∃ current, catalog.get? n = some current
  untouched : ∀ id, (∀ n, (n, id) ∉ seen) → catalog.store.get id = store.get id

theorem Gathered.name_unique (h : Gathered store seen catalog) {m n : String}
    (hm : catalog.get? m = some id) (hn : catalog.get? n = some id) : m = n :=
  Option.some.inj ((h.named m id (h.origin m id hm)).2.symm.trans
    (h.named n id (h.origin n id hn)).2)

theorem Gathered.isCurrent_iff (h : Gathered store seen catalog) :
    catalog.isCurrent id = true ↔ ∃ n, catalog.get? n = some id := by
  constructor
  · intro hc
    exact ⟨_, by simpa [isCurrent] using hc⟩
  · rintro ⟨n, hn⟩
    have hq := (h.named n id (h.origin n id hn)).2
    rw [← h.alike.qualifiedName_eq] at hq
    exact (Catalog.isCurrent_iff hq).mpr hn

theorem Gathered.untouched_mergeEntry (h : Gathered store seen catalog) {other : ComponentId}
    (ho : ∀ n, (n, other) ∉ seen ++ [(name, id)]) :
    (catalog.mergeEntry (name, id)).store.get other = store.get other := by
  have hnew : other ≠ id := by
    rintro rfl
    exact ho name (by simp)
  have hold (n : String) : catalog.get? n ≠ some other := fun hn =>
    ho n (List.mem_append_left _ (h.origin n other hn))
  have hkept := h.untouched other fun n hm => ho n (List.mem_append_left _ hm)
  have hp := catalog.placed name id none
  rw [store_mergeEntry]
  generalize catalog.place name id none = result at hp
  cases hp with
  | added => exact hkept
  | absorbed he =>
    refine (get_absorb_of_ne ?_).trans hkept
    rintro rfl
    exact hold name he
  | refused => exact hkept
  | replaced =>
    refine (get_replace_of_ne (by simp) fun e => ?_).trans hkept
    obtain ⟨p, -, hp⟩ := Option.bind_eq_some_iff.mp e
    rw [Table.get?_put] at hp
    split at hp
    · exact hnew (Option.some.inj hp).symm
    · exact hold p hp

theorem Gathered.mergeEntry (h : Gathered store seen catalog)
    (hi : store.Has id ∧ (store.get id).qualifiedName = some name) :
    Gathered store (seen ++ [(name, id)]) (catalog.mergeEntry (name, id)) where
  alike := by
    rw [store_mergeEntry]
    exact h.alike.trans (catalog.alike_place ..)
  named n i hm := by
    rcases List.mem_append.mp hm with hm | hm
    · exact h.named n i hm
    · cases List.mem_singleton.mp hm
      exact hi
  origin n i hn := by
    rw [List.mem_append, List.mem_singleton]
    rcases catalog.get?_mergeEntry name id with he | ⟨-, he⟩
    · rw [he] at hn
      split at hn
      · cases hn
        exact .inr (by rw [‹n = name›])
      · exact .inl (h.origin n i hn)
    · exact .inl (h.origin n i (he n ▸ hn))
  present n i hm := by
    rcases catalog.get?_mergeEntry name id with he | ⟨⟨existing, hx⟩, he⟩
    · rw [he]
      split
      · exact ⟨id, rfl⟩
      · rcases List.mem_append.mp hm with hm | hm
        · exact h.present n i hm
        · exact absurd (congrArg Prod.fst (List.mem_singleton.mp hm)) ‹_›
    · rw [he]
      rcases List.mem_append.mp hm with hm | hm
      · exact h.present n i hm
      · cases List.mem_singleton.mp hm
        exact ⟨existing, hx⟩
  untouched other ho := h.untouched_mergeEntry ho

theorem Gathered.merge {entries : List (String × ComponentId)} (h : Gathered store seen catalog)
    (hn : Named store entries) : Gathered store (seen ++ entries) (catalog.merge entries) := by
  induction entries generalizing seen catalog with
  | nil =>
    rw [List.append_nil]
    exact h
  | cons entry rest ih =>
    have hrest := ih (h.mergeEntry (hn entry.1 entry.2 List.mem_cons_self))
      fun n i hm => hn n i (List.mem_cons_of_mem _ hm)
    rwa [List.append_assoc, List.singleton_append] at hrest

theorem Gathered.current_put (h : Gathered store seen catalog)
    {after : Catalog} (hg : ∀ n, after.get? n = if n = name then some id else catalog.get? n)
    (child : ComponentId) : (∃ n, after.get? n = some child) ↔
      child = id ∨ (∃ n, catalog.get? n = some child) ∧ catalog.get? name ≠ some child := by
  simp only [hg]
  constructor
  · rintro ⟨n, hi⟩
    split at hi
    · exact .inl (Option.some.inj hi).symm
    · exact .inr ⟨⟨n, hi⟩, fun hn => absurd (h.name_unique hi hn) ‹_›⟩
  · rintro (rfl | ⟨⟨n, hi⟩, hne⟩)
    · exact ⟨name, if_pos rfl⟩
    · refine ⟨n, ?_⟩
      rw [if_neg, hi]
      rintro rfl
      exact hne hi

/-- The packages of the catalog list what it has below their names, but for components that are
pending because the package that lists them has not been merged yet. -/
structure Spanned (store : Store) (pending : ComponentId → Prop) (catalog : Catalog) : Prop where
  nodup : ∀ p package, catalog.get? p = some package → (store.get package).kind = .package →
    (catalog.store.get package).children.Nodup
  lists : ∀ p package, catalog.get? p = some package → (store.get package).kind = .package →
    ∀ child, child ∈ (catalog.store.get package).children ↔
      (∃ n, catalog.get? n = some child) ∧ (store.get child).parentName = some p ∧ ¬ pending child

theorem Spanned.of_eq {after : Catalog} (h : Spanned store pending catalog)
    (hs : after.store = catalog.store) (ht : after.table = catalog.table) :
    Spanned store pending after := by
  obtain ⟨h₁, h₂⟩ := h
  unfold get? at h₁ h₂
  constructor
  all_goals simp only [get?, hs, ht]
  all_goals assumption

theorem Spanned.put (h : Spanned store pending catalog) (hg : Gathered store seen catalog)
    (hk : (store.get id).kind ≠ .package) (hp : pending id) {after : Catalog}
    (hget : ∀ n, after.get? n = if n = name then some id else catalog.get? n)
    (hsub : ∀ package, (after.store.get package).children.Sublist
      (catalog.store.get package).children)
    (hmem : ∀ q package, catalog.get? q = some package → (store.get package).kind = .package →
      ∀ child, child ∈ (after.store.get package).children ↔
        child ∈ (catalog.store.get package).children ∧ catalog.get? name ≠ some child) :
    Spanned store pending after := by
  have hold {q : String} {package : ComponentId} (hq : after.get? q = some package)
      (hkind : (store.get package).kind = .package) : catalog.get? q = some package := by
    rw [hget] at hq
    split at hq
    · cases hq
      exact absurd hkind hk
    · exact hq
  constructor
  · intro q package hq hkind
    exact (h.nodup q package (hold hq hkind) hkind).sublist (hsub package)
  · intro q package hq hkind child
    rw [hmem q package (hold hq hkind) hkind, h.lists q package (hold hq hkind) hkind,
      hg.current_put hget]
    constructor
    · rintro ⟨⟨hc, hrest⟩, hne⟩
      exact ⟨.inr ⟨hc, hne⟩, hrest⟩
    · rintro ⟨rfl | ⟨hc, hne⟩, hparent, hpending⟩
      · exact absurd hp hpending
      · exact ⟨⟨hc, hparent, hpending⟩, hne⟩

theorem Spanned.component (h : Spanned store pending catalog) (hg : Gathered store seen catalog)
    (hk : (store.get id).kind ≠ .package) (hp : pending id)
    (hold : ∀ existing, catalog.get? name = some existing →
      (store.get existing).kind ≠ .package) :
    Spanned store pending (catalog.mergeEntry (name, id)) := by
  have hplaced := catalog.placed name id none
  have hstore := catalog.store_mergeEntry (name, id)
  have htable := catalog.table_mergeEntry (name, id)
  dsimp only at hstore htable
  generalize catalog.place name id none = result at hplaced hstore htable
  cases hplaced with
  | added hnone =>
    have hget (n : String) : (catalog.mergeEntry (name, id)).get? n =
        if n = name then some id else catalog.get? n := by
      rw [get?, htable, Table.get?_put]
      rfl
    refine h.put hg hk hp hget (fun _ => by rw [hstore]) fun q package _ _ child => ?_
    rw [hstore, hnone]
    simp
  | absorbed he hkind =>
    rw [hg.alike.kind_eq] at hkind
    exact absurd hkind (hold _ he)
  | refused => exact h.of_eq hstore htable
  | @replaced existing he =>
    have hchildren := catalog.children_replace name existing id none
    have hget (n : String) : (catalog.mergeEntry (name, id)).get? n =
        if n = name then some id else catalog.get? n := by
      rw [get?, htable, table_replace, Table.get?_put]
      rfl
    refine h.put hg hk hp hget (fun package => ?_) fun q package hq hkind child => ?_
    · rw [hstore, hchildren]
      split
      · exact List.filter_sublist
      · exact .refl _
    · rw [hstore, hchildren, he]
      split
      · simp [eq_comm (a := child)]
      · rename_i hno
        -- A package that lists the replaced component is the owner by name.
        have hnot : existing ∉ (catalog.store.get package).children := by
          intro hm
          have hparent := ((h.lists q package hq hkind existing).mp hm).2.1
          refine hno (.inr ?_)
          rw [ownerAfter, hg.alike.parentName_eq, hparent, Option.bind_some, Table.get?_put, if_neg]
          · exact hq
          · rintro rfl
            obtain rfl := Option.some.inj (hq.symm.trans he)
            exact hold package he hkind
        refine ⟨fun hm => ⟨hm, fun e => ?_⟩, And.left⟩
        obtain rfl := Option.some.inj e
        exact hnot hm

def Settles (store : Store) (pending : ComponentId → Prop) (catalog : Catalog)
    (name? : Option String) : Prop :=
  ∀ q package, catalog.get? q = some package → (store.get package).kind = .package →
    name? ≠ some q → ∀ child, pending child → (store.get child).parentName ≠ some q

theorem Spanned.lists_of_settles (h : Spanned store pending catalog) {name? : Option String}
    (hs : Settles store pending catalog name?) {q : String} {package : ComponentId}
    (hq : catalog.get? q = some package) (hk : (store.get package).kind = .package)
    (hne : name? ≠ some q) (child : ComponentId) :
    child ∈ (catalog.store.get package).children ↔
      (∃ n, catalog.get? n = some child) ∧ (store.get child).parentName = some q := by
  rw [h.lists q package hq hk, and_congr_right_iff]
  intro _
  exact ⟨And.left, fun hp => ⟨hp, fun hpending => hs q package hq hk hne child hpending hp⟩⟩

structure Arrives (store : Store) (seen : List (String × ComponentId))
    (pending : ComponentId → Prop) (catalog : Catalog) (name : String) (id : ComponentId) :
    Prop where
  kind_eq : (store.get id).kind = .package
  root : (store.get id).parentName = none
  new : ∀ n, (n, id) ∉ seen
  nodup : (store.get id).children.Nodup
  lists : ∀ child, child ∈ (store.get id).children ↔
    pending child ∧ (store.get child).parentName = some name
  same : ∀ existing, catalog.get? name = some existing → (store.get existing).kind = .package
  first : catalog.get? name = none → ∀ child, (store.get child).parentName = some name →
    ((∃ n, catalog.get? n = some child) ↔ pending child)
  settles : Settles store pending catalog (some name)

theorem Spanned.package_added (h : Spanned store pending catalog) (hg : Gathered store seen catalog)
    (ha : Arrives store seen pending catalog name id) (hnone : catalog.get? name = none)
    {after : Catalog} (hstore : after.store = catalog.store)
    (hget : ∀ n, after.get? n = if n = name then some id else catalog.get? n) :
    Spanned store (fun _ => False) after := by
  have hown := hg.untouched id ha.new
  have hchild {child : ComponentId} {q : String} (hp : (store.get child).parentName = some q) :
      (∃ n, after.get? n = some child) ↔ ∃ n, catalog.get? n = some child := by
    rw [hg.current_put hget, hnone]
    refine ⟨?_, fun hc => .inr ⟨hc, nofun⟩⟩
    rintro (rfl | ⟨hc, -⟩)
    · rw [ha.root] at hp
      cases hp
    · exact hc
  constructor
  · intro q package hq hk
    rw [hget] at hq
    rw [hstore]
    split at hq
    · cases hq
      rw [hown]
      exact ha.nodup
    · exact h.nodup q package hq hk
  · intro q package hq hk child
    rw [hget] at hq
    rw [hstore, not_false_eq_true, and_true]
    split at hq
    · cases hq
      subst_vars
      rw [hown, ha.lists, and_congr_left_iff]
      intro hp
      rw [hchild hp, ha.first hnone child hp]
    · rename_i hne
      rw [h.lists_of_settles ha.settles hq hk (fun e => hne (Option.some.inj e).symm),
        and_congr_left_iff]
      exact fun hp => (hchild hp).symm

theorem Spanned.package_absorbed (h : Spanned store pending catalog)
    (hg : Gathered store seen catalog) (ha : Arrives store seen pending catalog name id)
    {existing : ComponentId} (he : catalog.get? name = some existing) {after : Catalog}
    (hstore : after.store = (catalog.absorb existing id).store)
    (hget : ∀ n, after.get? n = catalog.get? n) : Spanned store (fun _ => False) after := by
  have hne : existing ≠ id := by
    rintro rfl
    exact ha.new name (hg.origin name existing he)
  have hhas : catalog.store.Has existing :=
    hg.alike.has_iff.mpr (hg.named name existing (hg.origin name existing he)).1
  have hchildren := children_absorb hhas hne
  have hkind := ha.same existing he
  have hown := hg.untouched id ha.new
  constructor
  · intro q package hq hk
    rw [hget] at hq
    rw [hstore, hchildren]
    split
    · -- What the two packages list is told apart by being pending.
      refine List.Nodup.sublist List.filter_sublist (List.nodup_append.mpr ⟨?_, ?_, ?_⟩)
      · exact h.nodup name existing he hkind
      · rw [hown]
        exact ha.nodup
      · rintro child hm _ hm' rfl
        rw [hown, ha.lists] at hm'
        exact ((h.lists name existing he hkind child).mp hm).2.2 hm'.1
    · exact h.nodup q package hq hk
  · intro q package hq hk child
    rw [hget] at hq
    simp only [hstore, hchildren, hget, not_false_eq_true, and_true]
    split
    · rename_i e
      subst e
      obtain rfl := hg.name_unique hq he
      rw [List.mem_filter, List.mem_append, hg.isCurrent_iff, h.lists q package hq hk, hown,
        ha.lists]
      constructor
      · rintro ⟨⟨-, hp, -⟩ | ⟨-, hp⟩, hc⟩
        · exact ⟨hc, hp⟩
        · exact ⟨hc, hp⟩
      · rintro ⟨hc, hp⟩
        by_cases hpending : pending child
        · exact ⟨.inr ⟨hpending, hp⟩, hc⟩
        · exact ⟨.inl ⟨hc, hp, hpending⟩, hc⟩
    · rename_i hother
      refine h.lists_of_settles ha.settles hq hk (fun e => ?_) child
      obtain rfl := Option.some.inj e
      exact hother (Option.some.inj (hq.symm.trans he))

/-- When a package is merged, what was pending for it is listed. -/
theorem Spanned.package (h : Spanned store pending catalog) (hg : Gathered store seen catalog)
    (ha : Arrives store seen pending catalog name id) :
    Spanned store (fun _ => False) (catalog.mergeEntry (name, id)) := by
  have hplaced := catalog.placed name id none
  have hstore := catalog.store_mergeEntry (name, id)
  have htable := catalog.table_mergeEntry (name, id)
  dsimp only at hstore htable
  generalize catalog.place name id none = result at hplaced hstore htable
  have hkinds {existing : ComponentId} (he : catalog.get? name = some existing) :
      (catalog.store.get existing).kind = .package ∧ (catalog.store.get id).kind = .package := by
    rw [hg.alike.kind_eq, hg.alike.kind_eq]
    exact ⟨ha.same existing he, ha.kind_eq⟩
  cases hplaced with
  | added hnone =>
    refine h.package_added hg ha hnone hstore fun n => ?_
    rw [get?, htable, Table.get?_put]
    rfl
  | absorbed he =>
    refine h.package_absorbed hg ha he hstore fun n => ?_
    rw [get?, htable, table_absorb]
    rfl
  | refused he hno => exact absurd (hkinds he) hno
  | replaced he hno => exact absurd (hkinds he) hno

theorem Spanned.settle (h : Spanned store pending catalog)
    (hs : Settles store pending catalog none) : Spanned store (fun _ => False) catalog := by
  refine ⟨h.nodup, fun q package hq hk child => ?_⟩
  rw [h.lists_of_settles hs hq hk nofun, not_false_eq_true, and_true]

theorem Spanned.children (h : Spanned store (fun _ => False) catalog)
    (ha : store.Alike catalog.store) {p : String} {package : ComponentId}
    (hp : catalog.get? p = some package) (hk : (catalog.store.get package).kind = .package) :
    (catalog.store.get package).children.Nodup ∧
      ∀ child, child ∈ (catalog.store.get package).children ↔
        ∃ name, catalog.get? name = some child ∧
          (catalog.store.get child).parentName = some p := by
  rw [ha.kind_eq] at hk
  refine ⟨h.nodup p package hp hk, fun child => ?_⟩
  rw [h.lists p package hp hk, ha.parentName_eq]
  simp

theorem Spanned.components {front : List (String × ComponentId)}
    (h : Spanned store pending catalog) (hg : Gathered store seen catalog)
    (hfront : Named store front)
    (hk : ∀ n id, (n, id) ∈ front → (store.get id).kind ≠ .package ∧ pending id)
    (hold : ∀ n id existing, (n, id) ∈ front → (n, existing) ∈ seen →
      (store.get existing).kind ≠ .package) :
    Gathered store (seen ++ front) (catalog.merge front) ∧
      Spanned store pending (catalog.merge front) := by
  induction front generalizing seen catalog with
  | nil => exact ⟨by rw [List.append_nil]; exact hg, h⟩
  | cons entry rest ih =>
    obtain ⟨name, id⟩ := entry
    obtain ⟨hkind, hpending⟩ := hk name id List.mem_cons_self
    have hg' := hg.mergeEntry (hfront name id List.mem_cons_self)
    have h' := h.component hg hkind hpending fun existing he =>
      hold name id existing List.mem_cons_self (hg.origin name existing he)
    have hrest := ih h' hg' (fun n i hm => hfront n i (List.mem_cons_of_mem _ hm))
      (fun n i hm => hk n i (List.mem_cons_of_mem _ hm)) fun n i existing hm hs => by
        rcases List.mem_append.mp hs with hs | hs
        · exact hold n i existing (List.mem_cons_of_mem _ hm) hs
        · cases List.mem_singleton.mp hs
          exact hkind
    rwa [List.append_assoc, List.singleton_append] at hrest

end Catalog

/-- A table that can be merged after others: all are bundles, they agree on what is a package, and
the table has no component of another one. -/
structure Joins (store : Store) (done : List (Table ComponentId)) (table : Table ComponentId)
    (package? : Option (String × ComponentId)) : Prop where
  bundle : Bundle store table package?
  bundles : ∀ t ∈ done, ∃ package?, Bundle store t package?
  agree : PackagesAgree store (table :: done)
  apart : ∀ t ∈ done, t.Apart table

namespace Joins

variable {store : Store} {done : List (Table ComponentId)} {table : Table ComponentId}
  {package? : Option (String × ComponentId)} {catalog : Catalog}

theorem mem_seen_iff {n : String} {id : ComponentId} :
    (n, id) ∈ done.flatMap Table.entries ↔ ∃ t ∈ done, t.get? n = some id := by
  simp only [List.mem_flatMap, Table.mem_entries_iff]

theorem package_of_mentions (h : Joins store done table package?) {t : Table ComponentId}
    (ht : t ∈ done) {name : String} (hp : t.HasPackage store name)
    (hm : table.Mentions store name) : ∃ package, package? = some (name, package) := by
  obtain ⟨id, hi, hk⟩ := h.agree.hasPackage (List.mem_cons_of_mem _ ht) List.mem_cons_self hp hm
  obtain ⟨rest, hentries, hrest⟩ := h.bundle.entries_eq
  have hmem := Table.mem_entries_iff.mpr hi
  rw [hentries, List.mem_append] at hmem
  rcases hmem with hmem | hmem
  · exact absurd hk (hrest _ hmem)
  · exact ⟨id, by simpa using hmem⟩

theorem hasPackage_of_mentions (h : Joins store done table package?) {name : String}
    {package : ComponentId} (hp : package? = some (name, package)) {t : Table ComponentId}
    (ht : t ∈ done) (hm : t.Mentions store name) : t.HasPackage store name :=
  h.agree.hasPackage List.mem_cons_self (List.mem_cons_of_mem _ ht)
    ⟨package, h.bundle.get?_package hp, (h.bundle.package name package hp).1⟩ hm

theorem kind_ne_package (h : Joins store done table package?) {n : String}
    {id existing : ComponentId} (hi : table.get? n = some id)
    (hk : (store.get id).kind ≠ .package)
    (hm : (n, existing) ∈ done.flatMap Table.entries) : (store.get existing).kind ≠ .package := by
  intro hkind
  obtain ⟨t, ht, hx⟩ := mem_seen_iff.mp hm
  exact hk (h.agree.keepKind t (List.mem_cons_of_mem _ ht) table List.mem_cons_self n
    ⟨existing, hx, hkind⟩ id hi)

variable {rest : List (String × ComponentId)}

/-- While the components of the table are merged, nothing is pending but for its own package. -/
theorem settles (h : Joins store done table package?)
    (hrest : ∀ entry ∈ rest, (store.get entry.2).kind ≠ .package)
    (hg : Catalog.Gathered store (done.flatMap Table.entries ++ rest) catalog) :
    catalog.Settles store (fun child => ∃ n, table.get? n = some child)
      (package?.map Prod.fst) := by
  rintro q package hq hk hne child ⟨n, hn⟩ hp
  rcases List.mem_append.mp (hg.origin q package hq) with hm | hm
  · obtain ⟨t, ht, hx⟩ := mem_seen_iff.mp hm
    obtain ⟨own, hown⟩ := h.package_of_mentions ht ⟨package, hx, hk⟩ (.inr ⟨n, child, hn, hp⟩)
    exact hne (by rw [hown]; rfl)
  · exact hrest _ hm hk

theorem present_of_mentions (h : Joins store done table package?) {p : String}
    {package : ComponentId} (hp : package? = some (p, package)) {t : Table ComponentId}
    (ht : t ∈ done) (hm : t.Mentions store p)
    (hg : Catalog.Gathered store (done.flatMap Table.entries ++ rest) catalog) :
    catalog.get? p ≠ none := by
  obtain ⟨id, hi, -⟩ := h.hasPackage_of_mentions hp ht hm
  obtain ⟨current, hc⟩ := hg.present p id (List.mem_append_left _ (mem_seen_iff.mpr ⟨t, ht, hi⟩))
  rw [hc]
  exact Option.some_ne_none current

theorem get?_of_new_package (h : Joins store done table package?) {p n : String}
    {package child : ComponentId} (hp : package? = some (p, package))
    (hg : Catalog.Gathered store (done.flatMap Table.entries) catalog)
    (hg' : Catalog.Gathered store (done.flatMap Table.entries ++ rest) (catalog.merge rest))
    (hnone : (catalog.merge rest).get? p = none) (hn : table.get? n = some child)
    (hk : (store.get child).kind ≠ .package) (hchild : (store.get child).parentName = some p) :
    catalog.get? n = none := by
  cases he : catalog.get? n with
  | none => rfl
  | some existing =>
    -- A component of the name has the same parent, so the package would be present.
    have hseen := hg.origin n existing he
    obtain ⟨t, ht, hx⟩ := mem_seen_iff.mp hseen
    obtain ⟨other?, hb⟩ := h.bundles t ht
    have hparent := hb.parentName_eq n existing hx (h.kind_ne_package hn hk hseen)
    rw [← h.bundle.parentName_eq n child hn hk, hchild] at hparent
    exact absurd hnone (h.present_of_mentions hp ht (.inr ⟨n, existing, hx, hparent⟩) hg')

theorem arrives (h : Joins store done table package?) {p : String} {package : ComponentId}
    (hp : package? = some (p, package)) (hentries : table.entries = rest ++ [(p, package)])
    (hrest : ∀ entry ∈ rest, (store.get entry.2).kind ≠ .package)
    (hg : Catalog.Gathered store (done.flatMap Table.entries) catalog)
    (hg' : Catalog.Gathered store (done.flatMap Table.entries ++ rest) (catalog.merge rest)) :
    Catalog.Arrives store (done.flatMap Table.entries ++ rest)
      (fun child => ∃ n, table.get? n = some child) (catalog.merge rest) p package := by
  obtain ⟨hkind, hroot⟩ := h.bundle.package p package hp
  have hin := h.bundle.get?_package hp
  have hmem {n : String} {id : ComponentId} (hm : (n, id) ∈ rest) : table.get? n = some id :=
    Table.mem_entries_iff.mp (by simp [hentries, hm])
  have hsettles := h.settles hrest hg'
  rw [hp] at hsettles
  refine ⟨hkind, hroot, ?_, h.bundle.nodup p package hp, h.bundle.lists p package hp, ?_, ?_,
    hsettles⟩
  · intro n hm
    rcases List.mem_append.mp hm with hm | hm
    · obtain ⟨t, ht, hx⟩ := mem_seen_iff.mp hm
      exact h.apart t ht n p package hx hin
    · exact hrest _ hm hkind
  · intro existing he
    rcases List.mem_append.mp (hg'.origin p existing he) with hm | hm
    · obtain ⟨t, ht, hx⟩ := mem_seen_iff.mp hm
      obtain ⟨id, hi, hk⟩ := h.hasPackage_of_mentions hp ht (.inl ⟨existing, hx⟩)
      obtain rfl := Option.some.inj (hx.symm.trans hi)
      exact hk
    · obtain rfl := Option.some.inj ((hmem hm).symm.trans hin)
      exact hkind
  · intro hnone child hchild
    constructor
    · rintro ⟨n, hn⟩
      rcases List.mem_append.mp (hg'.origin n child hn) with hm | hm
      · obtain ⟨t, ht, hx⟩ := mem_seen_iff.mp hm
        exact absurd hnone (h.present_of_mentions hp ht (.inr ⟨n, child, hx, hchild⟩) hg')
      · exact ⟨n, hmem hm⟩
    · rintro ⟨n, hn⟩
      have hm : (n, child) ∈ rest := by
        have hm := Table.mem_entries_iff.mpr hn
        rw [hentries, List.mem_append, List.mem_singleton] at hm
        rcases hm with hm | hm
        · exact hm
        · cases hm
          rw [hroot] at hchild
          cases hchild
      have hnew := h.get?_of_new_package hp hg hg' hnone hn (hrest _ hm) hchild
      have hkeys := table.nodup
      rw [hentries, List.map_append] at hkeys
      exact ⟨n, Catalog.get?_merge (List.nodup_append.mp hkeys).1 hm hnew⟩

/-- Merging one more table keeps the packages spanning all of them. -/
theorem merge (h : Joins store done table package?)
    (hg : Catalog.Gathered store (done.flatMap Table.entries) catalog)
    (hs : Catalog.Spanned store (fun _ => False) catalog) :
    Catalog.Gathered store ((done ++ [table]).flatMap Table.entries)
        (catalog.merge table.entries) ∧
      Catalog.Spanned store (fun _ => False) (catalog.merge table.entries) := by
  obtain ⟨rest, hentries, hrest⟩ := h.bundle.entries_eq
  have hmem {n : String} {id : ComponentId} (hm : (n, id) ∈ rest) : table.get? n = some id :=
    Table.mem_entries_iff.mp (by simp [hentries, hm])
  have hstart : Catalog.Spanned store (fun child => ∃ n, table.get? n = some child) catalog := by
    refine ⟨hs.nodup, fun p package hp hk child => ?_⟩
    rw [hs.lists p package hp hk, not_false_eq_true, and_true, and_congr_right_iff]
    rintro ⟨n, hn⟩
    refine ⟨fun hparent => ⟨hparent, ?_⟩, And.left⟩
    rintro ⟨m, hm⟩
    obtain ⟨t, ht, hx⟩ := mem_seen_iff.mp (hg.origin n child hn)
    exact h.apart t ht n m child hx hm
  obtain ⟨hg', hs'⟩ := hstart.components hg
    (fun n id hm => h.bundle.named n id (hmem hm))
    (fun n id hm => ⟨hrest _ hm, n, hmem hm⟩)
    fun n id existing hm hseen => h.kind_ne_package (hmem hm) (hrest _ hm) hseen
  rw [List.flatMap_append, List.flatMap_singleton]
  cases hp : package? with
  | none =>
    have hsettles := h.settles hrest hg'
    rw [hp] at hentries hsettles
    simp only [Option.toList_none, List.append_nil] at hentries
    rw [hentries]
    exact ⟨hg', hs'.settle hsettles⟩
  | some entry =>
    obtain ⟨p, package⟩ := entry
    rw [hp] at hentries
    simp only [Option.toList_some] at hentries
    have ha := h.arrives hp hentries hrest hg hg'
    have hnamed := h.bundle.named p package (h.bundle.get?_package hp)
    rw [hentries, Catalog.merge, List.foldl_append, ← List.append_assoc]
    exact ⟨hg'.mergeEntry hnamed, hs'.package hg' ha⟩

end Joins

end CodeAtlas
