import Mathlib.Data.List.Nodup
import Mathlib.Data.List.Perm.Basic
import CodeAtlas.Proofs.Catalog.Placement

/-! # Trees of a catalog

A catalog hangs together if each component with a parent's name is listed once by the component
that has this name. What breaks this is counted: orphans, which are in the catalog but not listed
by it, and stale children, which are listed but not in it.
-/

namespace CodeAtlas.Catalog

variable {catalog : Catalog}

/-- Each component with a parent's name is listed once by the component of that name. -/
def Hangs (catalog : Catalog) : Prop :=
  ∀ name child p, catalog.get? name = some child →
    (catalog.store.get child).parentName = some p →
      ∃ owner, catalog.get? p = some owner ∧ (catalog.store.get owner).children.count child = 1

instance (catalog : Catalog) : Decidable catalog.Hangs :=
  decidable_of_iff (∀ entry ∈ catalog.table.entries,
      (catalog.store.get entry.2).parentName.all (fun p =>
        (catalog.get? p).any fun owner =>
          (catalog.store.get owner).children.count entry.2 == 1) = true) <| by
    simp only [Hangs, Prod.forall, Table.mem_entries_iff, Option.all_eq_true, Option.any_eq_true,
      beq_iff_eq]
    exact ⟨fun h name child p hg hp => h name child hg p hp,
      fun h name child hg p hp => h name child p hg hp⟩

/-- Whatever lists a component of the catalog is what the catalog has under the parent's name. -/
def KeepsOwners (catalog : Catalog) : Prop :=
  ∀ owner name child p, child ∈ (catalog.store.get owner).children →
    catalog.get? name = some child → (catalog.store.get child).parentName = some p →
      catalog.get? p = some owner

def listed (catalog : Catalog) : List ComponentId :=
  catalog.table.values.flatMap fun owner => (catalog.store.get owner).children

/-- The components with a parent's name that no component of the catalog lists. -/
def orphans (catalog : Catalog) : List ComponentId :=
  catalog.table.values.filter fun id =>
    !catalog.listed.contains id && (catalog.store.get id).parentName.isSome

/-- What the components of the catalog list without its being in the catalog. -/
def stale (catalog : Catalog) : List ComponentId :=
  catalog.listed.filter fun id => !catalog.isCurrent id

structure Exclusive (catalog : Catalog) : Prop where
  named : ∀ name id, catalog.get? name = some id →
    (catalog.store.get id).qualifiedName = some name
  attached : ∀ owner child, child ∈ (catalog.store.get owner).children →
    ∃ p, (catalog.store.get child).parentName = some p
  nodup : ∀ owner, (catalog.store.get owner).children.Nodup
  unique : ∀ owner owner' child, child ∈ (catalog.store.get owner).children →
    child ∈ (catalog.store.get owner').children → owner = owner'
  held : ∀ name child p, catalog.get? name = some child →
    (catalog.store.get child).parentName = some p →
      ∃ owner, child ∈ (catalog.store.get owner).children

namespace Exclusive

theorem count_eq_one (h : catalog.Exclusive) {owner child : ComponentId}
    (hm : child ∈ (catalog.store.get owner).children) :
    (catalog.store.get owner).children.count child = 1 :=
  List.count_eq_one_of_mem (h.nodup owner) hm

/-- The catalog hangs together exactly if no owner of its components has lost its name. -/
theorem hangs_iff (h : catalog.Exclusive) : catalog.Hangs ↔ catalog.KeepsOwners := by
  constructor
  · intro hh owner name child p hm hg hp
    obtain ⟨owner', hg', hc⟩ := hh name child p hg hp
    have hm' : child ∈ (catalog.store.get owner').children :=
      List.count_pos_iff.mp (by omega)
    rwa [h.unique owner owner' child hm hm']
  · intro hk name child p hg hp
    obtain ⟨owner, hm⟩ := h.held name child p hg hp
    exact ⟨owner, hk owner name child p hm hg hp, h.count_eq_one hm⟩

theorem values_nodup (h : catalog.Exclusive) : catalog.table.values.Nodup := by
  refine List.Nodup.map_on ?_ (List.Nodup.of_map _ catalog.table.nodup)
  rintro ⟨name, id⟩ hm ⟨name', id'⟩ hm' rfl
  have hn := h.named name _ (Table.mem_entries_iff.mp hm)
  have hn' := h.named name' _ (Table.mem_entries_iff.mp hm')
  rw [Option.some.inj (hn.symm.trans hn')]

theorem listed_nodup (h : catalog.Exclusive) : catalog.listed.Nodup := by
  refine List.nodup_flatMap.mpr ⟨fun owner _ => h.nodup owner, ?_⟩
  refine h.values_nodup.imp fun {owner owner'} hne => ?_
  intro child hm hm'
  exact hne (h.unique owner owner' child hm hm')

theorem isCurrent_iff_mem (h : catalog.Exclusive) {id : ComponentId} :
    catalog.isCurrent id = true ↔ id ∈ catalog.table.values := by
  rw [Table.mem_values_iff]
  constructor
  · intro hc
    have hg : catalog.get? _ = some id := beq_iff_eq.mp hc
    exact ⟨_, hg⟩
  · rintro ⟨name, hg⟩
    exact (isCurrent_iff (h.named name id hg)).mpr hg

/-- Children and roots make up the catalog, but for orphans and stale children. -/
theorem listed_add_roots (h : catalog.Exclusive) :
    catalog.listed.length + catalog.roots.length + catalog.orphans.length =
      catalog.size + catalog.stale.length := by
  -- The children that are in the catalog are the components with a parent that are listed.
  have hboth : (catalog.listed.filter catalog.isCurrent).Perm (catalog.table.values.filter fun id =>
      catalog.listed.contains id && (catalog.store.get id).parentName.isSome) := by
    refine (List.perm_ext_iff_of_nodup (h.listed_nodup.filter _) (h.values_nodup.filter _)).mpr ?_
    intro id
    simp only [List.mem_filter, h.isCurrent_iff_mem, Bool.and_eq_true, List.contains_iff_mem]
    constructor
    · rintro ⟨hl, hv⟩
      obtain ⟨owner, -, hm⟩ := List.mem_flatMap.mp hl
      obtain ⟨p, hp⟩ := h.attached owner id hm
      exact ⟨hv, hl, by simp [hp]⟩
    · rintro ⟨hv, hl, -⟩
      exact ⟨hl, hv⟩
  have hlisted := List.length_eq_length_filter_add (l := catalog.listed) catalog.isCurrent
  have hroots := List.length_eq_length_filter_add (l := catalog.table.values)
    fun id => (catalog.store.get id).parentName.isNone
  have hsome : (fun id => !(catalog.store.get id).parentName.isNone) =
      fun id => (catalog.store.get id).parentName.isSome := by
    funext id
    exact Option.not_isNone _
  have horphans := List.length_eq_length_filter_add
    (l := catalog.table.values.filter fun id => (catalog.store.get id).parentName.isSome)
    catalog.listed.contains
  simp only [List.filter_filter] at horphans
  have hsize : catalog.size = catalog.table.values.length := (List.length_map _).symm
  rw [hsome] at hroots
  have hperm := hboth.length_eq
  unfold roots orphans stale
  omega

end Exclusive

end CodeAtlas.Catalog
