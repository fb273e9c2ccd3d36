import CodeAtlas.Proofs.Builder.Sound

/-! # Components of a builder's own

A builder changes no component but those that it has opened itself. So builders may work one after
the other over one store without disturbing each other's components.
-/

namespace CodeAtlas.Builder

variable {b b' : Builder} {frame : Frame} {below : List Frame} {c : Component} {s : Store}

/-- Nothing of the store `s` is open, in the catalog or listed by what is not of that store, and all
of it is as it was. -/
structure Fresh (s : Store) (b : Builder) : Prop where
  kept : s.Extends b.store
  opened : ∀ f ∈ b.scope.frames, ¬ s.Has f.component
  named : ∀ name id, b.catalog.get? name = some id → ¬ s.Has id
  own : ∀ id, ¬ s.Has id → ∀ child ∈ (b.store.get id).children,
    ¬ s.Has child ∧ b.store.Has child

theorem Fresh.widens (h : Fresh s b) : s.Widens b.store :=
  ⟨h.kept, fun id hi child hm => (h.own id hi child hm).1⟩

theorem Fresh.of_agree (h : Fresh s b) (ha : Agree b b') : Fresh s b' := by
  obtain ⟨h₁, h₂, h₃, h₄⟩ := h
  unfold store at h₁ h₄
  constructor
  all_goals simp only [store, ha.catalog_eq, ha.scope_eq]
  all_goals assumption

theorem Fresh.vacate (h : Fresh s b) (he : Vacated b b') : Fresh s b' where
  kept := by
    rw [store, he.store_eq]
    exact h.kept
  opened := by simp [he.frames_eq]
  named name id hi := by
    unfold Catalog.get? at hi
    rw [he.table_eq] at hi
    exact h.named name id hi
  own := by
    rw [store, he.store_eq]
    exact h.own

theorem Fresh.adding (h : Fresh s b) (hc : c.Blank) (hf : Fits b frame c) :
    Fresh s (b.adding frame c) where
  kept := h.kept.add c
  opened := by
    rw [frames_adding, List.forall_mem_cons]
    refine ⟨fun hh => ?_, h.opened⟩
    rw [hf.component_eq] at hh
    exact b.store.not_has_new c (h.kept.has _ hh)
  named := h.named
  own id hi child hm := by
    rw [store_adding, Store.get_add] at hm
    split at hm
    · rw [hc.children_eq] at hm
      cases hm
    · obtain ⟨hold, hhas⟩ := h.own id hi child hm
      exact ⟨hold, Store.has_add_iff.mpr (.inl hhas)⟩

theorem Fresh.modify (h : Fresh s b) {id : ComponentId} (hi : ¬ s.Has id)
    {f : Component → Component} (hf : ∀ c, (f c).children = c.children) :
    Fresh s (b.withStore (b.store.modify id f)) := by
  refine ⟨h.kept.modify hi f, h.opened, h.named, fun other ho child hm => ?_⟩
  rw [store_withStore, Store.field_modify Component.children hf] at hm
  obtain ⟨hold, hhas⟩ := h.own other ho child hm
  exact ⟨hold, Store.has_modify_iff.mpr hhas⟩

/-- Closing a component changes only components of the builder's own. -/
theorem Fresh.extends_closing (h : Fresh s b) {name : String} {t : Store} {after : Catalog}
    {placement : Placement} (hc : Closing b frame below name t after placement) :
    s.Extends after.store := by
  have hparent {id : ComponentId} (hi : s.Has id) : b.openParent below name ≠ some id := by
    intro e
    obtain ⟨f, hm, rfl⟩ := mem_of_openParent e
    exact h.opened f (by rw [hc.frames_eq]; exact List.mem_cons_of_mem _ hm) hi
  have hframe {id : ComponentId} (hi : s.Has id) : id ≠ frame.component := by
    rintro rfl
    exact h.opened frame (by simp [hc.frames_eq]) hi
  have ht (id : ComponentId) (hi : s.Has id) : t.get id = s.get id :=
    (hc.attached.get_eq id (hframe hi) (hparent hi)).trans (h.kept.get_eq id hi)
  refine ⟨fun id hi => ?_, fun id hi => ?_⟩
  · rw [hc.alike.has_iff, hc.attached.has_iff]
    exact h.kept.has id hi
  cases placement with
  | added =>
    obtain ⟨-, rfl⟩ := hc.placed.of_added
    exact ht id hi
  | absorbed =>
    obtain ⟨existing, he, -, -, rfl⟩ := hc.placed.of_absorbed
    refine (Catalog.get_absorb_of_ne ?_).trans (ht id hi)
    rintro rfl
    exact h.named name id he hi
  | refused =>
    obtain ⟨-, rfl⟩ := hc.placed.of_refused
    exact ht id hi
  | replaced =>
    obtain ⟨existing, -, -, rfl⟩ := hc.placed.of_replaced
    refine (Catalog.get_replace_of_ne (hparent hi) fun e => ?_).trans (ht id hi)
    obtain ⟨p, -, hp⟩ := Option.bind_eq_some_iff.mp e
    rw [Table.get?_put] at hp
    split at hp
    · exact hframe hi (Option.some.inj hp).symm
    · exact h.named p id hp hi

theorem Fresh.own_closing (h : Fresh s b) (hs : Sound b) {name : String} {t : Store}
    {after : Catalog} {placement : Placement}
    (hc : Closing b frame below name t after placement) {id child : ComponentId} (hi : ¬ s.Has id)
    (hm : child ∈ (after.store.get id).children) : ¬ s.Has child ∧ after.store.Has child := by
  have hframe : frame ∈ b.scope.frames := by simp [hc.frames_eq]
  have ht {id : ComponentId} (hi : ¬ s.Has id) (hm : child ∈ (t.get id).children) :
      ¬ s.Has child ∧ after.store.Has child := by
    rw [hc.alike.has_iff, hc.attached.has_iff]
    rcases hc.attached.mem_children hm with hm | ⟨rfl, -⟩
    · exact h.own id hi child hm
    · exact ⟨h.opened frame hframe, hs.has frame hframe⟩
  rcases hc.mem_children hs hm with hm | ⟨hm, -⟩
  · exact ht hi hm
  · exact ht (h.opened frame hframe) hm

theorem Fresh.closeTop (h : Fresh s b) (hs : Sound b) (hne : b.scope.frames ≠ []) :
    Fresh s b.closeTop.state := by
  obtain ⟨frame, below, hf⟩ := List.exists_cons_of_ne_nil hne
  obtain ⟨name, t, after, placement, hc⟩ := hs.closing hf
  constructor
  · rw [store, hc.store_eq]
    exact h.extends_closing hc
  · rw [hc.scope_eq]
    exact fun f hm => h.opened f (hf ▸ List.mem_cons_of_mem _ hm)
  · intro n id hi
    rw [Catalog.get?, hc.table_eq] at hi
    rcases hc.get?_cases hi with hi | ⟨-, rfl⟩
    · exact h.named n id hi
    · exact h.opened frame (by simp [hf])
  · intro id hi child hm
    rw [store, hc.store_eq] at hm ⊢
    exact h.own_closing hs hc hi hm

theorem Fresh.step (h : Fresh s b) (hs : Sound b) (op : Op) : Fresh s (b.step op).state := by
  have he := b.step_effect op
  generalize b.step op = o at he
  have htop {top : Frame} (ht : b.scope.top? = some top) : ¬ s.Has top.component := by
    obtain ⟨below, hf⟩ := frames_of_top? ht
    exact h.opened top (by simp [hf])
  have hclose (n : Nat) (hn : n ≤ b.scope.frames.length) : Fresh s (closeMany n b).state :=
    hs.kept_closeMany (fun _ hs h hne => h.closeTop hs hne) h hn
  cases he with
  | still ha => exact h.of_agree ha
  | underflow => exact h
  | heldOpen => exact h
  | began name prov he =>
    exact (h.vacate he.toVacated).adding (b.blank_package name prov)
      ((hs.vacate he.toVacated).fits_inner _)
  | opened kind prov shortName withImports =>
    exact h.adding (b.blank_fresh kind prov shortName withImports) (hs.fits_inner _)
  | renamed name _ ht => exact h.modify (htop ht) fun _ => rfl
  | joined name _ ht => exact h.adding (blank_sibling _ name) (hs.fits_sibling ht _)
  | enriched what _ ht => exact h.modify (htop ht) (what.enriched b.resolver).children_eq
  | @closed top _ _ =>
    rw [state_andThen_done]
    exact hclose _ (b.countP_le_length top)
  | ended =>
    rw [state_andThen_done]
    exact hclose _ le_rfl

end CodeAtlas.Builder
