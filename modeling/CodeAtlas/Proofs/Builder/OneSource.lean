import CodeAtlas.Proofs.Builder.Sound

/-! # Components of one source

All components that a builder opens come from the builder's file, so a collision within the file is
never an error of the file, unless collisions are refused. The only faults of a sound builder are
underflows, refused collisions and units that are held open.
-/

namespace CodeAtlas.Builder

variable {b b' : Builder} {frame top : Frame} {below : List Frame} {c : Component} {op : Op}

/-- What is open and what is in the catalog comes from the builder's file, without errors so far. -/
structure OneSource (b : Builder) : Prop where
  opened : ∀ f ∈ b.scope.frames, (b.store.get f.component).sourceFile = b.path
  named : ∀ name id, b.catalog.get? name = some id → (b.store.get id).sourceFile = b.path
  errors_eq : b.catalog.journal.diagnostics.errors = []

theorem OneSource.of_agree (h : OneSource b) (ha : Agree b b') : OneSource b' where
  opened := by
    rw [store, ha.catalog_eq, ha.scope_eq, ha.path_eq]
    exact h.opened
  named := by
    rw [store, ha.catalog_eq, ha.path_eq]
    exact h.named
  errors_eq := by
    rw [ha.catalog_eq]
    exact h.errors_eq

theorem OneSource.emptied (h : OneSource b) (he : Emptied b b') : OneSource b' where
  opened := by simp [he.frames_eq]
  named name id hi := by
    unfold Catalog.get? at hi
    rw [he.table_eq] at hi
    rw [store, he.store_eq, he.path_eq]
    exact h.named name id hi
  errors_eq := he.errors_eq.trans h.errors_eq

theorem OneSource.adding (h : OneSource b) (hs : Sound b) (hf : Fits b frame c)
    (hc : c.sourceFile = b.path) : OneSource (b.adding frame c) where
  opened := by
    rw [frames_adding, List.forall_mem_cons, store_adding, hf.component_eq, Store.get_add_new]
    refine ⟨hc, fun f hm => ?_⟩
    rw [Store.get_add_of_has (hs.has f hm)]
    exact h.opened f hm
  named name id hi := by
    rw [store_adding, Store.get_add_of_has (hs.named name id hi).1]
    exact h.named name id hi
  errors_eq := h.errors_eq

theorem OneSource.modify (h : OneSource b) {id : ComponentId} {f : Component → Component}
    (hf : ∀ c, (f c).sourceFile = c.sourceFile) :
    OneSource (b.withStore (b.store.modify id f)) where
  opened g hm := (Store.field_modify Component.sourceFile hf _).trans (h.opened g hm)
  named name i hi := (Store.field_modify Component.sourceFile hf _).trans (h.named name i hi)
  errors_eq := h.errors_eq

theorem errors_record_warning (ds : Diagnostics) {d : Diagnostic} (h : d.severity ≠ .error) :
    (ds.record d).errors = ds.errors := by
  rw [Diagnostics.record, if_neg h]

theorem OneSource.closeTop (h : OneSource b) (hs : Sound b) (hne : b.scope.frames ≠ []) :
    OneSource b.closeTop.state := by
  obtain ⟨frame, below, hf⟩ := List.exists_cons_of_ne_nil hne
  obtain ⟨name, t, after, placement, hc⟩ := hs.closing hf
  have hsource (id : ComponentId) : (after.store.get id).sourceFile = (b.store.get id).sourceFile :=
    (hc.alike.sourceFile_eq id).trans (hc.attached.sourceFile_eq id)
  have hframe : frame ∈ b.scope.frames := by simp [hf]
  constructor
  · intro f hm
    rw [hc.scope_eq] at hm
    rw [store, hc.store_eq, hsource, hc.path_eq]
    exact h.opened f (hf ▸ List.mem_cons_of_mem _ hm)
  · intro n id hi
    rw [Catalog.get?, hc.table_eq] at hi
    rw [store, hc.store_eq, hsource, hc.path_eq]
    rcases hc.get?_cases hi with hi | ⟨-, rfl⟩
    · exact h.named n id hi
    · exact h.opened frame hframe
  · rw [hc.diagnostics_eq]
    cases placement with
    | added =>
      obtain ⟨-, rfl⟩ := hc.placed.of_added
      exact h.errors_eq
    | absorbed =>
      obtain ⟨existing, -, -, -, rfl⟩ := hc.placed.of_absorbed
      rw [Catalog.journal_absorb]
      exact h.errors_eq
    | refused =>
      obtain ⟨-, rfl⟩ := hc.placed.of_refused
      exact h.errors_eq
    | replaced =>
      obtain ⟨existing, he, -, rfl⟩ := hc.placed.of_replaced
      -- Both components come from the file of the builder, so their collision is a warning.
      have hsame : (t.get existing).sourceFile = (t.get frame.component).sourceFile := by
        rw [hc.attached.sourceFile_eq, hc.attached.sourceFile_eq, h.named name existing he,
          h.opened frame hframe]
      refine (errors_record_warning _ ?_).trans h.errors_eq
      rw [Catalog.replacement, Catalog.store_withStore, if_pos hsame]
      exact Severity.noConfusion

theorem OneSource.step (h : OneSource b) (hs : Sound b) (op : Op) :
    OneSource (b.step op).state := by
  have he := b.step_effect op
  generalize b.step op = o at he
  have hclose (n : Nat) (hn : n ≤ b.scope.frames.length) : OneSource (closeMany n b).state :=
    hs.kept_closeMany (fun _ hs h hne => h.closeTop hs hne) h hn
  cases he with
  | still ha => exact h.of_agree ha
  | underflow => exact h
  | heldOpen => exact h
  | began name prov he =>
    have hs' := hs.vacate he.toVacated
    exact (h.emptied he).adding hs' (hs'.fits_inner _) he.path_eq.symm
  | opened kind prov shortName withImports => exact h.adding hs (hs.fits_inner _) rfl
  | renamed name => exact h.modify fun _ => rfl
  | joined name _ ht =>
    obtain ⟨below, hf⟩ := frames_of_top? ht
    exact h.adding hs (hs.fits_sibling ht _) (h.opened _ (by simp [hf]))
  | enriched what => exact h.modify (what.enriched b.resolver).sourceFile_eq
  | @closed top _ _ =>
    rw [state_andThen_done]
    exact hclose _ (b.countP_le_length top)
  | ended =>
    rw [state_andThen_done]
    exact hclose _ le_rfl

theorem Sound.path_step (hs : Sound b) (op : Op) : (b.step op).state.path = b.path := by
  have he := b.step_effect op
  generalize b.step op = o at he
  have hclose (n : Nat) (hn : n ≤ b.scope.frames.length) : (closeMany n b).state.path = b.path := by
    refine hs.kept_closeMany (I := fun c => c.path = b.path) (fun c hs h hne => ?_) rfl hn
    obtain ⟨frame, below, hf⟩ := List.exists_cons_of_ne_nil hne
    obtain ⟨name, t, after, placement, hc⟩ := hs.closing hf
    exact hc.path_eq.trans h
  cases he with
  | still ha => exact ha.path_eq
  | began name prov he => exact he.path_eq
  | underflow | heldOpen | opened | renamed | joined | enriched => rfl
  | @closed top _ _ =>
    rw [state_andThen_done]
    exact hclose _ (b.countP_le_length top)
  | ended =>
    rw [state_andThen_done]
    exact hclose _ le_rfl

theorem Sound.fault_closeMany (hs : Sound b) {n : Nat} (hn : n ≤ b.scope.frames.length)
    {fault : Fault} (h : (closeMany n b).result = .error fault) :
    ∃ name path, fault = .nameCollision name path := by
  induction n generalizing b with
  | zero => cases h
  | succ n ih =>
    obtain ⟨frame, below, hf⟩ := List.exists_cons_of_length_pos (Nat.lt_of_lt_of_le n.succ_pos hn)
    obtain ⟨name, t, after, placement, hc⟩ := hs.closing hf
    have hresult := hc.result_eq
    unfold closeMany Outcome.andThen at h
    split at h
    · refine ih (hs.closeTop (by simp [hf])) ?_ h
      rw [hc.scope_eq]
      simpa [hf] using hn
    · rename_i e
      rw [e] at hresult
      cases h
      split at hresult
      · exact ⟨_, _, Except.error.inj hresult⟩
      · cases hresult

theorem result_andThen_done (o : Outcome Builder Unit) {fault : Fault}
    (h : (o.andThen (.ok · Reply.done)).result = .error fault) : o.result = .error fault := by
  obtain ⟨s, result⟩ := o
  cases result with
  | ok => cases h
  | error => exact congrArg Except.error (Except.error.inj h)

theorem Sound.fault_step (hs : Sound b) {fault : Fault} (h : (b.step op).result = .error fault) :
    fault = .scopeUnderflow ∨ (∃ name path, fault = .nameCollision name path) ∨
      op = .endUnit ∧ b.suppressed = true := by
  have he := b.step_effect op
  generalize b.step op = o at he h
  cases he with
  | underflow => exact .inl (Except.error.inj h).symm
  | heldOpen hsup => exact .inr (.inr ⟨rfl, hsup⟩)
  | @closed top _ _ =>
    exact .inr (.inl (hs.fault_closeMany (b.countP_le_length top) (result_andThen_done _ h)))
  | ended => exact .inr (.inl (hs.fault_closeMany le_rfl (result_andThen_done _ h)))
  | _ => cases h

end CodeAtlas.Builder
