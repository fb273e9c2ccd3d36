import CodeAtlas.Proofs.Builder.Owners

/-! # What becomes of opened components

A component that has been opened is open still, or it has been closed and then has either taken a
name of the catalog or replaced a component with a report of the collision. As long as no package
is absorbed, the numbers add up.
-/

namespace CodeAtlas

def Catalog.collisions (catalog : Catalog) : Nat :=
  (catalog.journal.diagnostics.ofKind .nameCollision).length

namespace Diagnostics

theorem ofKind_record_perm (ds : Diagnostics) (d : Diagnostic) :
    ((ds.record d).ofKind d.kind).Perm (d :: ds.ofKind d.kind) := by
  unfold record ofKind
  split
  · simp only [List.filter_append, List.filter_cons, decide_true, if_true, List.append_assoc,
      List.singleton_append]
    exact List.perm_middle
  · simp only [List.filter_append, List.filter_cons, decide_true, if_true, List.filter_nil,
      ← List.append_assoc]
    exact List.perm_append_singleton ..

theorem length_ofKind_record (ds : Diagnostics) (d : Diagnostic) :
    ((ds.record d).ofKind d.kind).length = (ds.ofKind d.kind).length + 1 :=
  (ds.ofKind_record_perm d).length_eq

end Diagnostics

namespace Builder

variable {b b' : Builder} {frame : Frame} {below : List Frame} {k : Nat}
  {package? : Option ComponentId} {R : Op → Prop} {ops : List Op} {c : Component}

/-- All components that have been opened are accounted for. -/
def Tallied (b : Builder) : Prop :=
  b.catalog.size + b.catalog.collisions + b.scope.frames.length = b.scope.pushed

theorem Closing.size_add_collisions {name : String} {t : Store} {after : Catalog}
    {placement : Placement} (hc : Closing b frame below name t after placement)
    (ha : placement ≠ .absorbed) (hr : placement ≠ .refused) :
    after.size + after.collisions = b.catalog.size + b.catalog.collisions + 1 := by
  cases placement with
  | added =>
    obtain ⟨hg, rfl⟩ := hc.placed.of_added
    have hsize : (b.catalog.table.put name frame.component).size = b.catalog.table.size + 1 :=
      Table.size_put_of_none hg
    change (b.catalog.table.put name frame.component).size + b.catalog.collisions =
      b.catalog.table.size + b.catalog.collisions + 1
    omega
  | absorbed => exact absurd rfl ha
  | refused => exact absurd rfl hr
  | replaced =>
    obtain ⟨existing, hg, -, rfl⟩ := hc.placed.of_replaced
    have hsize : (b.catalog.table.put name frame.component).size = b.catalog.table.size :=
      Table.size_put_of_some hg
    have hcollisions := b.catalog.journal.diagnostics.length_ofKind_record
      (Catalog.replacement name (t.get existing) (t.get frame.component))
    change (b.catalog.table.put name frame.component).size + _ =
      b.catalog.table.size + b.catalog.collisions + 1
    rw [hsize]
    exact (congrArg (b.catalog.table.size + ·) hcollisions).trans (Nat.add_assoc ..).symm

theorem Tallied.closeTop (h : Tallied b) (hs : Sound b) (hl : Lone package? k b)
    (hf : b.scope.frames = frame :: below) (hc : b.closeTop = .ok b' ()) : Tallied b' := by
  obtain ⟨name, t, after, placement, hclosing⟩ := hs.closing hf
  have hresult := hclosing.result_eq
  have hsize := hclosing.table_eq
  have hdiagnostics := hclosing.diagnostics_eq
  have hscope := hclosing.scope_eq
  rw [hc] at hresult hsize hdiagnostics hscope
  have hrefused : placement ≠ .refused := by
    rintro rfl
    cases hresult
  have htally := hclosing.size_add_collisions (hl.not_absorbed hs hclosing) hrefused
  unfold Tallied at h ⊢
  rw [hf, List.length_cons] at h
  change b'.catalog.table.size + (b'.catalog.journal.diagnostics.ofKind _).length +
    b'.scope.frames.length = b'.scope.pushed
  rw [show b'.catalog.table = _ from hsize, show b'.catalog.journal.diagnostics = _ from
    hdiagnostics, show b'.scope = _ from hscope]
  change after.size + after.collisions + below.length = b.scope.pushed
  omega

theorem Tallied.adding (h : Tallied b) (frame : Frame) (c : Component) :
    Tallied (b.adding frame c) := by
  change b.catalog.size + b.catalog.collisions + (b.scope.frames.length + 1) = b.scope.pushed + 1
  rw [← Nat.add_assoc, h]

/-- Operations that stay within groups from `k` on lose no component. -/
theorem Tallied.advance (h : Tallied b) (hs : Sound b) (hl : Lone package? k b)
    (ha : Advance k b b') : Tallied b' := by
  cases ha with
  | still ha =>
    unfold Tallied
    rw [ha.catalog_eq, ha.scope_eq]
    exact h
  | inside => exact h.adding _ _
  | renamed | enriched => exact h
  | beside => exact h.adding _ _
  | closed _ _ hc =>
    have hkept := closeMany_keeps
      (I := fun b => Sound b ∧ Lone package? k b ∧ Tallied b) (P := fun _ => True)
      (fun b b' frame below ⟨hs, hl, ht⟩ hf _ hc => by
        have hne : b.scope.frames ≠ [] := by simp [hf]
        have hs' := hs.closeTop hne
        have hl' := hl.closeTop hs hne
        rw [hc] at hs' hl'
        exact ⟨hs', hl', ht.closeTop hs hl hf hc⟩)
      ⟨hs, hl, h⟩ (fun _ _ => trivial) hc
    exact hkept.2.2

structure Outside (k : Nat) (id : ComponentId) (b : Builder) : Prop where
  has : b.store.Has id
  group_lt : ∀ f ∈ b.scope.frames, f.component = id → f.group < k

theorem Outside.adding {id : ComponentId} (h : Outside k id b) (hf : Fits b frame c) :
    Outside k id (b.adding frame c) where
  has := Store.has_add_iff.mpr (.inl h.has)
  group_lt := by
    rw [frames_adding, List.forall_mem_cons]
    refine ⟨fun e => ?_, h.group_lt⟩
    obtain rfl := hf.component_eq.symm.trans e
    exact absurd h.has (b.store.not_has_new c)

theorem Outside.advance {id : ComponentId} (h : Outside k id b) (hs : Sound b)
    (ha : Advance k b b') :
    Outside k id b' ∧ (b'.store.get id).shortName = (b.store.get id).shortName := by
  have hadd {frame : Frame} {c : Component} (hf : Fits b frame c) :
      Outside k id (b.adding frame c) ∧
        ((b.adding frame c).store.get id).shortName = (b.store.get id).shortName :=
    ⟨h.adding hf, congrArg Component.shortName (Store.get_add_of_has h.has)⟩
  cases ha with
  | still ha =>
    have hstore : b'.store = b.store := congrArg Catalog.store ha.catalog_eq
    refine ⟨⟨hstore ▸ h.has, ?_⟩, by rw [hstore]⟩
    rw [ha.scope_eq]
    exact h.group_lt
  | inside => exact hadd (hs.fits_inner _)
  | renamed name ht hk =>
    obtain ⟨below, hf⟩ := frames_of_top? ht
    refine ⟨⟨Store.has_modify_iff.mpr h.has, h.group_lt⟩, ?_⟩
    rw [store_withStore, Store.get_modify_of_ne]
    rintro rfl
    exact absurd (h.group_lt _ (by simp [hf]) rfl) (by omega)
  | beside ht => exact hadd (hs.fits_sibling ht _)
  | enriched _ hf =>
    exact ⟨⟨Store.has_modify_iff.mpr h.has, h.group_lt⟩, Store.field_modify _ hf.shortName_eq id⟩
  | closed ht hk hc =>
    have hkept := closeMany_keeps
      (I := fun b' => Sound b' ∧ Outside k id b' ∧
        (b'.store.get id).shortName = (b.store.get id).shortName) (P := fun f => k ≤ f.group)
      (fun b₁ b₂ frame below ⟨hs, ho, hn⟩ hf hk hc => by
        obtain ⟨name, t, after, placement, hclosing⟩ := hs.closing hf
        have hs' := hs.closeTop (by simp [hf])
        have hstore := hclosing.store_eq
        have hscope := hclosing.scope_eq
        rw [hc] at hs' hstore hscope
        have hstore : b₂.store = after.store := hstore
        have hne : id ≠ frame.component := by
          rintro rfl
          exact absurd (ho.group_lt frame (by simp [hf]) rfl) (by omega)
        refine ⟨hs', ⟨?_, ?_⟩, ?_⟩
        · rw [hstore, hclosing.alike.has_iff, hclosing.attached.has_iff]
          exact ho.has
        · rw [show b₂.scope = _ from hscope]
          exact fun f hm => ho.group_lt f (hf ▸ List.mem_cons_of_mem _ hm)
        · rw [hstore, hclosing.alike.shortName_eq, hclosing.attached.shortName_eq, if_neg hne, hn])
      ⟨hs, h, rfl⟩ (fun f hm => (hs.group_of_mem_take ht f hm).symm ▸ hk) hc
    exact hkept.2

theorem Inner.shortName_eq {id : ComponentId} (h : Inner R k b ops b') (hs : Sound b)
    (ho : Outside k id b) : (b'.store.get id).shortName = (b.store.get id).shortName := by
  refine (h.keeps (I := fun b' => Sound b' ∧ Outside k id b' ∧
    (b'.store.get id).shortName = (b.store.get id).shortName) ?_ ⟨hs, ho, rfl⟩).2.2
  rintro b₁ b₂ op reply - hw hstep ⟨hs₁, ho₁, hn₁⟩
  have hs₂ := hs₁.step op
  rw [hstep] at hs₂
  obtain ⟨ho₂, hn₂⟩ := ho₁.advance hs₁ (hw.advance hstep)
  exact ⟨hs₂, ho₂, hn₂.trans hn₁⟩

theorem Inner.tallied (h : Inner R k b ops b') (hs : Sound b) (hl : Lone package? k b)
    (ht : Tallied b) : Lone package? k b' ∧ Tallied b' := by
  refine (h.keeps (I := fun b => Sound b ∧ Lone package? k b ∧ Tallied b) ?_ ⟨hs, hl, ht⟩).2
  rintro b₁ b₂ op reply - hw hstep ⟨hs₁, hl₁, ht₁⟩
  have hs₂ := hs₁.step op
  rw [hstep] at hs₂
  have ha := hw.advance hstep
  exact ⟨hs₂, hl₁.advance hs₁ ha, ht₁.advance hs₁ hl₁ ha⟩

end Builder

end CodeAtlas
