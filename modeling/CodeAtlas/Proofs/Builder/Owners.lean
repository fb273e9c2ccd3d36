import CodeAtlas.Proofs.Builder.Groups

/-! # Components that list each other

As long as there is one package at most, no children are moved from one component to another. Then
a component is listed at most once by all components taken together, and a component of the catalog
that has a parent's name is listed by some component.
-/

namespace CodeAtlas.Builder

variable {b b' : Builder} {frame : Frame} {below : List Frame} {c : Component} {k : Nat}
  {package? : Option ComponentId}

/-- No component is listed twice, those that are listed are closed and attached, and what is
attached in the catalog is listed. -/
structure Hung (b : Builder) : Prop where
  final : ∀ owner child, child ∈ (b.store.get owner).children →
    ∃ q, (b.store.get child).qualifiedName = some q
  attached : ∀ owner child, child ∈ (b.store.get owner).children →
    ∃ p, (b.store.get child).parentName = some p
  nodup : ∀ owner, (b.store.get owner).children.Nodup
  unique : ∀ owner owner' child, child ∈ (b.store.get owner).children →
    child ∈ (b.store.get owner').children → owner = owner'
  held : ∀ n child p, b.catalog.get? n = some child →
    (b.store.get child).parentName = some p → ∃ owner, child ∈ (b.store.get owner).children

structure Lone (package? : Option ComponentId) (k : Nat) (b : Builder) : Prop where
  has : ∀ id, package? = some id → b.store.Has id
  opened : ∀ f ∈ b.scope.frames, (b.store.get f.component).kind = .package →
    package? = some f.component
  named : ∀ name id, b.catalog.get? name = some id → (b.store.get id).kind = .package →
    package? = some id
  outer : ∀ f ∈ b.scope.frames, package? = some f.component → f.group < k

theorem Hung.has (h : Hung b) {owner child : ComponentId}
    (hm : child ∈ (b.store.get owner).children) : b.store.Has child := by
  by_contra hn
  obtain ⟨q, hq⟩ := h.final owner child hm
  rw [Store.get_of_not_has hn] at hq
  cases hq

theorem Hung.of_eq (h : Hung b) (hg : ∀ n, b'.catalog.get? n = b.catalog.get? n)
    (hq : ∀ id, (b'.store.get id).qualifiedName = (b.store.get id).qualifiedName)
    (hp : ∀ id, (b'.store.get id).parentName = (b.store.get id).parentName)
    (hc : ∀ id, (b'.store.get id).children = (b.store.get id).children) : Hung b' where
  final := by simpa only [hc, hq] using h.final
  attached := by simpa only [hc, hp] using h.attached
  nodup := by simpa only [hc] using h.nodup
  unique := by simpa only [hc] using h.unique
  held := by simpa only [hc, hp, hg] using h.held

theorem Hung.adding (h : Hung b) (hs : Sound b) (hc : c.Blank) : Hung (b.adding frame c) := by
  have hchildren (id : ComponentId) :
      ((b.store.add c).1.get id).children = (b.store.get id).children := by
    rw [Store.get_add]
    split
    · rename_i e
      rw [e, hc.children_eq, Store.get_of_not_has (b.store.not_has_new c)]
      rfl
    · rfl
  constructor
  · intro owner child hm
    rw [store_adding, hchildren] at hm
    rw [store_adding, Store.get_add_of_has (h.has hm)]
    exact h.final owner child hm
  · intro owner child hm
    rw [store_adding, hchildren] at hm
    rw [store_adding, Store.get_add_of_has (h.has hm)]
    exact h.attached owner child hm
  · intro owner
    rw [store_adding, hchildren]
    exact h.nodup owner
  · intro owner owner' child hm hm'
    rw [store_adding, hchildren] at hm hm'
    exact h.unique owner owner' child hm hm'
  · intro n child p hi hp
    rw [store_adding, Store.get_add_of_has (hs.named n child hi).1] at hp
    obtain ⟨owner, hm⟩ := h.held n child p hi hp
    exact ⟨owner, by rwa [store_adding, hchildren]⟩

theorem Lone.not_absorbed (h : Lone package? k b) (hs : Sound b) {name : String} {t : Store}
    {after : Catalog} {placement : Placement}
    (hc : Closing b frame below name t after placement) : placement ≠ .absorbed := by
  rintro rfl
  obtain ⟨existing, he, hk, hk', -⟩ := hc.placed.of_absorbed
  have hframe : frame ∈ b.scope.frames := by simp [hc.frames_eq]
  rw [Catalog.store_withStore, hc.attached.kind_eq] at hk hk'
  have h₁ := h.named name existing he hk
  have h₂ := h.opened frame hframe hk'
  exact hs.ne_open he hframe (Option.some.inj (h₁.symm.trans h₂))

theorem Lone.closeTop (h : Lone package? k b) (hs : Sound b) (hne : b.scope.frames ≠ []) :
    Lone package? k b.closeTop.state := by
  obtain ⟨frame, below, hf⟩ := List.exists_cons_of_ne_nil hne
  obtain ⟨name, t, after, placement, hc⟩ := hs.closing hf
  constructor
  · intro id e
    rw [store, hc.store_eq, hc.alike.has_iff, hc.attached.has_iff]
    exact h.has id e
  · intro f hm hk
    rw [hc.scope_eq] at hm
    rw [store, hc.store_eq, hc.alike.kind_eq, hc.attached.kind_eq] at hk
    exact h.opened f (hf ▸ List.mem_cons_of_mem _ hm) hk
  · intro n id hi hk
    rw [Catalog.get?, hc.table_eq] at hi
    rw [store, hc.store_eq, hc.alike.kind_eq, hc.attached.kind_eq] at hk
    rcases hc.get?_cases hi with hi | ⟨-, rfl⟩
    · exact h.named n id hi hk
    · exact h.opened frame (by simp [hf]) hk
  · intro f hm
    rw [hc.scope_eq] at hm
    exact h.outer f (hf ▸ List.mem_cons_of_mem _ hm)

/-- A child that the catalog has under its name is not struck off. -/
theorem Closing.mem_of_current {name : String} {t : Store} {after : Catalog}
    {placement : Placement} (hc : Closing b frame below name t after placement) (hs : Sound b)
    (hp : placement ≠ .absorbed) {n : String} {owner child : ComponentId}
    (hi : after.get? n = some child) (hm : child ∈ (t.get owner).children) :
    child ∈ (after.store.get owner).children := by
  cases placement with
  | added =>
    obtain ⟨-, rfl⟩ := hc.placed.of_added
    exact hm
  | absorbed => exact absurd rfl hp
  | refused =>
    obtain ⟨-, rfl⟩ := hc.placed.of_refused
    exact hm
  | replaced =>
    obtain ⟨existing, he, -, rfl⟩ := hc.placed.of_replaced
    have hne : child ≠ existing := by
      rintro rfl
      rw [Catalog.get?, Catalog.table_replace, Table.get?_put] at hi
      split at hi
      · exact hs.ne_open he (by simp [hc.frames_eq]) (Option.some.inj hi).symm
      · exact absurd (hs.name_unique hi he) ‹_›
    rw [Catalog.children_replace]
    split
    · exact List.mem_filter.mpr ⟨hm, by simpa using hne⟩
    · exact hm

theorem Hung.attach (h : Hung b) (hs : Sound b) {name : String} {t : Store} {after : Catalog}
    {placement : Placement} (hc : Closing b frame below name t after placement) :
    Hung (b.withStore t) := by
  have hframe : frame ∈ b.scope.frames := by simp [hc.frames_eq]
  have hnew (owner : ComponentId) : frame.component ∉ (b.store.get owner).children := by
    intro hm
    obtain ⟨q, hq⟩ := h.final owner _ hm
    rw [hs.unnamed frame hframe] at hq
    cases hq
  constructor
  · intro owner child hm
    rw [store_withStore, hc.attached.qualifiedName_eq]
    split
    · exact ⟨name, rfl⟩
    · rcases hc.attached.mem_children hm with hm | ⟨e, -⟩
      · exact h.final owner child hm
      · contradiction
  · intro owner child hm
    rw [store_withStore, hc.attached.parentName_eq]
    split
    · exact ⟨_, rfl⟩
    · rename_i hno
      rcases hc.attached.mem_children hm with hm | ⟨e, hp⟩
      · exact h.attached owner child hm
      · exact absurd ⟨e, by simp [hp]⟩ hno
  · exact fun owner => hc.attached.nodup_children (h.nodup owner) (hnew owner)
  · intro owner owner' child hm hm'
    rcases hc.attached.mem_children hm with hm | ⟨e, hp⟩
    · rcases hc.attached.mem_children hm' with hm' | ⟨rfl, -⟩
      · exact h.unique owner owner' child hm hm'
      · exact absurd hm (hnew owner)
    · subst e
      rcases hc.attached.mem_children hm' with hm' | ⟨-, hp'⟩
      · exact absurd hm' (hnew owner')
      · exact Option.some.inj (hp.symm.trans hp')
  · intro n child p hi hp
    have hne := hs.ne_open hi hframe
    rw [store_withStore, hc.attached.parentName_eq, if_neg fun e => hne e.1] at hp
    obtain ⟨owner, hm⟩ := h.held n child p hi hp
    refine ⟨owner, ?_⟩
    rw [store_withStore, hc.attached.children_eq]
    split
    · exact List.mem_append_left _ hm
    · exact hm

theorem Closing.held_top {name : String} {t : Store} {after : Catalog} {placement : Placement}
    (hc : Closing b frame below name t after placement) (hs : Sound b) {p : String}
    (hp : (t.get frame.component).parentName = some p) :
    ∃ owner, frame.component ∈ (t.get owner).children := by
  rw [hc.attached.parentName_eq] at hp
  split at hp
  · rename_i h
    obtain ⟨owner, ho⟩ := Option.isSome_iff_exists.mp h.2
    refine ⟨owner, ?_⟩
    rw [hc.attached.children_eq, if_pos ho]
    simp
  · rw [hs.unattached frame (by simp [hc.frames_eq])] at hp
    cases hp

theorem Hung.closeTop (h : Hung b) (hs : Sound b) (hl : Lone package? k b)
    (hne : b.scope.frames ≠ []) : Hung b.closeTop.state := by
  obtain ⟨frame, below, hf⟩ := List.exists_cons_of_ne_nil hne
  obtain ⟨name, t, after, placement, hc⟩ := hs.closing hf
  have ht := h.attach hs hc
  have hsub (id : ComponentId) :
      (after.store.get id).children.Sublist (t.get id).children :=
    hc.children_sublist (hl.not_absorbed hs hc) id
  have hstore : b.closeTop.state.store = after.store := hc.store_eq
  constructor
  · intro owner child hm
    rw [hstore] at hm ⊢
    rw [hc.alike.qualifiedName_eq]
    exact ht.final owner child ((hsub owner).subset hm)
  · intro owner child hm
    rw [hstore] at hm ⊢
    rw [hc.alike.parentName_eq]
    exact ht.attached owner child ((hsub owner).subset hm)
  · intro owner
    rw [hstore]
    exact (ht.nodup owner).sublist (hsub owner)
  · intro owner owner' child hm hm'
    rw [hstore] at hm hm'
    exact ht.unique owner owner' child ((hsub owner).subset hm) ((hsub owner').subset hm')
  · intro n child p hi hp
    rw [Catalog.get?, hc.table_eq] at hi
    rw [hstore, hc.alike.parentName_eq] at hp
    -- Before placing, the child is listed; placing strikes off only what has lost its name.
    have hheld : ∃ owner, child ∈ (t.get owner).children := by
      rcases hc.get?_cases hi with hi | ⟨-, rfl⟩
      · exact ht.held n child p hi hp
      · exact hc.held_top hs hp
    obtain ⟨owner, hm⟩ := hheld
    refine ⟨owner, ?_⟩
    rw [hstore]
    exact hc.mem_of_current hs (hl.not_absorbed hs hc) hi hm

structure Tree (package? : Option ComponentId) (k : Nat) (b : Builder) : Prop where
  sound : Sound b
  hung : Hung b
  lone : Lone package? k b

theorem Tree.closeTop (h : Tree package? k b) (hne : b.scope.frames ≠ []) :
    Tree package? k b.closeTop.state :=
  ⟨h.sound.closeTop hne, h.hung.closeTop h.sound h.lone hne, h.lone.closeTop h.sound hne⟩

theorem Lone.adding (h : Lone package? k b) (hs : Sound b) (hf : Fits b frame c)
    (hk : c.kind ≠ .package) : Lone package? k (b.adding frame c) := by
  constructor
  · exact fun id e => Store.has_add_iff.mpr (.inl (h.has id e))
  · rw [frames_adding, List.forall_mem_cons, store_adding, hf.component_eq, Store.get_add_new]
    refine ⟨fun hc => absurd hc hk, fun f hm => ?_⟩
    rw [Store.get_add_of_has (hs.has f hm)]
    exact h.opened f hm
  · intro name id hi
    rw [store_adding, Store.get_add_of_has (hs.named name id hi).1]
    exact h.named name id hi
  · rw [frames_adding, List.forall_mem_cons]
    refine ⟨fun e => ?_, h.outer⟩
    rw [hf.component_eq] at e
    exact absurd (h.has _ e) (b.store.not_has_new c)

theorem Lone.modify (h : Lone package? k b) {id : ComponentId} {f : Component → Component}
    (hf : ∀ c, (f c).kind = c.kind) : Lone package? k (b.withStore (b.store.modify id f)) where
  has id e := Store.has_modify_iff.mpr (h.has id e)
  opened g hm hk := h.opened g hm ((Store.field_modify Component.kind hf _).symm.trans hk)
  named name i hi hk := h.named name i hi ((Store.field_modify Component.kind hf _).symm.trans hk)
  outer := h.outer

theorem Lone.of_agree (h : Lone package? k b) (ha : Agree b b') : Lone package? k b' := by
  obtain ⟨h₁, h₂, h₃, h₄⟩ := h
  unfold store at h₁ h₂ h₃
  constructor
  all_goals simp only [store, ha.catalog_eq, ha.scope_eq]
  all_goals assumption

theorem Lone.vacate (h : Lone none k b) (he : Vacated b b') : Lone none k b' where
  has := nofun
  opened := by simp [he.frames_eq]
  named name id hi := by
    unfold Catalog.get? at hi
    rw [he.table_eq] at hi
    rw [store, he.store_eq]
    exact h.named name id hi
  outer := nofun

theorem Lone.package (h : Lone none k b) (hs : Sound b) (hf : b.scope.frames = []) :
    Lone (some (b.store.add c).2) (b.adding (b.innerFrame c) c).scope.pushed
      (b.adding (b.innerFrame c) c) where
  has := by
    rintro _ ⟨⟩
    exact Store.has_add_iff.mpr (.inr rfl)
  opened := by
    rw [frames_adding, hf]
    simp only [List.forall_mem_cons]
    exact ⟨fun _ => rfl, by simp⟩
  named name id hi hk := by
    rw [store_adding, Store.get_add_of_has (hs.named name id hi).1] at hk
    cases h.named name id hi hk
  outer := by
    rw [frames_adding, hf]
    simp only [List.forall_mem_cons]
    exact ⟨fun _ => Nat.lt_succ_self _, by simp⟩

theorem Lone.advance (h : Lone package? k b) (hs : Sound b) (ha : Advance k b b') :
    Lone package? k b' := by
  cases ha with
  | still ha => exact h.of_agree ha
  | inside _ hk => exact h.adding hs (hs.fits_inner _) hk
  | renamed name => exact h.modify fun _ => rfl
  | @beside top c ht hk _ hkind =>
    obtain ⟨below, hf⟩ := frames_of_top? ht
    have htop : top ∈ b.scope.frames := by simp [hf]
    refine h.adding hs (hs.fits_sibling ht _) fun hpackage => ?_
    -- The package is open in an outer group only, so it is not the innermost component.
    have houter := h.outer top htop (h.opened top htop (hkind.symm.trans hpackage))
    omega
  | enriched id hf => exact h.modify hf.kind_eq
  | @closed top _ _ _ hc =>
    have hstate := hs.kept_closeMany (fun _ hs h hne => h.closeTop hs hne) h
      (b.countP_le_length top)
    rwa [hc] at hstate

/-- Operations that stay within groups from `k` on hang up what they close. -/
theorem Tree.step (h : Tree package? k b) {op : Op} {reply : Reply} (hw : Within k b op)
    (hstep : b.step op = .ok b' reply) : Tree package? k b' := by
  have hsound := h.sound.step op
  rw [hstep] at hsound
  have ha := hw.advance hstep
  refine ⟨hsound, ?_, h.lone.advance h.sound ha⟩
  cases ha with
  | still ha =>
    have hstore : b'.store = b.store := congrArg Catalog.store ha.catalog_eq
    refine h.hung.of_eq (fun n => by rw [ha.catalog_eq]) ?_ ?_ ?_
    all_goals exact fun id => by rw [hstore]
  | inside hb => exact h.hung.adding h.sound hb
  | renamed name =>
    refine h.hung.of_eq (fun _ => rfl) ?_ ?_ ?_
    · exact Store.field_modify Component.qualifiedName fun _ => rfl
    · exact Store.field_modify Component.parentName fun _ => rfl
    · exact Store.field_modify Component.children fun _ => rfl
  | beside _ _ hb => exact h.hung.adding h.sound hb
  | enriched id hf =>
    refine h.hung.of_eq (fun _ => rfl) ?_ ?_ ?_
    · exact Store.field_modify Component.qualifiedName hf.qualifiedName_eq
    · exact Store.field_modify Component.parentName hf.parentName_eq
    · exact Store.field_modify Component.children hf.children_eq
  | @closed top _ _ _ hc =>
    have hstate := closeMany_state (fun _ h hne => Tree.closeTop h hne) _ h (b.countP_le_length top)
    rw [hc] at hstate
    exact hstate.hung

end CodeAtlas.Builder
