import CodeAtlas.Proofs.Builder.Closing

/-! # Sound builders

What holds of a builder after any operations: open components are nested, distinct and without a
name, and the catalog has each component under its qualified name. So no component is named twice,
and only a collision can keep a component from being closed.
-/

namespace CodeAtlas

/-- A component before it has been given its place in the tree. -/
structure Component.Blank (c : Component) : Prop where
  qualifiedName_eq : c.qualifiedName = none
  parentName_eq : c.parentName = none
  children_eq : c.children = []

namespace Builder

variable {b b' : Builder} {frame top : Frame} {below : List Frame} {c : Component}

structure Sound (b : Builder) : Prop where
  nested : Scope.Nested b.scope.frames
  slot_lt : ∀ f ∈ b.scope.frames, f.slot < b.scope.pushed
  has : ∀ f ∈ b.scope.frames, b.store.Has f.component
  unnamed : ∀ f ∈ b.scope.frames, (b.store.get f.component).qualifiedName = none
  unattached : ∀ f ∈ b.scope.frames, (b.store.get f.component).parentName = none
  distinct : (b.scope.frames.map Frame.component).Nodup
  named : ∀ name id, b.catalog.get? name = some id →
    b.store.Has id ∧ (b.store.get id).qualifiedName = some name

theorem sound_start (policy : CollisionPolicy) (store : Store) (path : Option String)
    (resolver : Resolver) (suppression : Suppression) :
    Sound ⟨.empty policy store, path, {}, resolver, suppression⟩ where
  nested := .nil
  slot_lt := by simp
  has := by simp
  unnamed := by simp
  unattached := by simp
  distinct := by simp
  named name id h := by simp [Catalog.empty, Catalog.get?, Table.get?, Table.empty] at h

theorem Sound.name_unique (h : Sound b) {m n : String} {id : ComponentId}
    (hm : b.catalog.get? m = some id) (hn : b.catalog.get? n = some id) : m = n :=
  Option.some.inj ((h.named m id hm).2.symm.trans (h.named n id hn).2)

theorem Sound.ne_open (h : Sound b) {n : String} {id : ComponentId}
    (hi : b.catalog.get? n = some id) (hf : frame ∈ b.scope.frames) : id ≠ frame.component := by
  rintro rfl
  have hq := (h.named n _ hi).2
  rw [h.unnamed frame hf] at hq
  cases hq

theorem Sound.of_eq (h : Sound b) (hs : b'.catalog.store = b.catalog.store)
    (ht : b'.catalog.table = b.catalog.table) (hf : b'.scope = b.scope) : Sound b' := by
  obtain ⟨h₁, h₂, h₃, h₄, h₅, h₆, h₇⟩ := h
  unfold store Catalog.get? at *
  constructor
  all_goals simp only [store, Catalog.get?, hs, ht, hf]
  all_goals assumption

theorem Sound.vacate (h : Sound b) (he : Vacated b b') : Sound b' where
  nested := by rw [he.frames_eq]; exact .nil
  slot_lt := by simp [he.frames_eq]
  has := by simp [he.frames_eq]
  unnamed := by simp [he.frames_eq]
  unattached := by simp [he.frames_eq]
  distinct := by simp [he.frames_eq]
  named name id hi := by
    unfold Catalog.get? at hi
    rw [he.table_eq] at hi
    simpa only [store, he.store_eq] using h.named name id hi

def adding (b : Builder) (frame : Frame) (c : Component) : Builder :=
  { b.withStore (b.store.add c).1 with scope := ⟨frame :: b.scope.frames, b.scope.pushed + 1⟩ }

@[simp] theorem store_adding (b : Builder) (frame : Frame) (c : Component) :
    (b.adding frame c).store = (b.store.add c).1 :=
  rfl

@[simp] theorem frames_adding (b : Builder) (frame : Frame) (c : Component) :
    (b.adding frame c).scope.frames = frame :: b.scope.frames :=
  rfl

@[simp] theorem get?_adding (b : Builder) (frame : Frame) (c : Component) (name : String) :
    (b.adding frame c).catalog.get? name = b.catalog.get? name :=
  rfl

def innerFrame (b : Builder) (c : Component) : Frame :=
  ⟨b.scope.pushed, (b.store.add c).2, b.scope.top?.map Frame.slot, b.scope.pushed⟩

def siblingFrame (b : Builder) (top : Frame) (c : Component) : Frame :=
  ⟨b.scope.pushed, (b.store.add c).2, top.parent, top.group⟩

theorem push_eq (b : Builder) (c : Component) : (b.push c).1 = b.adding (b.innerFrame c) c := rfl

def inPackage (b : Builder) (name : String) : Builder :=
  { b with resolver := b.resolver.enterPackage name }

theorem emptied_inPackage (h : b.scope.frames = []) (name : String) :
    Emptied b (b.inPackage name) :=
  ⟨⟨rfl, rfl, rfl, h⟩, rfl, rfl⟩

def packaged (b : Builder) (name : String) (prov : Provenance) : Builder :=
  (b.inPackage name).adding ((b.inPackage name).innerFrame (b.package name prov))
    (b.package name prov)

theorem frames_packaged (h : b.scope.frames = []) (name : String) (prov : Provenance) :
    (b.packaged name prov).scope.frames =
      [(b.inPackage name).innerFrame (b.package name prov)] := by
  rw [packaged, frames_adding, inPackage, h]

theorem step_beginPackage (h : b.scope.frames = []) (name : String) (prov : Provenance) :
    ∃ reply, b.step (.beginPackage name prov) = .ok (b.packaged name prov) reply := by
  have habandon : b.abandonOpen name prov.startLine = b := by simp [abandonOpen, h]
  rw [step, beginPackage, habandon]
  exact ⟨_, rfl⟩

structure Fits (b : Builder) (frame : Frame) (c : Component) : Prop where
  nested : Scope.Nested (frame :: b.scope.frames)
  slot_eq : frame.slot = b.scope.pushed
  component_eq : frame.component = (b.store.add c).2

theorem Sound.fits_inner (h : Sound b) (c : Component) : Fits b (b.innerFrame c) c :=
  ⟨.inside h.nested h.slot_lt rfl rfl, rfl, rfl⟩

theorem Sound.fits_sibling (h : Sound b) (ht : b.scope.top? = some top) (c : Component) :
    Fits b (b.siblingFrame top c) c := by
  obtain ⟨below, hf⟩ := frames_of_top? ht
  have hn := h.nested
  have hs := h.slot_lt
  rw [hf] at hn hs
  exact ⟨by rw [hf]; exact .beside hn hs rfl rfl, rfl, rfl⟩

theorem Sound.not_has_new (c : Component) {f : Frame} (h : Sound b) (hf : f ∈ b.scope.frames) :
    f.component ≠ (b.store.add c).2 :=
  fun e => b.store.not_has_new c (e ▸ h.has f hf)

theorem Sound.adding (h : Sound b) (hc : c.Blank) (hf : Fits b frame c) :
    Sound (b.adding frame c) := by
  -- Every open component but the new one is found in the store as before.
  have old (f : Frame) (hm : f ∈ b.scope.frames) :
      (b.store.add c).1.get f.component = b.store.get f.component :=
    Store.get_add_of_has (h.has f hm)
  have new : (b.store.add c).1.get frame.component = c := by
    rw [hf.component_eq, Store.get_add_new]
  have both {P : Frame → Prop} (hp : P frame) (hq : ∀ f ∈ b.scope.frames, P f) :
      ∀ f ∈ frame :: b.scope.frames, P f := by
    intro f hm
    rcases List.mem_cons.mp hm with rfl | hm
    · exact hp
    · exact hq f hm
  constructor
  · exact hf.nested
  · apply both
    · exact hf.slot_eq ▸ Nat.lt_succ_self _
    · exact fun f hm => Nat.lt_succ_of_lt (h.slot_lt f hm)
  · apply both
    · exact Store.has_add_iff.mpr (.inr hf.component_eq)
    · exact fun f hm => Store.has_add_iff.mpr (.inl (h.has f hm))
  · apply both
    · exact (congrArg Component.qualifiedName new).trans hc.qualifiedName_eq
    · exact fun f hm => old f hm ▸ h.unnamed f hm
  · apply both
    · exact (congrArg Component.parentName new).trans hc.parentName_eq
    · exact fun f hm => old f hm ▸ h.unattached f hm
  · refine List.nodup_cons.mpr ⟨?_, h.distinct⟩
    intro hm
    obtain ⟨f, hm, e⟩ := List.mem_map.mp hm
    exact h.not_has_new c hm (e.trans hf.component_eq)
  · intro name id hi
    obtain ⟨hh, hq⟩ := h.named name id hi
    refine ⟨Store.has_add_iff.mpr (.inl hh), ?_⟩
    exact (congrArg Component.qualifiedName (Store.get_add_of_has hh)).trans hq

theorem Sound.modify (h : Sound b) {id : ComponentId} {f : Component → Component}
    (hq : ∀ c, (f c).qualifiedName = c.qualifiedName)
    (hp : ∀ c, (f c).parentName = c.parentName) : Sound (b.withStore (b.store.modify id f)) where
  nested := h.nested
  slot_lt := h.slot_lt
  has g hg := Store.has_modify_iff.mpr (h.has g hg)
  unnamed g hg := (Store.field_modify Component.qualifiedName hq _).trans (h.unnamed g hg)
  unattached g hg := (Store.field_modify Component.parentName hp _).trans (h.unattached g hg)
  distinct := h.distinct
  named name i hi := by
    obtain ⟨hh, hn⟩ := h.named name i hi
    exact ⟨Store.has_modify_iff.mpr hh, (Store.field_modify Component.qualifiedName hq _).trans hn⟩

/-- How the innermost component of a builder is closed: the store after it has been attached, and
the outcome of placing it in the catalog. -/
structure Closing (b : Builder) (frame : Frame) (below : List Frame) (name : String) (t : Store)
    (after : Catalog) (placement : Placement) : Prop where
  frames_eq : b.scope.frames = frame :: below
  name_eq : Scope.nameIn b.store frame below = name
  attachedStore_eq : t = attachedStore b.store frame.component name (b.openParent below name)
  attached : Attached b.store t frame.component name (b.openParent below name)
  place_eq : (b.catalog.withStore t).place name frame.component (b.openParent below name) =
    (after, placement)
  store_eq : b.closeTop.state.catalog.store = after.store
  table_eq : b.closeTop.state.catalog.table = after.table
  policy_eq : b.closeTop.state.catalog.policy = after.policy
  diagnostics_eq : b.closeTop.state.catalog.journal.diagnostics = after.journal.diagnostics
  scope_eq : b.closeTop.state.scope = ⟨below, b.scope.pushed⟩
  path_eq : b.closeTop.state.path = b.path
  resolver_eq : b.closeTop.state.resolver = b.resolver
  suppression_eq : b.closeTop.state.suppression = b.suppression
  result_eq : b.closeTop.result = if placement = .refused then
    .error (.nameCollision name (b.store.get frame.component).sourceFile) else .ok ()

theorem Sound.closing (h : Sound b) (hf : b.scope.frames = frame :: below) :
    ∃ name t after placement, Closing b frame below name t after placement := by
  have hq := h.unnamed frame (by simp [hf])
  obtain ⟨ht, hc⟩ := closeTop_eq hf h.has hq rfl rfl
  generalize hname : Scope.nameIn b.store frame below = name at ht hc
  generalize hstore : attachedStore b.store _ _ _ = t at ht hc
  rcases hplace : Catalog.place (b.catalog.withStore t) name frame.component
    (b.openParent below name) with ⟨after, placement⟩
  rw [hplace] at hc
  refine ⟨name, t, after, placement, hf, hname, hstore.symm, ht, hplace, ?_, ?_, ?_, ?_, ?_, ?_, ?_,
    ?_, ?_⟩
  all_goals rw [hc]; cases placement <;> rfl

namespace Closing

variable {name : String} {t : Store} {after : Catalog} {placement : Placement}

theorem placed (h : Closing b frame below name t after placement) :
    Catalog.Placed (b.catalog.withStore t) name frame.component (b.openParent below name)
      (after, placement) := by
  rw [← h.place_eq]
  exact Catalog.placed ..

theorem alike (h : Closing b frame below name t after placement) : t.Alike after.store := by
  have hp := Catalog.alike_place (b.catalog.withStore t) name frame.component
    (b.openParent below name)
  rwa [h.place_eq] at hp

theorem eq_added (h : Closing b frame below name t after placement)
    (hn : b.catalog.get? name = none) :
    after = { b.catalog.withStore t with table := b.catalog.table.put name frame.component } := by
  have hp := h.place_eq
  rw [Catalog.place, Catalog.get?_withStore, hn] at hp
  exact (congrArg Prod.fst hp).symm

theorem get?_cases (h : Closing b frame below name t after placement) {n : String}
    {id : ComponentId} (hi : after.get? n = some id) :
    b.catalog.get? n = some id ∨ n = name ∧ id = frame.component := by
  have hp := h.placed
  generalize e : (after, placement) = result at hp
  cases hp with
  | added =>
    cases e
    rw [Catalog.get?_put] at hi
    split at hi
    · exact .inr ⟨‹_›, (Option.some.inj hi).symm⟩
    · exact .inl hi
  | absorbed =>
    cases e
    unfold Catalog.get? at hi
    rw [Catalog.table_absorb] at hi
    exact .inl hi
  | refused => cases e; exact .inl hi
  | replaced =>
    cases e
    unfold Catalog.get? at hi
    rw [Catalog.table_replace, Table.get?_put] at hi
    split at hi
    · exact .inr ⟨‹_›, (Option.some.inj hi).symm⟩
    · exact .inl hi

theorem get?_eq (h : Closing b frame below name t after placement) (ha : placement ≠ .absorbed)
    (hr : placement ≠ .refused) (n : String) :
    after.get? n = if n = name then some frame.component else b.catalog.get? n := by
  cases placement with
  | added =>
    obtain ⟨-, rfl⟩ := h.placed.of_added
    exact Catalog.get?_put ..
  | absorbed => exact absurd rfl ha
  | refused => exact absurd rfl hr
  | replaced =>
    obtain ⟨existing, -, -, rfl⟩ := h.placed.of_replaced
    rw [Catalog.get?, Catalog.table_replace, Table.get?_put]
    rfl

/-- Unless a package is absorbed, placing a component only strikes children off. -/
theorem children_sublist (hc : Closing b frame below name t after placement)
    (hp : placement ≠ .absorbed) (id : ComponentId) :
    (after.store.get id).children.Sublist (t.get id).children := by
  cases placement with
  | added =>
    obtain ⟨-, rfl⟩ := hc.placed.of_added
    exact .refl _
  | absorbed => exact absurd rfl hp
  | refused =>
    obtain ⟨-, rfl⟩ := hc.placed.of_refused
    exact .refl _
  | replaced =>
    obtain ⟨existing, -, -, rfl⟩ := hc.placed.of_replaced
    rw [Catalog.children_replace]
    split
    · exact List.filter_sublist
    · exact .refl _

/-- A child after a component has been placed was listed when it had been attached, by the same
component or by a package that was absorbed. -/
theorem mem_children (hc : Closing b frame below name t after placement) (hs : Sound b)
    {id child : ComponentId} (hm : child ∈ (after.store.get id).children) :
    child ∈ (t.get id).children ∨ child ∈ (t.get frame.component).children ∧
      b.catalog.get? name = some id := by
  by_cases hp : placement = .absorbed
  · subst hp
    obtain ⟨existing, he, -, -, rfl⟩ := hc.placed.of_absorbed
    have hne : existing ≠ frame.component := hs.ne_open he (by simp [hc.frames_eq])
    have hhas : t.Has existing := (hc.attached.has_iff existing).mpr (hs.named name existing he).1
    rw [Catalog.children_absorb hhas hne] at hm
    split at hm
    · rename_i e
      subst e
      exact (List.mem_append.mp (List.mem_of_mem_filter hm)).imp_right (⟨·, he⟩)
    · exact .inl hm
  · exact .inl ((hc.children_sublist hp id).subset hm)

end Closing

theorem Sound.closeTop (h : Sound b) (hne : b.scope.frames ≠ []) : Sound b.closeTop.state := by
  obtain ⟨frame, below, hf⟩ := List.exists_cons_of_ne_nil hne
  obtain ⟨name, t, after, placement, hc⟩ := h.closing hf
  have ha := hc.attached
  have hl := hc.alike
  obtain ⟨h₁, h₂, h₃, h₄, h₅, h₆, h₇⟩ := h
  rw [hf] at h₁ h₂ h₃ h₄ h₅ h₆
  have hid (f : Frame) (hm : f ∈ below) : f.component ≠ frame.component := by
    intro e
    exact (List.nodup_cons.mp h₆).1 (e ▸ List.mem_map_of_mem hm)
  constructor
  · rw [hc.scope_eq]
    exact h₁.tail
  · rw [hc.scope_eq]
    exact fun f hm => h₂ f (List.mem_cons_of_mem _ hm)
  · rw [hc.scope_eq]
    intro f hm
    rw [store, hc.store_eq, hl.has_iff, ha.has_iff]
    exact h₃ f (List.mem_cons_of_mem _ hm)
  · rw [hc.scope_eq]
    intro f hm
    rw [store, hc.store_eq, hl.qualifiedName_eq, ha.qualifiedName_eq, if_neg (hid f hm)]
    exact h₄ f (List.mem_cons_of_mem _ hm)
  · rw [hc.scope_eq]
    intro f hm
    rw [store, hc.store_eq, hl.parentName_eq, ha.parentName_eq, if_neg fun e => hid f hm e.1]
    exact h₅ f (List.mem_cons_of_mem _ hm)
  · rw [hc.scope_eq]
    exact (List.nodup_cons.mp h₆).2
  · intro n id hi
    rw [Catalog.get?, hc.table_eq] at hi
    rw [store, hc.store_eq, hl.has_iff, ha.has_iff, hl.qualifiedName_eq, ha.qualifiedName_eq]
    rcases hc.get?_cases hi with hi | ⟨rfl, rfl⟩
    · obtain ⟨hh, hq⟩ := h₇ n id hi
      refine ⟨hh, ?_⟩
      split
      · rename_i e
        have hx := h₄ frame List.mem_cons_self
        rw [← e, hq] at hx
        cases hx
      · exact hq
    · exact ⟨h₃ frame List.mem_cons_self, if_pos rfl⟩

theorem Closing.ne_refused {name : String} {t : Store} {after : Catalog} {placement : Placement}
    (hc : Closing b frame below name t after placement)
    (hp : b.catalog.policy = .lastWriteWins) : placement ≠ .refused := by
  rintro rfl
  have herror : b.catalog.policy = .error := hc.placed.of_refused.1
  cases hp.symm.trans herror

theorem policy_closeTop (hs : Sound b) (hne : b.scope.frames ≠ []) :
    b.closeTop.state.catalog.policy = b.catalog.policy := by
  obtain ⟨frame, below, hf⟩ := List.exists_cons_of_ne_nil hne
  obtain ⟨name, t, after, placement, hc⟩ := hs.closing hf
  rw [hc.policy_eq]
  have hp := hc.placed
  generalize e : (after, placement) = result at hp
  cases hp with
  | added => cases e; rfl
  | absorbed => cases e; exact Catalog.policy_absorb
  | refused => cases e; rfl
  | replaced => cases e; exact Catalog.policy_replace

theorem blank_package (b : Builder) (name : String) (prov : Provenance) :
    (b.package name prov).Blank :=
  ⟨rfl, rfl, rfl⟩

theorem blank_fresh (b : Builder) (kind : Kind) (prov : Provenance) (shortName : Option String)
    (withImports : Bool) : (b.fresh kind prov shortName withImports).Blank :=
  ⟨rfl, rfl, rfl⟩

theorem blank_sibling (c : Component) (name : String) :
    { c.sibling with shortName := some name }.Blank :=
  ⟨rfl, rfl, rfl⟩

end Builder

structure Component.Enriched (f : Component → Component) : Prop where
  kind_eq : ∀ c, (f c).kind = c.kind
  shortName_eq : ∀ c, (f c).shortName = c.shortName
  qualifiedName_eq : ∀ c, (f c).qualifiedName = c.qualifiedName
  parentName_eq : ∀ c, (f c).parentName = c.parentName
  sourceFile_eq : ∀ c, (f c).sourceFile = c.sourceFile
  children_eq : ∀ c, (f c).children = c.children

theorem Enrichment.enriched (r : Resolver) (what : Enrichment) :
    Component.Enriched (what.apply r) := by
  cases what with
  | typeSnippet code =>
    constructor
    all_goals intro c; unfold apply Component.withTypeSnippet; dsimp only; split <;> rfl
  | _ => exact ⟨fun _ => rfl, fun _ => rfl, fun _ => rfl, fun _ => rfl, fun _ => rfl, fun _ => rfl⟩

namespace Builder

variable {b b' : Builder}

theorem countP_le_length (b : Builder) (top : Frame) :
    b.scope.frames.countP (·.group == top.group) ≤ b.scope.frames.length :=
  List.countP_le_length

theorem Sound.group_of_mem_take (hs : Sound b) {top : Frame} (ht : b.scope.top? = some top) :
    ∀ f ∈ b.scope.frames.take (b.scope.frames.countP (·.group == top.group)),
      f.group = top.group := by
  obtain ⟨below, hf⟩ := frames_of_top? ht
  have hn := hs.nested
  rw [hf] at hn ⊢
  exact hn.group_of_mem_take (List.forall_mem_cons.mpr ⟨le_rfl, hn.group_le_top⟩)

theorem state_andThen_done (o : Outcome Builder Unit) :
    (o.andThen (.ok · Reply.done)).state = o.state := by
  obtain ⟨s, result⟩ := o
  cases result <;> rfl

theorem Sound.kept_closeMany {I : Builder → Prop}
    (step : ∀ b, Sound b → I b → b.scope.frames ≠ [] → I b.closeTop.state) (hs : Sound b) (h : I b)
    {n : Nat} (hn : n ≤ b.scope.frames.length) : I (closeMany n b).state :=
  (closeMany_state (I := fun b => Sound b ∧ I b)
    (fun b h hne => ⟨h.1.closeTop hne, step b h.1 h.2 hne⟩) n ⟨hs, h⟩ hn).2

theorem Sound.step (h : Sound b) (op : Op) : Sound (b.step op).state := by
  have he := b.step_effect op
  generalize b.step op = o at he
  cases he with
  | still ha =>
    exact h.of_eq (congrArg Catalog.store ha.catalog_eq) (congrArg Catalog.table ha.catalog_eq)
      ha.scope_eq
  | underflow => exact h
  | heldOpen => exact h
  | began name prov he =>
    have h' := h.vacate he.toVacated
    exact h'.adding (b.blank_package name prov) (h'.fits_inner _)
  | opened kind prov shortName withImports =>
    exact h.adding (b.blank_fresh kind prov shortName withImports) (h.fits_inner _)
  | renamed name => exact h.modify (fun _ => rfl) (fun _ => rfl)
  | joined name _ ht => exact h.adding (blank_sibling _ name) (h.fits_sibling ht _)
  | enriched what =>
    have hw := what.enriched b.resolver
    exact h.modify hw.qualifiedName_eq hw.parentName_eq
  | @closed top _ _ =>
    rw [state_andThen_done]
    exact closeMany_state (fun _ h hne => h.closeTop hne) _ h (b.countP_le_length top)
  | ended =>
    rw [state_andThen_done]
    exact closeMany_state (fun _ h hne => h.closeTop hne) _ h le_rfl

theorem run_append (b : Builder) (first second : List Op) :
    b.run (first ++ second) = (b.run first).andThen (run · second) := by
  induction first generalizing b with
  | nil => rfl
  | cons op rest ih =>
    rw [List.cons_append, run, run, Outcome.andThen_assoc]
    simp only [ih]

theorem run_state {I : Builder → Prop} {ops : List Op}
    (step : ∀ b, ∀ op ∈ ops, I b → I (b.step op).state) (h : I b) : I (b.run ops).state := by
  induction ops generalizing b with
  | nil => exact h
  | cons op rest ih =>
    have h' := step b op List.mem_cons_self h
    unfold run Outcome.andThen
    split
    · exact ih (fun b op hm => step b op (List.mem_cons_of_mem _ hm)) h'
    · exact h'

theorem Sound.run (hs : b.Sound) {ops : List Op} (h : b.run ops = .ok b' ()) : b'.Sound := by
  have hr : (b.run ops).state.Sound := run_state (fun _ op _ h => h.step op) hs
  rwa [h] at hr

/-- Builders one after the other on a catalog that was empty at first, and what their operations
left, whether they failed or not. -/
inductive Reachable (policy : CollisionPolicy) : Builder → Prop
  | start (path : Option String) (mode : Suppression.Mode) (builtin : List (String × String)) :
      Reachable policy (.start (.empty policy {}) path mode builtin)
  | step {b : Builder} (op : Op) : Reachable policy b → Reachable policy (b.step op).state
  | handOver {b : Builder} (path : Option String) (mode : Suppression.Mode)
      (builtin : List (String × String)) : Reachable policy b →
      Reachable policy (.start b.catalog path mode builtin)

theorem Reachable.sound {policy : CollisionPolicy} (h : Reachable policy b) : Sound b := by
  induction h with
  | start => exact sound_start ..
  | step op _ ih => exact ih.step op
  | handOver _ _ _ _ ih => exact ih.vacate ⟨rfl, rfl, rfl, rfl⟩

end Builder

end CodeAtlas
