import CodeAtlas.Proofs.Builder.Fresh
import CodeAtlas.Proofs.Builder.Owners
import CodeAtlas.Proofs.Catalog.Overlay

/-! # Builders in step

Two builders perform the same operations, one in a catalog of its own and one in a catalog that has
been filled before. Their own components stay the same, and the second catalog stays what it was
with the first one laid over it, until a package is closed.
-/

namespace CodeAtlas

namespace Store

variable {s t : Store} {id other : ComponentId}

theorem get_modify_congr (hs : t.cells.size = s.cells.size) (h : t.get other = s.get other)
    (id : ComponentId) (f : Component → Component) :
    (t.modify id f).get other = (s.modify id f).get other := by
  by_cases e : other = id
  · subst e
    by_cases hi : s.Has other
    · rw [get_modify_self hi, get_modify_self (by rwa [Has, hs]), h]
    · have hi' : ¬ t.Has other := by rwa [Has, hs]
      rw [get_of_not_has (by simpa using hi'), get_of_not_has (by simpa using hi)]
  · rw [get_modify_of_ne e, get_modify_of_ne e, h]

theorem add_snd_congr (hs : t.cells.size = s.cells.size) (c : Component) :
    (t.add c).2 = (s.add c).2 := by
  simp [add, hs]

end Store

namespace Catalog

variable {s : Store} {base o o' c c' : Catalog}

theorem Laid.of_eq (h : Laid s base o c) (hop : o'.policy = o.policy) (hot : o'.table = o.table)
    (hcp : c'.policy = c.policy) (hct : c'.table = c.table)
    (hold : ∀ id, s.Has id → c'.store.get id = c.store.get id)
    (hnew : ∀ id, ¬ s.Has id → c'.store.get id = o'.store.get id) : Laid s base o' c' where
  overlay := by
    rw [hot]
    exact h.overlay.of_eq hcp hct hold
  policy_eq := hop.trans h.policy_eq
  same := hnew

end Catalog

namespace Builder

open Catalog (Holds Laid)

variable {a a' b b' : Builder} {s : Store} {base : Catalog} {frame : Frame} {below : List Frame}
  {c : Component} {k : Nat} {package? : Option ComponentId}

theorem size_attachedStore (s : Store) (id : ComponentId) (name : String)
    (parent : Option ComponentId) :
    (attachedStore s id name parent).cells.size = s.cells.size := by
  cases parent <;> simp [attachedStore, Store.addChild, Store.modify]

theorem attachedStore_congr {t : Store} {other : ComponentId} (hs : t.cells.size = s.cells.size)
    (h : t.get other = s.get other) (id : ComponentId) (name : String)
    (parent : Option ComponentId) :
    (attachedStore t id name parent).get other = (attachedStore s id name parent).get other := by
  have hnamed := Store.get_modify_congr hs h id (·.withName name)
  cases parent with
  | none => exact hnamed
  | some parent =>
    have hsize (u : Store) (i : ComponentId) (f : Component → Component) :
        (u.modify i f).cells.size = u.cells.size := by simp [Store.modify]
    refine Store.get_modify_congr ?_ (Store.get_modify_congr ?_ hnamed _ _) _ _
    all_goals simp only [hsize, hs]

/-- The builders `a` and `b` have come equally far. What is not of the store `s` is the same for
both, and the catalog of `a` is the base catalog with that of `b` laid over it. -/
structure InStep (s : Store) (base : Catalog) (a b : Builder) : Prop where
  scope_eq : a.scope = b.scope
  path_eq : a.path = b.path
  resolver_eq : a.resolver = b.resolver
  suppression_eq : a.suppression = b.suppression
  size_eq : a.store.cells.size = b.store.cells.size
  laid : Laid s base b.catalog a.catalog
  fresh : Fresh s b
  sound : Sound a
  own_sound : Sound b

namespace InStep

theorem has_iff (h : InStep s base a b) {id : ComponentId} : a.store.Has id ↔ b.store.Has id := by
  rw [Store.Has, Store.Has, h.size_eq]

theorem has_old (h : InStep s base a b) {id : ComponentId} (hi : s.Has id) : a.store.Has id :=
  h.has_iff.mpr (h.fresh.kept.has id hi)

theorem get_open (h : InStep s base a b) {f : Frame} (hf : f ∈ b.scope.frames) :
    a.store.get f.component = b.store.get f.component :=
  h.laid.same _ (h.fresh.opened f hf)

theorem suppressed_eq (h : InStep s base a b) : a.suppressed = b.suppressed :=
  congrArg Suppression.active h.suppression_eq

theorem adding (h : InStep s base a b) (hc : c.Blank) (hf : Fits b frame c) :
    InStep s base (a.adding frame c) (b.adding frame c) := by
  have hid := Store.add_snd_congr h.size_eq c
  have hfa : Fits a frame c := by
    refine ⟨?_, ?_, hf.component_eq.trans hid.symm⟩
    · rw [h.scope_eq]
      exact hf.nested
    · rw [h.scope_eq]
      exact hf.slot_eq
  refine ⟨?_, h.path_eq, h.resolver_eq, h.suppression_eq, ?_, ?_, h.fresh.adding hc hf,
    h.sound.adding hc hfa, h.own_sound.adding hc hf⟩
  · simp only [Builder.adding, h.scope_eq]
  · have hsize := h.size_eq
    simp [Store.add, hsize]
  · refine h.laid.of_eq rfl rfl rfl rfl (fun id hi => ?_) fun id hi => ?_
    · exact Store.get_add_of_has (h.has_old hi)
    · have hsame := h.laid.same id hi
      change ((a.store.add c).1.get id) = (b.store.add c).1.get id
      rw [Store.get_add, Store.get_add, hid]
      split
      · rfl
      · exact hsame

theorem modify (h : InStep s base a b) {id : ComponentId} (hi : ¬ s.Has id)
    {f : Component → Component} (hq : ∀ c, (f c).qualifiedName = c.qualifiedName)
    (hp : ∀ c, (f c).parentName = c.parentName) (hc : ∀ c, (f c).children = c.children) :
    InStep s base (a.withStore (a.store.modify id f)) (b.withStore (b.store.modify id f)) := by
  refine ⟨h.scope_eq, h.path_eq, h.resolver_eq, h.suppression_eq, ?_, ?_, h.fresh.modify hi hc,
    h.sound.modify hq hp, h.own_sound.modify hq hp⟩
  · have hsize := h.size_eq
    simp [Store.modify, hsize]
  · refine h.laid.of_eq rfl rfl rfl rfl (fun other ho => ?_) fun other ho => ?_
    · refine Store.get_modify_of_ne ?_
      rintro rfl
      exact hi ho
    · exact Store.get_modify_congr h.size_eq (h.laid.same other ho) id f

theorem name_eq (h : InStep s base a b) (hf : b.scope.frames = frame :: below) :
    Scope.nameIn a.store frame below = Scope.nameIn b.store frame below := by
  refine Scope.nameIn_congr fun f hm => ?_
  rw [h.get_open (hf ▸ hm)]

theorem openParent_eq (h : InStep s base a b) (hf : b.scope.frames = frame :: below)
    (name : String) : a.openParent below name = b.openParent below name := by
  rw [openParent, openParent, h.scope_eq]
  refine if_congr Iff.rfl rfl (Scope.find?_congr (fun f hm => ?_) _)
  rw [h.get_open (hf ▸ List.mem_cons_of_mem _ hm)]

theorem laid_attached (h : InStep s base a b) (hf : b.scope.frames = frame :: below)
    {name : String} {t t' : Store} {after after' : Catalog} {placement placement' : Placement}
    (hca : Closing a frame below name t after placement)
    (hcb : Closing b frame below name t' after' placement') :
    Laid s base (b.catalog.withStore t') (a.catalog.withStore t) := by
  refine h.laid.of_eq rfl rfl rfl rfl (fun id hi => ?_) fun id hi => ?_
  · refine hca.attached.get_eq id ?_ ?_
    · rintro rfl
      exact h.fresh.opened frame (by simp [hf]) hi
    · rw [h.openParent_eq hf]
      intro e
      obtain ⟨f, hm, rfl⟩ := mem_of_openParent e
      exact h.fresh.opened f (hf ▸ List.mem_cons_of_mem _ hm) hi
  · have hsame : a.store.get id = b.store.get id := h.laid.same id hi
    rw [Catalog.store_withStore, Catalog.store_withStore, hca.attachedStore_eq,
      hcb.attachedStore_eq, h.openParent_eq hf]
    exact attachedStore_congr h.size_eq hsame _ _ _

/-- Closing a component that is no package keeps the builders in step. -/
theorem closeTop (h : InStep s base a b) (hb : Holds s base)
    (hf : b.scope.frames = frame :: below) (hk : (b.store.get frame.component).kind ≠ .package)
    (hca : a.closeTop = .ok a' ()) (hcb : b.closeTop = .ok b' ()) : InStep s base a' b' := by
  have hfa : a.scope.frames = frame :: below := by rw [h.scope_eq, hf]
  have hne : b.scope.frames ≠ [] := by simp [hf]
  obtain ⟨name', t, after, placement, hclosing⟩ := h.sound.closing hfa
  obtain ⟨name, t', after', placement', hclosing'⟩ := h.own_sound.closing hf
  obtain rfl : name' = name := by
    rw [← hclosing.name_eq, ← hclosing'.name_eq, h.name_eq hf]
  have hparent := h.openParent_eq hf name'
  have hframe := h.fresh.opened frame (by simp [hf])
  have hlaid : Laid s base after' after := by
    have hplace : Laid s base
        ((b.catalog.withStore t').place name' frame.component (b.openParent below name')).1
        ((a.catalog.withStore t).place name' frame.component (b.openParent below name')).1 := by
      have hattached := h.laid_attached hf hclosing hclosing'
      refine hattached.place hb (fun id hi child hm => ?_) ?_ hframe ?_
      · rcases hclosing'.attached.mem_children hm with hm | ⟨rfl, -⟩
        · exact (h.fresh.own id hi child hm).1
        · exact hframe
      · rw [Catalog.store_withStore, hclosing'.attached.kind_eq]
        exact hk
      · intro p e
        obtain ⟨f, hm, rfl⟩ := mem_of_openParent e
        exact h.fresh.opened f (hf ▸ List.mem_cons_of_mem _ hm)
    rwa [hclosing'.place_eq, ← hparent, hclosing.place_eq] at hplace
  have hfresh := h.fresh.closeTop h.own_sound hne
  have hsound := h.sound.closeTop (by rw [hfa]; exact List.cons_ne_nil _ _)
  have hsound' := h.own_sound.closeTop hne
  obtain rfl : a.closeTop.state = a' := congrArg Outcome.state hca
  obtain rfl : b.closeTop.state = b' := congrArg Outcome.state hcb
  have hsize {a : Builder} {name : String} {t : Store} {after : Catalog} {placement : Placement}
      (hc : Closing a frame below name t after placement) :
      after.store.cells.size = a.store.cells.size := by
    rw [hc.alike.size_eq, hc.attachedStore_eq, size_attachedStore]
  constructor
  · rw [hclosing.scope_eq, hclosing'.scope_eq, h.scope_eq]
  · rw [hclosing.path_eq, hclosing'.path_eq, h.path_eq]
  · rw [hclosing.resolver_eq, hclosing'.resolver_eq, h.resolver_eq]
  · rw [hclosing.suppression_eq, hclosing'.suppression_eq, h.suppression_eq]
  · rw [store, store, hclosing.store_eq, hclosing'.store_eq, hsize hclosing, hsize hclosing',
      h.size_eq]
  · refine hlaid.of_eq hclosing'.policy_eq hclosing'.table_eq hclosing.policy_eq hclosing.table_eq
      (fun id _ => by rw [hclosing.store_eq]) fun id hi => ?_
    rw [hclosing.store_eq, hclosing'.store_eq]
    exact hlaid.same id hi
  · exact hfresh
  · exact hsound
  · exact hsound'

theorem kind_ne_package (hl : Lone package? k b) {f : Frame} (hf : f ∈ b.scope.frames)
    (hk : k ≤ f.group) : (b.store.get f.component).kind ≠ .package := by
  intro hkind
  have hlt := hl.outer f hf (hl.opened f hf hkind)
  omega

theorem closeMany {n : Nat} (h : InStep s base a b) (hb : Holds s base) (hl : Lone package? k b)
    (hn : ∀ f ∈ b.scope.frames.take n, k ≤ f.group) (hca : Builder.closeMany n a = .ok a' ())
    (hcb : Builder.closeMany n b = .ok b' ()) : InStep s base a' b' := by
  induction n generalizing a b with
  | zero =>
    obtain ⟨rfl, -⟩ := Outcome.ok_inj hca
    obtain ⟨rfl, -⟩ := Outcome.ok_inj hcb
    exact h
  | succ n ih =>
    obtain ⟨a₁, _, ha₁, ha₂⟩ := Outcome.eq_ok_of_andThen hca
    obtain ⟨b₁, _, hb₁, hb₂⟩ := Outcome.eq_ok_of_andThen hcb
    cases hf : b.scope.frames with
    | nil =>
      rw [Builder.closeTop, hf] at hb₁
      exact absurd hb₁ Outcome.fail_ne_ok
    | cons frame below =>
      rw [hf, List.take_succ_cons, List.forall_mem_cons] at hn
      have hl₁ := hl.closeTop h.own_sound (by rw [hf]; exact List.cons_ne_nil _ _)
      have hscope := b.frames_closeTop
      rw [hb₁] at hl₁ hscope
      have hk := kind_ne_package hl (f := frame) (by simp [hf]) hn.1
      refine ih (h.closeTop hb hf hk ha₁ hb₁) hl₁ ?_ ha₂ hb₂
      rw [show b₁.scope = _ from hscope, hf]
      exact hn.2

theorem nameDeclarator (h : InStep s base a b) {top : Frame} (ht : b.scope.top? = some top)
    (name : String) : InStep s base (a.nameDeclarator top name) (b.nameDeclarator top name) := by
  obtain ⟨below, hf⟩ := frames_of_top? ht
  have htop : top ∈ b.scope.frames := by simp [hf]
  have hget := h.get_open htop
  cases hn : (b.store.get top.component).hasName with
  | true =>
    have hbeside (c : Component) : a.beside top c = a.adding (b.siblingFrame top c) c := by
      rw [beside, Builder.adding, siblingFrame, Scope.pushBeside, h.scope_eq,
        Store.add_snd_congr h.size_eq]
    rw [nameDeclarator_of_named hn, nameDeclarator_of_named (by rw [hget, hn]), hget, hbeside]
    exact h.adding (blank_sibling _ name) (h.own_sound.fits_sibling ht _)
  | false =>
    rw [nameDeclarator_of_unnamed hn, nameDeclarator_of_unnamed (by rw [hget, hn])]
    exact h.modify (h.fresh.opened top htop) (fun _ => rfl) (fun _ => rfl) fun _ => rfl

theorem push (h : InStep s base a b) (hc : c.Blank) :
    InStep s base (a.push c).1 (b.push c).1 := by
  have hframe : a.innerFrame c = b.innerFrame c := by
    rw [innerFrame, innerFrame, h.scope_eq, Store.add_snd_congr h.size_eq]
  rw [push_eq, push_eq, hframe]
  exact h.adding hc (h.own_sound.fits_inner c)

theorem fresh_eq (h : InStep s base a b) (kind : Kind) (prov : Provenance)
    (shortName : Option String) (withImports : Bool) :
    a.fresh kind prov shortName withImports = b.fresh kind prov shortName withImports := by
  simp only [Builder.fresh, h.resolver_eq, h.path_eq]

theorem of_agree (h : InStep s base a b) (ha : Agree a a') (hb : Agree b b')
    (hr : a'.resolver = b'.resolver) (hs : a'.suppression = b'.suppression) :
    InStep s base a' b' where
  scope_eq := by rw [ha.scope_eq, hb.scope_eq, h.scope_eq]
  path_eq := by rw [ha.path_eq, hb.path_eq, h.path_eq]
  resolver_eq := hr
  suppression_eq := hs
  size_eq := by
    rw [store, store, ha.catalog_eq, hb.catalog_eq]
    exact h.size_eq
  laid := by
    rw [ha.catalog_eq, hb.catalog_eq]
    exact h.laid
  fresh := h.fresh.of_agree hb
  sound := h.sound.of_eq (congrArg Catalog.store ha.catalog_eq)
    (congrArg Catalog.table ha.catalog_eq) ha.scope_eq
  own_sound := h.own_sound.of_eq (congrArg Catalog.store hb.catalog_eq)
    (congrArg Catalog.table hb.catalog_eq) hb.scope_eq

/-- Builders that perform the same operation stay in step, as long as no package is closed. -/
theorem step (h : InStep s base a b) (hb : Holds s base) (hl : Lone package? k b) {op : Op}
    {reply reply' : Reply} (hw : Within k b op) (hsa : a.step op = .ok a' reply)
    (hsb : b.step op = .ok b' reply') : InStep s base a' b' := by
  have htop : a.scope.top? = b.scope.top? := by rw [h.scope_eq]
  have hmuted (hs : b.suppressed = true) (hg : op.Guarded) : InStep s base a' b' := by
    rw [step_guarded (h.suppressed_eq.trans hs) hg] at hsa
    rw [step_guarded hs hg] at hsb
    obtain ⟨rfl, -⟩ := Outcome.ok_inj hsa
    obtain ⟨rfl, -⟩ := Outcome.ok_inj hsb
    exact h
  cases op with
  | beginPackage | endUnit | current | resolve => exact hw.elim
  | addImport name =>
    obtain ⟨rfl, -⟩ := Outcome.ok_inj hsa
    obtain ⟨rfl, -⟩ := Outcome.ok_inj hsb
    exact h.of_agree ⟨rfl, rfl, rfl⟩ ⟨rfl, rfl, rfl⟩ (congrArg (·.addImport name) h.resolver_eq)
      h.suppression_eq
  | enterSuppressed =>
    obtain ⟨rfl, -⟩ := Outcome.ok_inj hsa
    obtain ⟨rfl, -⟩ := Outcome.ok_inj hsb
    exact h.of_agree ⟨rfl, rfl, rfl⟩ ⟨rfl, rfl, rfl⟩ h.resolver_eq
      (congrArg Suppression.enter h.suppression_eq)
  | exitSuppressed =>
    obtain ⟨rfl, -⟩ := Outcome.ok_inj hsa
    obtain ⟨rfl, -⟩ := Outcome.ok_inj hsb
    exact h.of_agree ⟨rfl, rfl, rfl⟩ ⟨rfl, rfl, rfl⟩ h.resolver_eq
      (congrArg Suppression.exit h.suppression_eq)
  | openComponent kind prov shortName withImports =>
    cases hs : b.suppressed with
    | true => exact hmuted hs trivial
    | false =>
      simp only [Builder.step, h.suppressed_eq, hs, h.fresh_eq] at hsa hsb
      obtain ⟨rfl, -⟩ := Outcome.ok_inj hsa
      obtain ⟨rfl, -⟩ := Outcome.ok_inj hsb
      exact h.push (b.blank_fresh kind prov shortName withImports)
  | nameDeclarator name =>
    cases hs : b.suppressed with
    | true => exact hmuted hs trivial
    | false =>
      obtain ⟨top, ht, -⟩ := hw.resolve_left (by simp [hs])
      simp only [Builder.step, h.suppressed_eq, hs, htop, ht] at hsa hsb
      obtain ⟨rfl, -⟩ := Outcome.ok_inj hsa
      obtain ⟨rfl, -⟩ := Outcome.ok_inj hsb
      exact h.nameDeclarator ht name
  | enrich what =>
    cases hs : b.suppressed with
    | true => exact hmuted hs trivial
    | false =>
      cases ht : b.scope.top? with
      | none =>
        simp only [Builder.step, hs, ht] at hsb
        exact absurd hsb Outcome.fail_ne_ok
      | some top =>
        simp only [Builder.step, h.suppressed_eq, hs, htop, ht, h.resolver_eq] at hsa hsb
        obtain ⟨rfl, -⟩ := Outcome.ok_inj hsa
        obtain ⟨rfl, -⟩ := Outcome.ok_inj hsb
        obtain ⟨below, hf⟩ := frames_of_top? ht
        have hw := what.enriched b.resolver
        exact h.modify (h.fresh.opened top (by simp [hf])) hw.qualifiedName_eq hw.parentName_eq
          hw.children_eq
  | close =>
    cases hs : b.suppressed with
    | true => exact hmuted hs trivial
    | false =>
      obtain ⟨top, ht, hk⟩ := hw.resolve_left (by simp [hs])
      simp only [Builder.step, Builder.close, Scope.groupSize?, h.suppressed_eq, hs, h.scope_eq, ht,
        Option.map_some, Bool.false_eq_true, if_false] at hsa hsb
      obtain ⟨a₁, _, ha₁, ha₂⟩ := Outcome.eq_ok_of_andThen hsa
      obtain ⟨b₁, _, hb₁, hb₂⟩ := Outcome.eq_ok_of_andThen hsb
      obtain ⟨rfl, -⟩ := Outcome.ok_inj ha₂
      obtain ⟨rfl, -⟩ := Outcome.ok_inj hb₂
      refine h.closeMany hb hl (fun f hm => ?_) ha₁ hb₁
      rw [h.own_sound.group_of_mem_take ht f hm]
      exact hk

theorem packaged (h : InStep s base a b) (name : String) (prov : Provenance) :
    InStep s base (a.packaged name prov) (b.packaged name prov) := by
  have hin : InStep s base (a.inPackage name) (b.inPackage name) :=
    h.of_agree ⟨rfl, rfl, rfl⟩ ⟨rfl, rfl, rfl⟩ (congrArg (·.enterPackage name) h.resolver_eq)
      h.suppression_eq
  have hpackage : a.package name prov = b.package name prov := by
    simp only [package, h.path_eq]
  rw [Builder.packaged, Builder.packaged, hpackage, ← push_eq, ← push_eq]
  exact hin.push (b.blank_package name prov)

end InStep

theorem Inner.inStep {R : Op → Prop} {ops : List Op} (hi : Inner R k b ops b')
    (h : InStep s base a b) (hb : Holds s base) (hl : Lone package? k b)
    (ha : a.run ops = .ok a' ()) : InStep s base a' b' ∧ Lone package? k b' := by
  induction hi generalizing a with
  | nil =>
    obtain ⟨rfl, -⟩ := Outcome.ok_inj ha
    exact ⟨h, hl⟩
  | cons _ hw hs _ ih =>
    obtain ⟨a₁, reply, ha₁, ha₂⟩ := Outcome.eq_ok_of_andThen ha
    exact ih (h.step hb hl hw ha₁ hs) (hl.advance h.own_sound (hw.advance hs)) ha₂

end Builder

end CodeAtlas
