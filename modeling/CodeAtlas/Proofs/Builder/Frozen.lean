import CodeAtlas.Proofs.Builder.Histories

/-! # Components once they are complete

An operation changes open components only. A component that has been completed keeps all that it is
but for its children: it may lose children that have lost their place in the catalog, and a package
may take in the children of another one of its name.
-/

namespace CodeAtlas

theorem Store.has_of_isFinal {store : Store} {id : ComponentId}
    (h : (store.get id).isFinal = true) : store.Has id := by
  by_contra hn
  rw [get_of_not_has hn] at h
  cases h

theorem Component.isFinal_congr {c c' : Component} (h : c'.qualifiedName = c.qualifiedName) :
    c'.isFinal = c.isFinal := by
  rw [isFinal, isFinal, h]

namespace Catalog

theorem isCurrent_congr {c c' : Catalog} {id : ComponentId} (ht : c'.table = c.table)
    (hq : (c'.store.get id).qualifiedName = (c.store.get id).qualifiedName) :
    c'.isCurrent id = c.isCurrent id := by
  rw [isCurrent, isCurrent, get?, get?, ht, hq]

end Catalog

namespace Builder

variable {b b₁ b' : Builder} {frame : Frame} {below : List Frame} {c : Component}
  {id owner child : ComponentId} {name : String} {t : Store} {after : Catalog}
  {placement : Placement} {policy : CollisionPolicy}

def ListsFinal (b : Builder) : Prop :=
  ∀ owner child, child ∈ (b.store.get owner).children → (b.store.get child).isFinal = true

theorem Sound.not_final (h : Sound b) (hf : frame ∈ b.scope.frames) :
    (b.store.get frame.component).isFinal = false := by
  rw [Component.isFinal, h.unnamed frame hf]
  rfl

theorem Sound.ne_of_final (h : Sound b) (hi : (b.store.get id).isFinal = true)
    (hf : frame ∈ b.scope.frames) : id ≠ frame.component := by
  rintro rfl
  rw [h.not_final hf] at hi
  cases hi

theorem ListsFinal.of_eq (h : ListsFinal b)
    (hq : ∀ id, (b'.store.get id).qualifiedName = (b.store.get id).qualifiedName)
    (hc : ∀ id, (b'.store.get id).children = (b.store.get id).children) : ListsFinal b' := by
  intro owner child hm
  rw [hc] at hm
  rw [Component.isFinal_congr (hq child)]
  exact h owner child hm

theorem ListsFinal.adding (h : ListsFinal b) (hc : c.Blank) : ListsFinal (b.adding frame c) := by
  intro owner child hm
  rw [store_adding, Store.get_add] at hm
  split at hm
  · rw [hc.children_eq] at hm
    cases hm
  · have hfinal := h owner child hm
    rwa [store_adding, Store.get_add_of_has (Store.has_of_isFinal hfinal)]

theorem Closing.isFinal_eq (hc : Closing b frame below name t after placement)
    (id : ComponentId) : (after.store.get id).isFinal =
      (decide (id = frame.component) || (b.store.get id).isFinal) := by
  rw [Component.isFinal, hc.alike.qualifiedName_eq, hc.attached.qualifiedName_eq]
  by_cases e : id = frame.component <;> simp [e, Component.isFinal]

theorem ListsFinal.closeTop (h : ListsFinal b) (hs : Sound b) (hne : b.scope.frames ≠ []) :
    ListsFinal b.closeTop.state := by
  obtain ⟨frame, below, hf⟩ := List.exists_cons_of_ne_nil hne
  obtain ⟨name, t, after, placement, hc⟩ := hs.closing hf
  have ht (owner child : ComponentId) (hm : child ∈ (t.get owner).children) :
      (after.store.get child).isFinal = true := by
    rw [hc.isFinal_eq]
    rcases hc.attached.mem_children hm with hm | ⟨rfl, -⟩
    · simp [h owner child hm]
    · simp
  intro owner child hm
  rw [store, hc.store_eq] at hm ⊢
  rcases hc.mem_children hs hm with hm | ⟨hm, -⟩
  · exact ht owner child hm
  · exact ht _ child hm

theorem ListsFinal.step (h : ListsFinal b) (hs : Sound b) (op : Op) :
    ListsFinal (b.step op).state := by
  have he := b.step_effect op
  generalize b.step op = o at he
  have hclose (n : Nat) (hn : n ≤ b.scope.frames.length) : ListsFinal (closeMany n b).state :=
    hs.kept_closeMany (fun _ hs h hne => h.closeTop hs hne) h hn
  have hmodify (id : ComponentId) {f : Component → Component}
      (hq : ∀ c, (f c).qualifiedName = c.qualifiedName) (hc : ∀ c, (f c).children = c.children) :
      ListsFinal (b.withStore (b.store.modify id f)) :=
    h.of_eq (Store.field_modify Component.qualifiedName hq)
      (Store.field_modify Component.children hc)
  have hstore {b' : Builder} (e : b'.catalog.store = b.catalog.store) : ListsFinal b' :=
    h.of_eq (fun id => by rw [store, e, store]) fun id => by rw [store, e, store]
  cases he with
  | still ha => exact hstore (congrArg Catalog.store ha.catalog_eq)
  | underflow | heldOpen => exact h
  | began name prov he => exact (hstore he.store_eq).adding (b.blank_package name prov)
  | opened kind prov shortName withImports =>
    exact h.adding (b.blank_fresh kind prov shortName withImports)
  | @renamed name top => exact hmodify top.component (fun _ => rfl) fun _ => rfl
  | joined name => exact h.adding (blank_sibling _ name)
  | @enriched what top =>
    have hw := what.enriched b.resolver
    exact hmodify top.component hw.qualifiedName_eq hw.children_eq
  | @closed top =>
    rw [state_andThen_done]
    exact hclose _ (b.countP_le_length top)
  | ended =>
    rw [state_andThen_done]
    exact hclose _ le_rfl

theorem Reachable.listsFinal (h : Reachable policy b) : ListsFinal b := by
  induction h with
  | start =>
    intro owner child hm
    rw [Builder.start, store, Catalog.empty, Store.get_of_not_has (by simp [Store.Has])] at hm
    cases hm
  | step op hb ih => exact ih.step hb.sound op
  | handOver _ _ _ _ ih => exact ih

/-- The component is as it was but for its children. It has lost none that the catalog still has
under its name, and has got no others than those that it is said to have gained. -/
structure Frozen (b b' : Builder) (id : ComponentId) (gained : List ComponentId) : Prop where
  bare_eq : (b'.store.get id).bare = (b.store.get id).bare
  kept : ((b.store.get id).children.filter b'.catalog.isCurrent).Sublist
    (b'.store.get id).children
  sublist : (b'.store.get id).children.Sublist ((b.store.get id).children ++ gained)

theorem frozen_of_get_eq (h : b'.store.get id = b.store.get id) : Frozen b b' id [] where
  bare_eq := by rw [h]
  kept := by
    rw [h]
    exact List.filter_sublist
  sublist := by rw [h, List.append_nil]

structure Later (b b' : Builder) : Prop where
  qualifiedName_eq : ∀ id, (b.store.get id).isFinal = true →
    (b'.store.get id).qualifiedName = (b.store.get id).qualifiedName
  get?_of : ∀ id name, (b.store.get id).isFinal = true → b'.catalog.get? name = some id →
    b.catalog.get? name = some id

theorem Later.refl (b : Builder) : Later b b := ⟨fun _ _ => rfl, fun _ _ _ => id⟩

theorem Later.isFinal (h : Later b b') (hi : (b.store.get id).isFinal = true) :
    (b'.store.get id).isFinal = true := by
  rw [Component.isFinal_congr (h.qualifiedName_eq id hi), hi]

theorem Later.trans (h : Later b b₁) (h' : Later b₁ b') : Later b b' where
  qualifiedName_eq id hi := (h'.qualifiedName_eq id (h.isFinal hi)).trans (h.qualifiedName_eq id hi)
  get?_of id name hi hg := h.get?_of id name hi (h'.get?_of id name (h.isFinal hi) hg)

theorem Later.isCurrent (h : Later b b') (hi : (b.store.get id).isFinal = true)
    (hc : b'.catalog.isCurrent id = true) : b.catalog.isCurrent id = true := by
  obtain ⟨q, hq⟩ := Option.isSome_iff_exists.mp hi
  refine (Catalog.isCurrent_iff hq).mpr (h.get?_of id q hi ?_)
  exact (Catalog.isCurrent_iff ((h.qualifiedName_eq id hi).trans hq)).mp hc

theorem later_closeTop (hs : Sound b) (hne : b.scope.frames ≠ []) : Later b b.closeTop.state := by
  obtain ⟨frame, below, hf⟩ := List.exists_cons_of_ne_nil hne
  obtain ⟨name, t, after, placement, hc⟩ := hs.closing hf
  have hframe {id : ComponentId} (hi : (b.store.get id).isFinal = true) : id ≠ frame.component :=
    hs.ne_of_final hi (by simp [hf])
  refine ⟨fun id hi => ?_, fun id n hi hg => ?_⟩
  · rw [store, hc.store_eq, hc.alike.qualifiedName_eq, hc.attached.qualifiedName_eq,
      if_neg (hframe hi)]
  · rw [Catalog.get?, hc.table_eq] at hg
    exact (hc.get?_cases hg).resolve_right fun e => hframe hi e.2

theorem later_closeMany {n : Nat} (hs : Sound b) (hn : n ≤ b.scope.frames.length) :
    Later b (closeMany n b).state :=
  hs.kept_closeMany (fun _ hs h hne => h.trans (later_closeTop hs hne)) (.refl b) hn

theorem Closing.get_of_final (hc : Closing b frame below name t after placement) (hs : Sound b)
    (hi : (b.store.get id).isFinal = true) : t.get id = b.store.get id := by
  apply hc.attached.get_eq
  · exact hs.ne_of_final hi (by simp [hc.frames_eq])
  · intro e
    obtain ⟨f, hm, rfl⟩ := mem_of_openParent e
    exact hs.ne_of_final hi (by rw [hc.frames_eq]; exact List.mem_cons_of_mem _ hm) rfl

theorem Closing.children_own (hc : Closing b frame below name t after placement) (hs : Sound b) :
    (t.get frame.component).children = (b.store.get frame.component).children := by
  rw [hc.attached.children_eq, if_neg]
  intro e
  obtain ⟨f, hm, he⟩ := mem_of_openParent e
  have hd := hs.distinct
  rw [hc.frames_eq, List.map_cons, List.nodup_cons] at hd
  exact hd.1 (he ▸ List.mem_map_of_mem hm)

/-- What closing one component does to a complete one. -/
theorem Closing.frozen (hc : Closing b frame below name t after placement) (hs : Sound b)
    (hi : (b.store.get id).isFinal = true) :
    Frozen b b.closeTop.state id [] ∨
      Frozen b b.closeTop.state id (b.store.get frame.component).children ∧
        b.catalog.get? name = some id ∧ (b.store.get id).kind = .package ∧
        (b.store.get frame.component).kind = .package := by
  have ht := hc.get_of_final hs hi
  have hstore : b.closeTop.state.store = after.store := hc.store_eq
  have hbare : (b.closeTop.state.store.get id).bare = (b.store.get id).bare := by
    rw [hstore, hc.alike.bare_eq, ht]
  cases placement with
  | added =>
    obtain ⟨-, rfl⟩ := hc.placed.of_added
    exact .inl (frozen_of_get_eq (hstore ▸ ht))
  | refused =>
    obtain ⟨-, rfl⟩ := hc.placed.of_refused
    exact .inl (frozen_of_get_eq (hstore ▸ ht))
  | absorbed =>
    obtain ⟨existing, he, hk, hk', rfl⟩ := hc.placed.of_absorbed
    by_cases e : id = existing
    · subst e
      have hhas : t.Has id := (hc.attached.has_iff id).mpr (Store.has_of_isFinal hi)
      have hne : id ≠ frame.component := hs.ne_of_final hi (by simp [hc.frames_eq])
      have hchildren : (((b.catalog.withStore t).absorb id frame.component).store.get id).children =
          _ := Catalog.children_absorb hhas hne id
      rw [if_pos rfl, Catalog.store_withStore, ht, hc.children_own hs] at hchildren
      have hcurrent : b.closeTop.state.catalog.isCurrent = (b.catalog.withStore t).isCurrent := by
        funext child
        apply Catalog.isCurrent_congr
        · rw [hc.table_eq, Catalog.table_absorb]
        · rw [hc.store_eq, hc.alike.qualifiedName_eq, Catalog.store_withStore]
      rw [Catalog.store_withStore, hc.attached.kind_eq] at hk hk'
      refine .inr ⟨⟨hbare, ?_, ?_⟩, he, hk, hk'⟩
      · rw [hstore, hchildren, hcurrent, List.filter_append]
        exact List.sublist_append_left _ _
      · rw [hstore, hchildren]
        exact List.filter_sublist
    · exact .inl (frozen_of_get_eq (by rw [hstore, Catalog.get_absorb_of_ne e]; exact ht))
  | replaced =>
    obtain ⟨existing, he, -, rfl⟩ := hc.placed.of_replaced
    refine .inl ⟨hbare, ?_, ?_⟩
    · rw [hstore, Catalog.children_replace, Catalog.store_withStore, ht]
      split
      · refine List.monotone_filter_right _ fun child hcurrent => ?_
        have hne : existing ≠ frame.component := hs.ne_open he (by simp [hc.frames_eq])
        -- The name of the component that has been replaced is the one of the newcomer.
        simp only [bne_iff_ne, ne_eq]
        rintro rfl
        have hq : (b.closeTop.state.store.get child).qualifiedName = some name := by
          rw [hstore, hc.alike.qualifiedName_eq, hc.attached.qualifiedName_eq, if_neg hne]
          exact (hs.named name child he).2
        have hget := (Catalog.isCurrent_iff hq).mp hcurrent
        rw [Catalog.get?, hc.table_eq, Catalog.table_replace, Table.get?_put, if_pos rfl] at hget
        exact hne (Option.some.inj hget).symm
      · exact List.filter_sublist
    · rw [hstore, List.append_nil, ← ht]
      exact hc.children_sublist (by simp) id

theorem Frozen.trans {gained gained' : List ComponentId} (h : Frozen b b₁ id gained)
    (h' : Frozen b₁ b' id gained')
    (hcurrent : ∀ child ∈ (b.store.get id).children,
      b'.catalog.isCurrent child = true → b₁.catalog.isCurrent child = true) :
    Frozen b b' id (gained ++ gained') where
  bare_eq := h'.bare_eq.trans h.bare_eq
  kept := by
    refine .trans ?_ h'.kept
    have e : (b.store.get id).children.filter b'.catalog.isCurrent =
        ((b.store.get id).children.filter b₁.catalog.isCurrent).filter b'.catalog.isCurrent := by
      rw [List.filter_filter]
      refine List.filter_congr fun child hm => ?_
      cases hb : b'.catalog.isCurrent child with
      | false => rfl
      | true => simp [hcurrent child hm hb]
    rw [e]
    exact h.kept.filter _
  sublist := by
    rw [← List.append_assoc]
    exact h'.sublist.trans (h.sublist.append_right gained')

/-- Among the first components that are closed is a package of the given name which has the
child. -/
def ClosesPackageOf (b : Builder) (n : Nat) (name : String) (child : ComponentId) : Prop :=
  ∃ k < n, ∃ b₀ frame below, closeMany k b = .ok b₀ () ∧ b₀.scope.frames = frame :: below ∧
    (b₀.store.get frame.component).kind = .package ∧ Scope.nameIn b₀.store frame below = name ∧
    child ∈ (b₀.store.get frame.component).children

theorem ClosesPackageOf.succ {n : Nat} (hclose : b.closeTop = .ok b₁ ())
    (h : ClosesPackageOf b₁ n name child) : ClosesPackageOf b (n + 1) name child := by
  obtain ⟨k, hk, b₀, frame, below, hb, hrest⟩ := h
  refine ⟨k + 1, by omega, b₀, frame, below, ?_, hrest⟩
  rw [closeMany, hclose, Outcome.andThen_ok, hb]

/-- A complete component while others are closed. The children that it gains are those of packages
of its name. -/
theorem frozen_closeMany (n : Nat) (hs : Sound b) (hl : ListsFinal b)
    (hi : (b.store.get id).isFinal = true) (hn : n ≤ b.scope.frames.length) :
    ∃ gained, Frozen b (closeMany n b).state id gained ∧ ∀ child ∈ gained,
      (b.store.get id).kind = .package ∧
        ∃ name, b.catalog.get? name = some id ∧ ClosesPackageOf b n name child := by
  induction n generalizing b with
  | zero => exact ⟨[], frozen_of_get_eq rfl, by simp⟩
  | succ n ih =>
    have hne : b.scope.frames ≠ [] := by
      rintro e
      simp [e] at hn
    obtain ⟨frame, below, hf⟩ := List.exists_cons_of_ne_nil hne
    obtain ⟨name, t, after, placement, hc⟩ := hs.closing hf
    have hframe : id ≠ frame.component := hs.ne_of_final hi (by simp [hf])
    have hfirst : ∃ gained, Frozen b b.closeTop.state id gained ∧ ∀ child ∈ gained,
        (b.store.get id).kind = .package ∧
          ∃ name, b.catalog.get? name = some id ∧ ClosesPackageOf b (n + 1) name child := by
      rcases hc.frozen hs hi with h | ⟨h, hname, hk, hk'⟩
      · exact ⟨[], h, by simp⟩
      · exact ⟨_, h, fun child hm =>
          ⟨hk, name, hname, 0, n.succ_pos, b, frame, below, rfl, hf, hk', hc.name_eq, hm⟩⟩
    obtain ⟨gained, hfrozen, hgained⟩ := hfirst
    rw [closeMany]
    rcases hclose : b.closeTop with ⟨b₁, result⟩
    cases result with
    | error fault =>
      rw [hclose] at hfrozen
      exact ⟨gained, hfrozen, hgained⟩
    | ok =>
      have hs₁ := hs.closeTop hne
      have hl₁ := hl.closeTop hs hne
      have hlater := later_closeTop hs hne
      have hlength : n ≤ b.closeTop.state.scope.frames.length := by
        rw [frames_closeTop, List.length_tail]
        omega
      rw [hclose] at hs₁ hl₁ hlater hlength hfrozen
      obtain ⟨gained', hfrozen', hgained'⟩ := ih hs₁ hl₁ (hlater.isFinal hi) hlength
      refine ⟨gained ++ gained', hfrozen.trans hfrozen' fun child hm => ?_, fun child hm => ?_⟩
      · exact (later_closeMany hs₁ hlength).isCurrent (hlater.isFinal (hl id child hm))
      · rcases List.mem_append.mp hm with hm | hm
        · exact hgained child hm
        · obtain ⟨hk, name', hname', hp⟩ := hgained' child hm
          have hkind := congrArg Component.kind hfrozen.bare_eq
          exact ⟨hkind.symm.trans hk, name', hlater.get?_of id name' hi hname', hp.succ hclose⟩

def closeCount (b : Builder) : Op → Nat
  | .close => if b.suppressed then 0 else b.scope.groupSize?.getD 0
  | .endUnit => if b.suppressed then 0 else b.scope.frames.length
  | _ => 0

theorem get_modify_of_final {top : Frame} (hs : Sound b) (ht : b.scope.top? = some top)
    (hi : (b.store.get id).isFinal = true) (f : Component → Component) :
    (b.store.modify top.component f).get id = b.store.get id := by
  obtain ⟨below, hf⟩ := frames_of_top? ht
  exact Store.get_modify_of_ne (hs.ne_of_final hi (by simp [hf]))

/-- Whatever operation a builder performs after any others, whether it fails or not, a component
that was complete keeps all that it is but for its children. It loses no child that the catalog
still has under its name, and gains none, unless it is a package of the catalog: it then may gain
children of packages of its name that the operation closes. -/
theorem Reachable.step_frozen (h : Reachable policy b) (op : Op)
    (hi : (b.store.get id).isFinal = true) :
    ∃ gained, Frozen b (b.step op).state id gained ∧ ∀ child ∈ gained,
      (b.store.get id).kind = .package ∧
        ∃ name, b.catalog.get? name = some id ∧ ClosesPackageOf b (b.closeCount op) name child := by
  have hs := h.sound
  have he := b.step_effect op
  generalize b.step op = o at he
  have hadd {b₀ : Builder} (e : b₀.catalog.store = b.catalog.store) (frame : Frame)
      (c : Component) : (b₀.adding frame c).store.get id = b.store.get id := by
    rw [store_adding, store, e]
    exact Store.get_add_of_has (Store.has_of_isFinal hi)
  have hsame {b' : Builder} (e : b'.store.get id = b.store.get id) :
      ∃ gained, Frozen b b' id gained ∧ ∀ child ∈ gained, (b.store.get id).kind = .package ∧
        ∃ name, b.catalog.get? name = some id ∧ ClosesPackageOf b (b.closeCount op) name child :=
    ⟨[], frozen_of_get_eq e, by simp⟩
  cases he with
  | still ha => exact hsame (congrArg (·.store.get id) ha.catalog_eq)
  | underflow | heldOpen => exact hsame rfl
  | began name prov he => exact hsame (hadd he.store_eq _ _)
  | opened kind prov shortName withImports => exact hsame (hadd rfl _ _)
  | renamed name _ ht => exact hsame (get_modify_of_final hs ht hi _)
  | joined name => exact hsame (hadd rfl (b.siblingFrame _ _) _)
  | enriched what _ ht => exact hsame (get_modify_of_final hs ht hi _)
  | @closed top hsup ht =>
    have hcount : b.closeCount .close = b.scope.frames.countP (·.group == top.group) := by
      simp [closeCount, hsup, Scope.groupSize?, ht]
    rw [state_andThen_done, hcount]
    exact frozen_closeMany _ hs h.listsFinal hi (b.countP_le_length top)
  | ended hsup =>
    have hcount : b.closeCount .endUnit = b.scope.frames.length := by simp [closeCount, hsup]
    rw [state_andThen_done, hcount]
    exact frozen_closeMany _ hs h.listsFinal hi le_rfl

theorem Reachable.perform (h : Reachable policy b) (ops : List Op) :
    Reachable policy (b.perform ops) := by
  induction ops generalizing b with
  | nil => exact h
  | cons op rest ih => exact ih (h.step op)

/-- A package that has been closed with two classes, and a package of its name, still open, with a
class in it that is named like one of them. -/
def respanned : Builder :=
  perform (.start (.empty .lastWriteWins {}) none .flag [])
    [.beginPackage "p" ⟨1, 1, "", none⟩, .openComponent .classType ⟨1, 1, "", none⟩ "A" true,
      .close, .openComponent .classType ⟨2, 2, "", none⟩ "B" true, .close, .close,
      .beginPackage "p" ⟨3, 3, "", none⟩, .openComponent .classType ⟨3, 3, "", none⟩ "A" true]

/-- When the unit ends, the package that has been closed loses the class that is replaced and gains
the one that replaces it. -/
theorem Reachable.step_frozen_respanned :
    Reachable .lastWriteWins respanned ∧ (respanned.store.get ⟨0⟩).isFinal = true ∧
      (respanned.store.get ⟨0⟩).children = [⟨1⟩, ⟨2⟩] ∧
      ((respanned.step .endUnit).state.store.get ⟨0⟩).children = [⟨2⟩, ⟨4⟩] ∧
      ∃ gained, Frozen respanned (respanned.step .endUnit).state ⟨0⟩ gained ∧ ∀ child ∈ gained,
        (respanned.store.get ⟨0⟩).kind = .package ∧ ∃ name,
          respanned.catalog.get? name = some ⟨0⟩ ∧ ClosesPackageOf respanned 2 name child := by
  have hreachable : Reachable .lastWriteWins respanned := (Reachable.start none .flag []).perform _
  have hfinal : (respanned.store.get ⟨0⟩).isFinal = true := by decide +kernel
  have hcount : respanned.closeCount .endUnit = 2 := by decide +kernel
  refine ⟨hreachable, hfinal, by decide +kernel, by decide +kernel, ?_⟩
  have hfrozen := hreachable.step_frozen .endUnit hfinal
  rwa [hcount] at hfrozen

end Builder

end CodeAtlas
