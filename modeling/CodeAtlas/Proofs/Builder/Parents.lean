import CodeAtlas.Proofs.Builder.Frozen
import CodeAtlas.Proofs.Builder.Shape
import CodeAtlas.Proofs.Scope.Distinct

/-! # The parents of closed components

A component that closes is attached to the outermost open component whose name is the qualifier of
its own one. If names are proper and components that were declared together have different names,
then this is the component in which it was opened, and no other one lists it.
-/

namespace CodeAtlas

/-- The operation gives no name that is empty or has a dot, unless it begins a package. -/
def Op.ProperlyNamed : Op → Prop
  | .openComponent _ _ shortName _ =>
    ∀ name, shortName = some name → name ≠ "" ∧ Dotted.hasDot name = false
  | .nameDeclarator name => name ≠ "" ∧ Dotted.hasDot name = false
  | _ => True

theorem Op.ProperlyNamed.dotless {op : Op} (h : op.ProperlyNamed) : op.Dotless := by
  cases op with
  | openComponent _ _ shortName => exact fun name e => (h name e).2
  | nameDeclarator name => exact h.2
  | _ => trivial

namespace Builder

variable {b b' : Builder} {frame top : Frame} {inner outer below members : List Frame}
  {c : Component} {id owner : ComponentId} {name : String} {t : Store} {after : Catalog}
  {placement : Placement} {op : Op}

def Paired (b : Builder) : Prop :=
  ∀ f ∈ b.scope.frames, ∀ g ∈ b.scope.frames, f.group = g.group → f ≠ g →
    (b.store.get f.component).kind ≠ .package ∧ (b.store.get f.component).hasName = true

theorem Paired.of_subset (h : Paired b) (hf : b'.scope.frames ⊆ b.scope.frames)
    (hk : ∀ f ∈ b'.scope.frames, (b'.store.get f.component).kind = (b.store.get f.component).kind)
    (hn : ∀ f ∈ b'.scope.frames, (b.store.get f.component).hasName = true →
      (b'.store.get f.component).hasName = true) : Paired b' := by
  intro f hm g hm' hg hne
  obtain ⟨hkind, hname⟩ := h f (hf hm) g (hf hm') hg hne
  exact ⟨hk f hm ▸ hkind, hn f hm hname⟩

theorem Paired.vacate (he : Vacated b b') : Paired b' := by
  simp [Paired, he.frames_eq]

theorem Paired.adding (h : Paired b) (hs : Sound b) (hf : Fits b frame c)
    (hg : ∀ f ∈ b.scope.frames, f.group = frame.group →
      (b.store.get f.component).kind ≠ .package ∧ (b.store.get f.component).hasName = true ∧
        c.kind ≠ .package ∧ c.hasName = true) : Paired (b.adding frame c) := by
  have hold (f : Frame) (hm : f ∈ b.scope.frames) :
      (b.adding frame c).store.get f.component = b.store.get f.component :=
    Store.get_add_of_has (hs.has f hm)
  have hnew : (b.adding frame c).store.get frame.component = c := by
    rw [hf.component_eq, store_adding, Store.get_add_new]
  intro f hm g hm' hgroup hne
  rcases List.mem_cons.mp hm with rfl | hmem
  · rcases List.mem_cons.mp hm' with rfl | hm'
    · exact absurd rfl hne
    · rw [hnew]
      exact (hg g hm' hgroup.symm).2.2
  · rw [hold f hmem]
    rcases List.mem_cons.mp hm' with rfl | hm'
    · obtain ⟨hk, hn, -⟩ := hg f hmem hgroup
      exact ⟨hk, hn⟩
    · exact h f hmem g hm' hgroup hne

theorem Paired.modify (h : Paired b) {f : Component → Component} (hi : b.store.Has id)
    (hk : ∀ c, (f c).kind = c.kind) (hn : ∀ c, c.hasName = true → (f c).hasName = true) :
    Paired (b.withStore (b.store.modify id f)) := by
  intro g hm g' hm' hgroup hne
  obtain ⟨hkind, hname⟩ := h g hm g' hm' hgroup hne
  rw [store_withStore, Store.get_modify hi]
  split
  · rename_i e
    exact ⟨e ▸ (hk _).trans_ne hkind, hn _ (e ▸ hname)⟩
  · exact ⟨hkind, hname⟩

theorem Paired.closeTop (h : Paired b) (hs : Sound b) (hne : b.scope.frames ≠ []) :
    Paired b.closeTop.state := by
  obtain ⟨frame, below, hf⟩ := List.exists_cons_of_ne_nil hne
  obtain ⟨name, t, after, placement, hc⟩ := hs.closing hf
  have hframes : b.closeTop.state.scope.frames = below := by rw [hc.scope_eq]
  have hd := hs.distinct
  rw [hf, List.map_cons, List.nodup_cons] at hd
  apply h.of_subset
  · rw [hframes, hf]
    exact List.subset_cons_self _ _
  · intro f _
    rw [store, hc.store_eq, hc.alike.kind_eq, hc.attached.kind_eq]
  · intro f hm hn
    rw [hframes] at hm
    rw [store, hc.store_eq, hasName_congr (hc.alike.shortName_eq _), ← hn]
    apply hasName_congr
    rw [hc.attached.shortName_eq, if_neg]
    intro e
    exact hd.1 (e ▸ List.mem_map_of_mem hm)

theorem Sound.group_ne_pushed (h : Sound b) {f : Frame} (hf : f ∈ b.scope.frames) :
    f.group ≠ b.scope.pushed := by
  have hle := h.nested.group_le f hf
  have hlt := h.slot_lt f hf
  omega

theorem Paired.step (h : Paired b) (hs : Sound b) (ho : op.ProperlyNamed)
    (hp : ∀ name, op = .nameDeclarator name → b.suppressed = false →
      b.currentKind? ≠ some .package) : Paired (b.step op).state := by
  have he := b.step_effect op
  generalize b.step op = o at he
  have hclose (n : Nat) (hn : n ≤ b.scope.frames.length) : Paired (closeMany n b).state :=
    hs.kept_closeMany (fun _ hs h hne => h.closeTop hs hne) h hn
  have hopen (c : Component) : Paired (b.adding (b.innerFrame c) c) :=
    h.adding hs (hs.fits_inner c) fun f hf hg => absurd hg (hs.group_ne_pushed hf)
  have htop {top : Frame} (ht : b.scope.top? = some top) : b.store.Has top.component := by
    obtain ⟨below, hf⟩ := frames_of_top? ht
    exact hs.has top (by simp [hf])
  cases he with
  | @still _ b' _ ha =>
    have hstore : b'.store = b.store := congrArg Catalog.store ha.catalog_eq
    exact h.of_subset (ha.scope_eq ▸ List.Subset.refl _) (fun f _ => by rw [← hstore]; rfl)
      (fun f _ => by rw [← hstore]; exact id)
  | underflow => exact h
  | heldOpen => exact h
  | @began name prov b' he =>
    have hs' := hs.vacate he.toVacated
    refine (Paired.vacate he.toVacated).adding hs' (hs'.fits_inner _) ?_
    simp [he.frames_eq]
  | opened kind prov shortName withImports => exact hopen _
  | renamed name _ ht =>
    exact h.modify (htop ht) (fun _ => rfl) fun _ _ => by simpa [hasName_eq] using ho.1
  | @joined name top hsup ht hn =>
    have hkind : (b.store.get top.component).kind ≠ .package := by
      simpa [currentKind?, ht] using hp name rfl hsup
    refine h.adding hs (hs.fits_sibling ht _) fun f hf hg => ?_
    have hnew : Component.hasName
        { (b.store.get top.component).sibling with shortName := some name } = true := by
      simpa [hasName_eq] using ho.1
    by_cases e : f = top
    · subst e
      exact ⟨hkind, hn, hkind, hnew⟩
    · obtain ⟨below, hframes⟩ := frames_of_top? ht
      obtain ⟨hk, hname⟩ := h f hf top (by simp [hframes]) hg e
      exact ⟨hk, hname, hkind, hnew⟩
  | enriched what _ ht =>
    have hw := what.enriched b.resolver
    exact h.modify (htop ht) hw.kind_eq fun c hn => (hasName_congr (hw.shortName_eq c)).trans hn
  | @closed top =>
    rw [state_andThen_done]
    exact hclose _ (b.countP_le_length top)
  | ended =>
    rw [state_andThen_done]
    exact hclose _ le_rfl

/-- Builders one after the other on a catalog that was empty at first, in which the last write wins,
and what their operations left, whether they failed or not. Names are proper, and no package is
given a further name. -/
inductive ProperHistory : Builder → Prop
  | start (path : Option String) (mode : Suppression.Mode) (builtin : List (String × String)) :
      ProperHistory (.start (.empty .lastWriteWins {}) path mode builtin)
  | step {b : Builder} {op : Op} : ProperHistory b → op.ProperlyNamed →
      (∀ name, op = .nameDeclarator name → b.suppressed = false →
        b.currentKind? ≠ some .package) → ProperHistory (b.step op).state
  | handOver {b : Builder} (path : Option String) (mode : Suppression.Mode)
      (builtin : List (String × String)) : ProperHistory b →
      ProperHistory (.start b.catalog path mode builtin)

theorem ProperHistory.reachable (h : ProperHistory b) : Reachable .lastWriteWins b := by
  induction h with
  | start path mode builtin => exact .start path mode builtin
  | step _ _ _ ih => exact ih.step _
  | handOver path mode builtin _ ih => exact ih.handOver path mode builtin

theorem ProperHistory.labelled (h : ProperHistory b) : Labelled b := by
  induction h with
  | start path mode builtin => exact (consistent_start path mode builtin).labelled
  | step hb ho _ ih => exact ih.step hb.reachable.sound ho.dotless
  | handOver _ _ _ _ ih => exact ih.vacate ⟨rfl, rfl, rfl, rfl⟩

theorem ProperHistory.paired (h : ProperHistory b) : Paired b := by
  induction h with
  | start => simp [Paired, Builder.start]
  | step hb ho hp ih => exact ih.step hb.reachable.sound ho hp
  | handOver => simp [Paired, Builder.start]

/-- Open components that were declared together have different names. -/
def DeclaratorsDiffer (b : Builder) : Prop :=
  ∀ f ∈ b.scope.frames, ∀ g ∈ b.scope.frames, f.group = g.group →
    (b.store.get f.component).shortName = (b.store.get g.component).shortName → f = g

theorem shortName_of_hasName (h : c.hasName = true) : c.shortName = some c.label := by
  unfold Component.hasName at h
  split at h
  · rename_i name e
    rw [e, Component.label_of_shortName e (by simpa using h)]
  · cases h

theorem Paired.distinct (h : Paired b) (hs : Sound b) (hl : Labelled b)
    (hd : b.DeclaratorsDiffer) : Scope.Distinct b.store b.scope.frames where
  nested := hs.nested
  dotless f hf g hg hgroup hne := by
    obtain ⟨inner, outer, e⟩ := List.append_of_mem hf
    refine (hl.frames inner f outer e).resolve_right ?_
    rintro ⟨-, hk⟩
    exact (h f hf g hg hgroup hne).1 hk
  unique f hf g hg hgroup hlabel := by
    by_contra hne
    have hname := shortName_of_hasName (h f hf g hg hgroup hne).2
    have hname' := shortName_of_hasName (h g hg f hf hgroup.symm (Ne.symm hne)).2
    exact hne (hd f hf g hg hgroup (by rw [hname, hname', hlabel]))

/-- What makes the parents of components be found by their names. -/
structure Legible (b : Builder) : Prop where
  lenient : Lenient b
  labelled : Labelled b
  listsFinal : ListsFinal b
  distinct : Scope.Distinct b.store b.scope.frames

theorem ProperHistory.legible (h : ProperHistory b) (hd : b.DeclaratorsDiffer) : Legible b where
  lenient := h.reachable.lenient
  labelled := h.labelled
  listsFinal := h.reachable.listsFinal
  distinct := h.paired.distinct h.reachable.sound h.labelled hd

theorem label_closeTop (hs : Sound b) (hne : b.scope.frames ≠ []) (id : ComponentId) :
    (b.closeTop.state.store.get id).label = (b.store.get id).label := by
  obtain ⟨frame, below, hf⟩ := List.exists_cons_of_ne_nil hne
  obtain ⟨name, t, after, placement, hc⟩ := hs.closing hf
  rw [store, hc.store_eq, hc.alike.label_eq, hc.attached.label_eq]

theorem Legible.closeTop (h : Legible b) (hf : b.scope.frames = frame :: below) :
    ∃ b', b.closeTop = .ok b' () ∧ Legible b' ∧ b'.scope.frames = below := by
  have hne : b.scope.frames ≠ [] := by simp [hf]
  obtain ⟨b', hclose, hlenient, -⟩ := h.lenient.closeTop hf
  have hlabelled := h.labelled.closeTop h.lenient.sound hne
  have hlists := h.listsFinal.closeTop h.lenient.sound hne
  have hlabel := label_closeTop h.lenient.sound hne
  have hscope := b.frames_closeTop
  rw [hclose] at hlabelled hlists hlabel hscope
  have hframes : b'.scope.frames = below := by
    rw [show b'.scope = _ from hscope, hf]
    rfl
  have hdistinct := h.distinct
  rw [hf] at hdistinct
  refine ⟨b', hclose, ⟨hlenient, hlabelled, hlists, ?_⟩, hframes⟩
  rw [hframes]
  exact hdistinct.tail.congr hlabel

/-- The component found by the name is the one that the component was opened in. -/
theorem Legible.openParent_eq (h : Legible b) (hf : b.scope.frames = frame :: (inner ++ outer))
    (hp : frame.parent = outer.head?.map Frame.slot) :
    b.openParent (inner ++ outer) (Scope.nameIn b.store frame (inner ++ outer)) =
        outer.head?.map Frame.component ∧
      ∀ p ∈ outer.head?, some (Dotted.qualifier (Scope.nameIn b.store frame (inner ++ outer))) =
        Scope.topName? ⟨outer, b.scope.pushed⟩ b.store := by
  have hl := h.labelled.frames [] frame _ hf
  have hd := h.distinct
  rw [hf] at hd
  cases outer with
  | nil =>
    refine ⟨?_, by simp⟩
    rw [Scope.nameIn_of_parent_none hp, openParent]
    rcases hl with hl | ⟨e, -⟩
    · rw [if_pos (Dotted.qualifier_of_dotless hl)]
      rfl
    · rw [e]
      split <;> rfl
  | cons p outer =>
    have hdot : Dotted.hasDot (b.store.get frame.component).label = false :=
      hl.resolve_right (by simp)
    have hq : Dotted.qualifier (Scope.nameIn b.store frame (inner ++ p :: outer)) =
        Scope.nameIn b.store p outer := by
      rw [hd.tail.nested.nameIn_of_parent hp, Dotted.qualifier_append hdot]
    constructor
    · rw [openParent, hq, if_neg hd.tail.of_append.nested.nameIn_ne_empty]
      exact hd.tail.find?_nameIn b.scope.pushed
    · intro _ _
      rw [hq]
      rfl

theorem Closing.component_notMem (hc : Closing b frame below name t after placement)
    (hs : Sound b) {f : Frame} (hf : f ∈ below) : f.component ≠ frame.component := by
  have hd := hs.distinct
  rw [hc.frames_eq, List.map_cons, List.nodup_cons] at hd
  exact fun e => hd.1 (e ▸ List.mem_map_of_mem hf)

/-- Placing a component strikes off no child of an open component but the one that it replaces. -/
theorem Closing.count_placed (hc : Closing b frame below name t after placement) (hs : Sound b)
    (hname : b.catalog.get? name ≠ some id) {parent? : Option ComponentId}
    (hp : ∀ p, parent? = some p → ∃ f ∈ below, f.component = p)
    (ht : ∀ owner, (t.get owner).children.count id = if parent? = some owner then 1 else 0)
    (owner : ComponentId) :
    (after.store.get owner).children.count id = if parent? = some owner then 1 else 0 := by
  rw [← ht owner]
  cases placement with
  | added =>
    obtain ⟨-, rfl⟩ := hc.placed.of_added
    rfl
  | refused =>
    obtain ⟨-, rfl⟩ := hc.placed.of_refused
    rfl
  | absorbed =>
    obtain ⟨existing, he, -, -, rfl⟩ := hc.placed.of_absorbed
    have hframe : frame ∈ b.scope.frames := by simp [hc.frames_eq]
    have hhas : t.Has existing := (hc.attached.has_iff existing).mpr (hs.named name existing he).1
    have hunlisted {x : ComponentId} (hx : parent? ≠ some x) : id ∉ (t.get x).children := by
      rw [← List.count_eq_zero, ht x, if_neg hx]
    rw [Catalog.children_absorb hhas (hs.ne_open he hframe)]
    split
    · rename_i e
      subst e
      have hold : parent? ≠ some owner := by
        intro e
        obtain ⟨f, hf, rfl⟩ := hp _ e
        exact hs.ne_open he (by rw [hc.frames_eq]; exact List.mem_cons_of_mem _ hf) rfl
      have hnew : parent? ≠ some frame.component := by
        intro e
        obtain ⟨f, hf, e⟩ := hp _ e
        exact hc.component_notMem hs hf e
      rw [List.count_eq_zero.mpr (hunlisted hold), List.count_eq_zero]
      intro hm
      rcases List.mem_append.mp (List.mem_of_mem_filter hm) with hm | hm
      · exact hunlisted hold hm
      · exact hunlisted hnew hm
    · rfl
  | replaced =>
    obtain ⟨existing, he, -, rfl⟩ := hc.placed.of_replaced
    have hne : id ≠ existing := by
      rintro rfl
      exact hname he
    rw [Catalog.children_replace]
    split
    · exact List.count_filter (by simpa using hne)
    · rfl

/-- The component is complete. Of all components the innermost one of the frames lists it, once,
under the name by which it calls its parent. No open component has its name. -/
structure HungOn (outer : List Frame) (id : ComponentId) (b : Builder) : Prop where
  count_eq : ∀ owner, (b.store.get owner).children.count id =
    if outer.head?.map Frame.component = some owner then 1 else 0
  parentName_eq : (b.store.get id).parentName = Scope.topName? ⟨outer, b.scope.pushed⟩ b.store
  named : ∃ q, (b.store.get id).qualifiedName = some q ∧
    ∀ inner f out, b.scope.frames = inner ++ f :: out → Scope.nameIn b.store f out ≠ q

section Step

variable (h : Legible b) (hf : b.scope.frames = frame :: (inner ++ outer))
include h hf

theorem Legible.topName?_closeTop :
    Scope.topName? ⟨outer, b.closeTop.state.scope.pushed⟩ b.closeTop.state.store =
      Scope.topName? ⟨outer, b.scope.pushed⟩ b.store := by
  rw [frames_closeTop]
  exact Scope.topName?_congr _ fun f _ =>
    label_closeTop h.lenient.sound (by simp [hf]) f.component

theorem Legible.nameIn_ne_closeTop {q : String}
    (hq : ∀ mid f out, inner ++ outer = mid ++ f :: out → Scope.nameIn b.store f out ≠ q) :
    ∀ mid f out, b.closeTop.state.scope.frames = mid ++ f :: out →
      Scope.nameIn b.closeTop.state.store f out ≠ q := by
  intro mid f out e
  rw [frames_closeTop, hf] at e
  rw [Scope.nameIn_congr fun g _ =>
    label_closeTop h.lenient.sound (by simp [hf]) g.component]
  exact hq mid f out e

theorem Legible.hung_new (hp : frame.parent = outer.head?.map Frame.slot) :
    HungOn outer frame.component b.closeTop.state := by
  have hs := h.lenient.sound
  have hframe : frame ∈ b.scope.frames := by simp [hf]
  obtain ⟨hparent, hqualifier⟩ := h.openParent_eq hf hp
  obtain ⟨name, t, after, placement, hc⟩ := hs.closing hf
  have hname := hc.name_eq
  rw [hname] at hparent hqualifier
  have ha := hc.attached
  rw [hparent] at ha
  have hunlisted (owner : ComponentId) : frame.component ∉ (b.store.get owner).children := by
    intro hm
    have hfinal := h.listsFinal owner frame.component hm
    rw [hs.not_final hframe] at hfinal
    cases hfinal
  constructor
  · intro owner
    rw [store, hc.store_eq]
    refine hc.count_placed hs ?_ ?_ (fun owner => ?_) owner
    · exact fun e => hs.ne_open e hframe rfl
    · intro p e
      obtain ⟨f, hf, rfl⟩ := Option.map_eq_some_iff.mp e
      exact ⟨f, List.mem_append_right _ (List.mem_of_mem_head? hf), rfl⟩
    · rw [ha.children_eq]
      split <;> simp [List.count_eq_zero.mpr (hunlisted owner)]
  · rw [h.topName?_closeTop hf, store, hc.store_eq, hc.alike.parentName_eq, ha.parentName_eq]
    cases outer with
    | nil => simpa [Scope.topName?] using hs.unattached frame hframe
    | cons p outer => simpa using hqualifier p rfl
  · refine ⟨name, ?_, h.nameIn_ne_closeTop hf fun mid f out e => ?_⟩
    · rw [store, hc.store_eq, hc.alike.qualifiedName_eq, ha.qualifiedName_eq, if_pos rfl]
    · have hd := h.distinct
      rw [hf, e] at hd
      rw [← hname, e]
      exact hd.nameIn_ne

theorem HungOn.closeTop (hh : HungOn outer id b) : HungOn outer id b.closeTop.state := by
  have hs := h.lenient.sound
  obtain ⟨q, hq, hnames⟩ := hh.named
  obtain ⟨name, t, after, placement, hc⟩ := hs.closing hf
  have hne : id ≠ frame.component := by
    rintro rfl
    rw [hs.unnamed frame (by simp [hf])] at hq
    cases hq
  have ha := hc.attached
  constructor
  · intro owner
    rw [store, hc.store_eq]
    refine hc.count_placed hs ?_ ?_ (fun owner => ?_) owner
    · intro e
      have hq' := (hs.named name id e).2
      rw [hq] at hq'
      exact hnames [] frame _ hf (hc.name_eq.trans (Option.some.inj hq').symm)
    · intro p e
      obtain ⟨f, hf, rfl⟩ := Option.map_eq_some_iff.mp e
      exact ⟨f, List.mem_append_right _ (List.mem_of_mem_head? hf), rfl⟩
    · rw [← hh.count_eq owner, ha.children_eq]
      split
      · have hcount : List.count id [frame.component] = 0 :=
          List.count_eq_zero.mpr (by simpa using hne)
        rw [List.count_append, hcount, Nat.add_zero]
      · rfl
  · rw [h.topName?_closeTop hf, ← hh.parentName_eq, store, hc.store_eq, hc.alike.parentName_eq,
      ha.parentName_eq, if_neg fun e => hne e.1]
  · refine ⟨q, ?_, h.nameIn_ne_closeTop hf fun mid f out e => ?_⟩
    · rw [store, hc.store_eq, hc.alike.qualifiedName_eq, ha.qualifiedName_eq, if_neg hne, hq]
    · exact hnames (frame :: mid) f out (by rw [hf, e]; rfl)

end Step

/-- Components that were opened in the same one hang on it when they all have been closed. -/
theorem Legible.hung_closeMany (h : Legible b) (hf : b.scope.frames = members ++ outer)
    (hp : ∀ f ∈ members, f.parent = outer.head?.map Frame.slot) :
    ∃ b', closeMany members.length b = .ok b' () ∧ b'.scope.frames = outer ∧
      ∀ id, HungOn outer id b ∨ (∃ f ∈ members, f.component = id) → HungOn outer id b' := by
  induction members generalizing b with
  | nil =>
    refine ⟨b, rfl, hf, ?_⟩
    rintro id (hh | ⟨f, hm, -⟩)
    · exact hh
    · cases hm
  | cons frame members ih =>
    obtain ⟨hpframe, hpmembers⟩ := List.forall_mem_cons.mp hp
    have hnew := h.hung_new hf hpframe
    have hold (id : ComponentId) (hh : HungOn outer id b) := hh.closeTop h hf
    obtain ⟨b₁, hclose, h₁, hframes⟩ := h.closeTop hf
    rw [hclose] at hnew hold
    obtain ⟨b', hmany, hframes', hhung⟩ := ih h₁ hframes hpmembers
    refine ⟨b', ?_, hframes', ?_⟩
    · rw [List.length_cons, closeMany, hclose, Outcome.andThen_ok, hmany]
    · rintro id (hh | ⟨f, hm, rfl⟩)
      · exact hhung id (.inl (hold id hh))
      · rcases List.mem_cons.mp hm with rfl | hm
        · exact hhung _ (.inl hnew)
        · exact hhung _ (.inr ⟨f, hm, rfl⟩)

theorem Legible.closeMany (h : Legible b) {n : Nat} (hn : n ≤ b.scope.frames.length) :
    ∃ b', closeMany n b = .ok b' () ∧ Legible b' := by
  induction n generalizing b with
  | zero => exact ⟨b, rfl, h⟩
  | succ n ih =>
    have hpos : 0 < b.scope.frames.length := by omega
    obtain ⟨frame, below, hf⟩ := List.exists_cons_of_length_pos hpos
    obtain ⟨b₁, hclose, h₁, hframes⟩ := h.closeTop hf
    obtain ⟨b', hmany, h'⟩ := ih h₁ (by rw [hf, List.length_cons] at hn; rw [hframes]; omega)
    exact ⟨b', by rw [Builder.closeMany, hclose, Outcome.andThen_ok, hmany], h'⟩

/-- Closing the innermost components that were declared together attaches each of them to the
component in which they were opened, the one beneath them, and to no other one. Each time, the
search by name finds that component, or none if nothing is beneath them. -/
theorem ProperHistory.close_attaches (h : ProperHistory b) (hs : b.suppressed = false)
    (ht : b.scope.top? = some top) (hd : b.DeclaratorsDiffer) :
    let members := b.scope.frames.filter (·.group == top.group)
    let outer := b.scope.frames.filter (·.group != top.group)
    b.scope.frames = members ++ outer ∧
      (∀ f ∈ members, f.parent = outer.head?.map Frame.slot) ∧
      (∀ before f after, members = before ++ f :: after →
        ∃ b₀, Builder.closeMany before.length b = .ok b₀ () ∧
          b₀.scope.frames = f :: (after ++ outer) ∧
          b₀.openParent (after ++ outer) (Scope.nameIn b₀.store f (after ++ outer)) =
            outer.head?.map Frame.component) ∧
      ∃ b', b.step .close = .ok b' .done ∧ b'.scope.frames = outer ∧
        ∀ f ∈ members, (b'.store.get f.component).parentName = b'.scope.topName? b'.store ∧
          ∀ owner, (b'.store.get owner).children.count f.component =
            if outer.head?.map Frame.component = some owner then 1 else 0 := by
  intro members outer
  have hlegible := h.legible hd
  have hn := hlegible.lenient.sound.nested
  obtain ⟨below, hframes⟩ := frames_of_top? ht
  have hf : b.scope.frames = members ++ outer := by
    apply hn.eq_filter_append
    rw [hframes] at hn ⊢
    exact List.forall_mem_cons.mpr ⟨le_rfl, hn.group_le_top⟩
  rw [hf] at hn
  have hparents := hn.parent_of_group (fun f hm => by simpa using List.of_mem_filter hm)
    (fun f hm => by simpa using List.of_mem_filter hm)
  refine ⟨hf, hparents, fun before f after e => ?_, ?_⟩
  · obtain ⟨b₀, hbefore, h₀⟩ := hlegible.closeMany (n := before.length) (by simp [hf, e])
    have hframes₀ : b₀.scope.frames = f :: (after ++ outer) := by
      rw [frames_of_closeMany hbefore, hf, e]
      simp
    exact ⟨b₀, hbefore, hframes₀, (h₀.openParent_eq hframes₀ (hparents f (by simp [e]))).1⟩
  · obtain ⟨b', hclose, hframes', hhung⟩ := hlegible.hung_closeMany hf hparents
    refine ⟨b', ?_, hframes', fun f hm => ?_⟩
    · have hsize : b.scope.groupSize? = some members.length := by
        rw [Scope.groupSize?, ht, Option.map_some, List.countP_eq_length_filter]
      rw [Builder.step, hs, if_neg (by simp), Builder.close, hsize]
      dsimp only
      rw [hclose]
      rfl
    · have hh := hhung f.component (.inr ⟨f, hm, rfl⟩)
      refine ⟨hh.parentName_eq.trans ?_, hh.count_eq⟩
      rw [← hframes']

/-- Two variables `x` and `y` that were declared together in a field `y`, which was itself declared
together with a field `x`. -/
def nestedDeclarators : Builder :=
  perform (.start (.empty .lastWriteWins {}) none .flag [])
    [.beginPackage "a.b" ⟨1, 1, "", none⟩, .openComponent .field ⟨1, 1, "", none⟩ none false,
      .nameDeclarator "x", .nameDeclarator "y",
      .openComponent .localVariable ⟨1, 1, "", none⟩ none false,
      .nameDeclarator "x", .nameDeclarator "y"]

/-- The variables hang on the field `y` that they were declared in, not on the variable `y` that is
open beside them, and not on the field `x`. -/
theorem ProperHistory.close_attaches_nestedDeclarators :
    ProperHistory nestedDeclarators ∧ nestedDeclarators.DeclaratorsDiffer ∧
      nestedDeclarators.suppressed = false ∧
      ∃ b', nestedDeclarators.step .close = .ok b' .done ∧
        b'.scope.frames.map Frame.component = [⟨2⟩, ⟨1⟩, ⟨0⟩] ∧
        ∀ id, id = ⟨3⟩ ∨ id = ⟨4⟩ → ∀ owner,
          (b'.store.get owner).children.count id = if some ⟨2⟩ = some owner then 1 else 0 := by
  have hhistory : ProperHistory nestedDeclarators := by
    have hname (name : String) (hn : name ≠ "") (hd : Dotted.hasDot name = false) :
        (Op.nameDeclarator name).ProperlyNamed := ⟨hn, hd⟩
    refine .step (.step (.step (.step (.step (.step (.step (.start none .flag []) ?_ ?_) ?_ ?_)
      ?_ ?_) ?_ ?_) ?_ ?_) ?_ ?_) ?_ ?_
    all_goals first
      | exact hname _ (by decide) (by decide)
      | exact fun _ _ _ => by decide +kernel
      | simp [Op.ProperlyNamed]
  have hdiffer : nestedDeclarators.DeclaratorsDiffer := by
    unfold DeclaratorsDiffer
    decide +kernel
  have hawake : nestedDeclarators.suppressed = false := by decide +kernel
  have htop : nestedDeclarators.scope.top? = some ⟨4, ⟨4⟩, some 2, 3⟩ := by decide +kernel
  obtain ⟨-, -, -, b', hclose, hframes, hhung⟩ := hhistory.close_attaches hawake htop hdiffer
  refine ⟨hhistory, hdiffer, hawake, b', hclose, ?_, ?_⟩
  · rw [hframes]
    decide +kernel
  · rintro id (rfl | rfl)
    · exact (hhung ⟨3, ⟨3⟩, some 2, 3⟩ (by decide +kernel)).2
    · exact (hhung ⟨4, ⟨4⟩, some 2, 3⟩ (by decide +kernel)).2

end Builder

end CodeAtlas
