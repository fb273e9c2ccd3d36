import CodeAtlas.Proofs.Builder.Absorption
import CodeAtlas.Proofs.Builder.Naming

/-! # Who lists a component

A component stands under a name if it is open under that name or if the catalog has it there. A
child of a standing component has that component's name as its parent's name, and no other
standing component lists it.
-/

namespace CodeAtlas.Builder

variable {b b' : Builder} {frame top : Frame} {below : List Frame} {c : Component}
  {m n : String} {id owner child : ComponentId} {absorbed : List ComponentId}

/-- The component is open under the name, or the catalog has it there. -/
def Standing (b : Builder) (name : String) (id : ComponentId) : Prop :=
  (name, id) ∈ b.scope.openNames b.store ∨ b.catalog.get? name = some id

structure Listed (b : Builder) : Prop where
  final : ∀ n owner child, b.Standing n owner → child ∈ (b.store.get owner).children →
    ∃ q, (b.store.get child).qualifiedName = some q
  parent : ∀ n owner child, b.Standing n owner → child ∈ (b.store.get owner).children →
    (b.store.get child).parentName = some n
  nodup : ∀ n owner, b.Standing n owner → (b.store.get owner).children.Nodup
  unique : ∀ n n' owner owner' child, b.Standing n owner → b.Standing n' owner' →
    child ∈ (b.store.get owner).children → child ∈ (b.store.get owner').children → owner = owner'
  first : ∀ n owner, (n, owner) ∈ b.scope.openNames b.store →
    (b.store.get owner).children ≠ [] → b.scope.find? b.store n = some owner

theorem Sound.standing_unique (h : Sound b) (hm : b.Standing m id) (hn : b.Standing n id) :
    m = n := by
  have hclash {m n : String} (ho : (m, id) ∈ b.scope.openNames b.store)
      (hi : b.catalog.get? n = some id) : False := by
    obtain ⟨inner, f, outer, e, -, hf⟩ := Scope.mem_openNames_iff.mp ho
    exact h.ne_open hi (by simp [e]) hf
  rcases hm with hm | hm
  · rcases hn with hn | hn
    · exact Scope.openNames_unique h.distinct hm hn
    · exact (hclash hm hn).elim
  · rcases hn with hn | hn
    · exact (hclash hn hm).elim
    · exact h.name_unique hm hn

theorem Sound.child_ne_open (h : Sound b) (hl : Listed b) (hs : b.Standing n owner)
    (hc : child ∈ (b.store.get owner).children) {f : Frame} (hf : f ∈ b.scope.frames) :
    child ≠ f.component := by
  rintro rfl
  obtain ⟨q, hq⟩ := hl.final n owner _ hs hc
  rw [h.unnamed f hf] at hq
  cases hq

/-- Every child of a standing component is in the catalog, but for packages that were absorbed. -/
def Kept (absorbed : List ComponentId) (b : Builder) : Prop :=
  ∀ n owner child q, b.Standing n owner → child ∈ (b.store.get owner).children →
    (b.store.get child).qualifiedName = some q →
      b.catalog.get? q = some child ∨ child ∈ absorbed ∧ (b.store.get child).kind = .package

structure Shrinks (b b' : Builder) : Prop where
  standing : ∀ n id, b'.Standing n id → (b'.store.get id).children ≠ [] → b.Standing n id
  children : ∀ n id, b'.Standing n id → (b'.store.get id).children ≠ [] →
    (b'.store.get id).children.Sublist (b.store.get id).children
  opened : ∀ n id, (n, id) ∈ b'.scope.openNames b'.store → (b'.store.get id).children ≠ [] →
    (n, id) ∈ b.scope.openNames b.store
  found : ∀ n id, (n, id) ∈ b'.scope.openNames b'.store → (b'.store.get id).children ≠ [] →
    b.scope.find? b.store n = some id → b'.scope.find? b'.store n = some id
  qualifiedName_eq : ∀ id, b.store.Has id →
    (b'.store.get id).qualifiedName = (b.store.get id).qualifiedName
  parentName_eq : ∀ id, b.store.Has id →
    (b'.store.get id).parentName = (b.store.get id).parentName

theorem Listed.has (h : Listed b) (hs : b.Standing n owner)
    (hc : child ∈ (b.store.get owner).children) : b.store.Has child := by
  by_contra hn
  obtain ⟨q, hq⟩ := h.final n owner child hs hc
  rw [Store.get_of_not_has hn] at hq
  cases hq

theorem Shrinks.mem (h : Shrinks b b') (hs : b'.Standing n owner)
    (hc : child ∈ (b'.store.get owner).children) :
    b.Standing n owner ∧ child ∈ (b.store.get owner).children := by
  have hne := List.ne_nil_of_mem hc
  exact ⟨h.standing n owner hs hne, (h.children n owner hs hne).subset hc⟩

theorem Listed.shrink (h : Listed b) (hs : Shrinks b b') : Listed b' where
  final n owner child hn hm := by
    obtain ⟨hn, hm⟩ := hs.mem hn hm
    rw [hs.qualifiedName_eq child (h.has hn hm)]
    exact h.final n owner child hn hm
  parent n owner child hn hm := by
    obtain ⟨hn, hm⟩ := hs.mem hn hm
    rw [hs.parentName_eq child (h.has hn hm)]
    exact h.parent n owner child hn hm
  nodup n owner hn := by
    by_cases hne : (b'.store.get owner).children = []
    · rw [hne]
      exact List.nodup_nil
    · exact (h.nodup n owner (hs.standing n owner hn hne)).sublist (hs.children n owner hn hne)
  unique n n' owner owner' child hn hn' hm hm' := by
    obtain ⟨hn, hm⟩ := hs.mem hn hm
    obtain ⟨hn', hm'⟩ := hs.mem hn' hm'
    exact h.unique n n' owner owner' child hn hn' hm hm'
  first n owner hm hne := by
    refine hs.found n owner hm hne (h.first n owner (hs.opened n owner hm hne) fun e => hne ?_)
    have hsub := hs.children n owner (.inl hm) hne
    rw [e] at hsub
    exact List.sublist_nil.mp hsub

theorem Kept.mono (h : Kept absorbed b) (more : List ComponentId) : Kept (absorbed ++ more) b :=
  fun n owner child q hn hm hq => (h n owner child q hn hm hq).imp_right
    (And.imp_left (List.mem_append_left more))

theorem Kept.shrink (h : Kept absorbed b) (hl : Listed b) (hs : Shrinks b b')
    (ht : ∀ q id, b.catalog.get? q = some id → b'.catalog.get? q = some id)
    (hk : ∀ id, b.store.Has id → (b'.store.get id).kind = (b.store.get id).kind) :
    Kept absorbed b' := by
  intro n owner child q hn hm hq
  obtain ⟨hn, hm⟩ := hs.mem hn hm
  have hh := hl.has hn hm
  rw [hs.qualifiedName_eq child hh] at hq
  rw [hk child hh]
  exact (h n owner child q hn hm hq).imp_left (ht q child)

theorem shrinks_vacate (he : Vacated b b') : Shrinks b b' := by
  have hopen (n : String) (id : ComponentId) : (n, id) ∉ b'.scope.openNames b'.store := by
    simp [he.frames_eq, Scope.openNames, Scope.namesFrom]
  have hstore : b'.store = b.store := he.store_eq
  refine ⟨fun n id hs _ => ?_, fun n id _ _ => ?_, fun n id h => absurd h (hopen n id),
    fun n id h => absurd h (hopen n id), fun _ _ => ?_, fun _ _ => ?_⟩
  · rcases hs with hs | hs
    · exact absurd hs (hopen n id)
    · unfold Catalog.get? at hs
      rw [he.table_eq] at hs
      exact .inr hs
  all_goals rw [hstore]

theorem openNames_adding (hs : Sound b) (hf : Fits b frame c) :
    (n, id) ∈ (b.adding frame c).scope.openNames (b.adding frame c).store ↔
      (n = Scope.nameIn (b.store.add c).1 frame b.scope.frames ∧ id = (b.store.add c).2) ∨
        (n, id) ∈ b.scope.openNames b.store := by
  have hold : b.scope.openNames (b.store.add c).1 = b.scope.openNames b.store :=
    Scope.openNames_congr fun f hm => by rw [Store.get_add_of_has (hs.has f hm)]
  rw [← hf.component_eq, ← hold]
  exact Scope.mem_openNames_cons

theorem Sound.shrinks_adding (hs : Sound b) (hc : c.Blank) (hf : Fits b frame c) :
    Shrinks b (b.adding frame c) := by
  have hold {id : ComponentId} (h : (((b.adding frame c).store.get id).children ≠ [])) :
      id ≠ (b.store.add c).2 := by
    rintro rfl
    rw [store_adding, Store.get_add_new, hc.children_eq] at h
    exact h rfl
  have hopen (n : String) (id : ComponentId)
      (h : (n, id) ∈ (b.adding frame c).scope.openNames (b.adding frame c).store)
      (hne : ((b.adding frame c).store.get id).children ≠ []) :
      (n, id) ∈ b.scope.openNames b.store := by
    rcases (openNames_adding hs hf).mp h with ⟨-, e⟩ | h
    · exact absurd e (hold hne)
    · exact h
  constructor
  · intro n id h hne
    exact h.imp_left (hopen n id · hne)
  · intro n id h hne
    rw [store_adding, Store.get_add, if_neg (hold hne)]
  · exact hopen
  · intro n id _ _ h
    have hlabel : b.scope.find? (b.store.add c).1 n = b.scope.find? b.store n :=
      Scope.find?_congr (fun f hm => by rw [Store.get_add_of_has (hs.has f hm)]) n
    have hbelow : Scope.find? ⟨b.scope.frames, b.scope.pushed + 1⟩ (b.store.add c).1 n = some id :=
      hlabel.trans h
    refine (Scope.find?_cons frame b.scope.frames _ n).trans ?_
    rw [store_adding, hbelow, Option.some_or]
  · intro id hh
    rw [store_adding, Store.get_add_of_has hh]
  · intro id hh
    rw [store_adding, Store.get_add_of_has hh]

theorem shrinks_of_eq (hs : b'.scope = b.scope) (hg : ∀ n, b'.catalog.get? n = b.catalog.get? n)
    (hl : ∀ id, (b'.store.get id).label = (b.store.get id).label)
    (hq : ∀ id, (b'.store.get id).qualifiedName = (b.store.get id).qualifiedName)
    (hp : ∀ id, (b'.store.get id).parentName = (b.store.get id).parentName)
    (hc : ∀ id, (b'.store.get id).children = (b.store.get id).children) : Shrinks b b' := by
  have hopen : b'.scope.openNames b'.store = b.scope.openNames b.store := by
    rw [hs]
    exact Scope.openNames_congr fun f _ => hl f.component
  constructor
  · intro n id h _
    unfold Standing at h
    rwa [hopen, hg] at h
  · intro n id _ _
    rw [hc]
  · intro n id h _
    rwa [hopen] at h
  · intro n id _ _ h
    rw [hs]
    exact (Scope.find?_congr (fun f _ => hl f.component) n).trans h
  · exact fun id _ => hq id
  · exact fun id _ => hp id

theorem shrinks_enrich (id : ComponentId) {f : Component → Component}
    (hf : Component.Enriched f) : Shrinks b (b.withStore (b.store.modify id f)) :=
  shrinks_of_eq rfl (fun _ => rfl)
    (Store.field_modify Component.label fun c => by simp only [Component.label, hf.shortName_eq])
    (Store.field_modify Component.qualifiedName hf.qualifiedName_eq)
    (Store.field_modify Component.parentName hf.parentName_eq)
    (Store.field_modify Component.children hf.children_eq)

theorem label_rename_empty (c : Component) (h : c.hasName = false) :
    ({ c with shortName := some "" } : Component).label = c.label := by
  unfold Component.hasName at h
  unfold Component.label
  cases e : c.shortName with
  | none => simp
  | some name => simp_all

theorem Sound.shrinks_rename (hs : Sound b) (ht : b.scope.top? = some top) (name : String)
    (hn : (b.store.get top.component).hasName = false)
    (hc : name ≠ "" → (b.store.get top.component).children = []) :
    Shrinks b (b.withStore
      (b.store.modify top.component ({ · with shortName := some name }))) := by
  obtain ⟨below, hf⟩ := frames_of_top? ht
  have hget := Store.get_modify (f := ({ · with shortName := some name }))
    (hs.has top (by simp [hf]))
  have hkeep {α : Type} (field : Component → α)
      (hfield : ∀ c : Component, field { c with shortName := some name } = field c)
      (id : ComponentId) :
      field ((b.store.modify top.component ({ · with shortName := some name })).get id) =
        field (b.store.get id) := Store.field_modify field hfield id
  have hchildren := hkeep Component.children fun _ => rfl
  have hqualified := hkeep Component.qualifiedName fun _ => rfl
  have hparent := hkeep Component.parentName fun _ => rfl
  by_cases e : name = ""
  · subst e
    refine shrinks_of_eq rfl (fun _ => rfl) (fun id => ?_) hqualified hparent hchildren
    rw [store_withStore, hget]
    split
    · rename_i e
      rw [e, label_rename_empty _ hn]
    · rfl
  -- The component that gets the name owns nothing, and the names around it do not depend on it.
  generalize hstore : b.store.modify top.component ({ · with shortName := some name }) = t at *
  have hscope : b.scope = ⟨top :: below, b.scope.pushed⟩ := by rw [← hf]
  have hdistinct := hs.distinct
  rw [hf, List.map_cons, List.nodup_cons] at hdistinct
  have hlabel (f : Frame) (hm : f ∈ below) :
      (t.get f.component).label = (b.store.get f.component).label := by
    rw [hget, if_neg]
    exact fun e => hdistinct.1 (e ▸ List.mem_map_of_mem hm)
  have hopen (n : String) (id : ComponentId)
      (h : (n, id) ∈ (b.withStore t).scope.openNames (b.withStore t).store)
      (hne : ((b.withStore t).store.get id).children ≠ []) :
      (n, id) ∈ Scope.openNames ⟨below, b.scope.pushed⟩ b.store := by
    rw [scope_withStore, store_withStore, hscope] at h
    rcases Scope.mem_openNames_cons.mp h with ⟨-, rfl⟩ | h
    · rw [store_withStore, hchildren] at hne
      exact absurd (hc e) hne
    · rwa [Scope.openNames_congr hlabel] at h
  have hopen' (n : String) (id : ComponentId)
      (h : (n, id) ∈ Scope.openNames ⟨below, b.scope.pushed⟩ b.store) :
      (n, id) ∈ b.scope.openNames b.store := by
    rw [hscope]
    exact Scope.mem_openNames_cons.mpr (.inr h)
  constructor
  · exact fun n id h hne => h.imp_left fun h => hopen' n id (hopen n id h hne)
  · intro n id _ _
    rw [store_withStore, hchildren]
  · exact fun n id h hne => hopen' n id (hopen n id h hne)
  · intro n id h hne hfind
    rw [hscope] at hfind
    have hbelow := Scope.find?_of_cons hfind (hopen n id h hne)
    rw [scope_withStore, store_withStore, hscope,
      Scope.find?_cons top below, Scope.find?_congr hlabel, hbelow, Option.some_or]
  · exact fun id _ => hqualified id
  · exact fun id _ => hparent id

theorem find?_of_openParent (hf : b.scope.frames = frame :: below) {name : String}
    {parent : ComponentId} (h : b.openParent below name = some parent) :
    b.scope.find? b.store (Dotted.qualifier name) = some parent := by
  have hscope : b.scope = ⟨frame :: below, b.scope.pushed⟩ := by rw [← hf]
  unfold openParent at h
  split at h
  · cases h
  · rw [hscope, Scope.find?_cons frame below, h, Option.some_or]

theorem standing_withStore {t : Store}
    (hl : ∀ id, (t.get id).label = (b.store.get id).label) :
    (b.withStore t).Standing n id ↔ b.Standing n id := by
  unfold Standing
  rw [scope_withStore, store_withStore, Scope.openNames_congr fun f _ => hl f.component,
    get?_withStore]

/-- Attaching the innermost component to the one found under its qualifier keeps lists apart. -/
theorem Listed.attach (h : Listed b) (hs : Sound b) (hf : b.scope.frames = frame :: below)
    {name : String} {t : Store}
    (ha : Attached b.store t frame.component name (b.openParent below name)) :
    Listed (b.withStore t) := by
  have hframe : frame ∈ b.scope.frames := by simp [hf]
  have hstanding (n : String) (id : ComponentId) :
      (b.withStore t).Standing n id → b.Standing n id := (standing_withStore ha.label_eq).mp
  have hnew (n : String) (owner : ComponentId) (hn : b.Standing n owner) :
      frame.component ∉ (b.store.get owner).children :=
    fun hm => hs.child_ne_open h hn hm hframe rfl
  have hopen (parent : ComponentId) (hp : b.openParent below name = some parent) :
      (Dotted.qualifier name, parent) ∈ b.scope.openNames b.store :=
    Scope.mem_openNames_of_find? (find?_of_openParent hf hp)
  constructor
  · intro n owner child hn hm
    rw [store_withStore, ha.qualifiedName_eq]
    split
    · exact ⟨name, rfl⟩
    · rcases ha.mem_children hm with hm | ⟨e, -⟩
      · exact h.final n owner child (hstanding n owner hn) hm
      · contradiction
  · intro n owner child hn hm
    rw [store_withStore, ha.parentName_eq]
    rcases ha.mem_children hm with hm | ⟨e, hp⟩
    · rw [if_neg fun e => hs.child_ne_open h (hstanding n owner hn) hm hframe e.1]
      exact h.parent n owner child (hstanding n owner hn) hm
    · rw [if_pos ⟨e, by simp [hp]⟩]
      exact congrArg some (hs.standing_unique (.inl (hopen owner hp)) (hstanding n owner hn))
  · intro n owner hn
    have hn := hstanding n owner hn
    exact ha.nodup_children (h.nodup n owner hn) (hnew n owner hn)
  · intro n n' owner owner' child hn hn' hm hm'
    rcases ha.mem_children hm with hm | ⟨e, hp⟩
    · rcases ha.mem_children hm' with hm' | ⟨rfl, -⟩
      · exact h.unique n n' owner owner' child (hstanding n owner hn) (hstanding n' owner' hn')
          hm hm'
      · exact absurd hm (hnew n owner (hstanding n owner hn))
    · subst e
      rcases ha.mem_children hm' with hm' | ⟨-, hp'⟩
      · exact absurd hm' (hnew n' owner' (hstanding n' owner' hn'))
      · exact Option.some.inj (hp.symm.trans hp')
  · intro n owner hm hne
    rw [scope_withStore, store_withStore] at hm ⊢
    rw [Scope.openNames_congr fun f _ => ha.label_eq f.component] at hm
    rw [Scope.find?_congr fun f _ => ha.label_eq f.component]
    by_cases hp : b.openParent below name = some owner
    · rw [Scope.openNames_unique hs.distinct hm (hopen owner hp)]
      exact find?_of_openParent hf hp
    · rw [store_withStore, ha.children_eq, if_neg hp] at hne
      exact h.first n owner hm hne

namespace Closing

variable {name : String} {t : Store} {after : Catalog} {placement : Placement}

theorem standing_top (h : Closing b frame below name t after placement) :
    b.Standing name frame.component := by
  left
  rw [show b.scope = ⟨frame :: below, b.scope.pushed⟩ by rw [← h.frames_eq]]
  exact Scope.mem_openNames_cons.mpr (.inl ⟨h.name_eq.symm, rfl⟩)

theorem standing (h : Closing b frame below name t after placement)
    (hn : b.closeTop.state.Standing n id) : b.Standing n id := by
  have hscope : b.scope = ⟨frame :: below, b.scope.pushed⟩ := by rw [← h.frames_eq]
  rcases hn with hn | hn
  · rw [h.scope_eq, store, h.store_eq,
      Scope.openNames_congr fun f _ => (h.alike.label_eq f.component).trans
        (h.attached.label_eq f.component)] at hn
    left
    rw [hscope]
    exact Scope.mem_openNames_cons.mpr (.inr hn)
  · rw [Catalog.get?, h.table_eq] at hn
    rcases h.get?_cases hn with hn | ⟨rfl, rfl⟩
    · exact .inr hn
    · exact h.standing_top

theorem opened (h : Closing b frame below name t after placement)
    (hn : (n, id) ∈ b.closeTop.state.scope.openNames b.closeTop.state.store) :
    (n, id) ∈ Scope.openNames ⟨below, b.scope.pushed⟩ t := by
  rwa [h.scope_eq, store, h.store_eq,
    Scope.openNames_congr fun f _ => h.alike.label_eq f.component] at hn

theorem found (h : Closing b frame below name t after placement)
    (hn : (n, id) ∈ b.closeTop.state.scope.openNames b.closeTop.state.store)
    (hf : b.scope.find? t n = some id) :
    b.closeTop.state.scope.find? b.closeTop.state.store n = some id := by
  rw [show b.scope = ⟨frame :: below, b.scope.pushed⟩ by rw [← h.frames_eq]] at hf
  rw [h.scope_eq, store, h.store_eq, Scope.find?_congr fun f _ => h.alike.label_eq f.component]
  exact Scope.find?_of_cons hf (h.opened hn)

/-- Unless a package is absorbed, closing a component moves no child. -/
theorem shrinks (h : Closing b frame below name t after placement)
    (hp : placement ≠ .absorbed) : Shrinks (b.withStore t) b.closeTop.state := by
  constructor
  · exact fun n id hn _ => (standing_withStore h.attached.label_eq).mpr (h.standing hn)
  · intro n id _ _
    rw [store, h.store_eq]
    exact h.children_sublist hp id
  · intro n id hn _
    rw [scope_withStore, store_withStore,
      show b.scope = ⟨frame :: below, b.scope.pushed⟩ by rw [← h.frames_eq]]
    exact Scope.mem_openNames_cons.mpr (.inr (h.opened hn))
  · exact fun n id hn _ hf => h.found hn hf
  · intro id _
    rw [store, h.store_eq, h.alike.qualifiedName_eq, store_withStore]
  · intro id _
    rw [store, h.store_eq, h.alike.parentName_eq, store_withStore]

theorem ne_of_absorbed (h : Closing b frame below name t after .absorbed) (hs : Sound b)
    (hn : b.closeTop.state.Standing n id) : id ≠ frame.component := by
  rintro rfl
  have hs' := hs.closeTop (by simp [h.frames_eq])
  have hname : (b.closeTop.state.store.get frame.component).qualifiedName = some name := by
    rw [store, h.store_eq, h.alike.qualifiedName_eq, h.attached.qualifiedName_eq, if_pos rfl]
  rcases hn with hn | hn
  · obtain ⟨inner, f, outer, e, -, hf⟩ := Scope.mem_openNames_iff.mp hn
    rw [hf, hs'.unnamed f (by simp [e])] at hname
    cases hname
  · obtain ⟨existing, -, -, -, rfl⟩ := h.placed.of_absorbed
    have htable : b.catalog.get? n = some frame.component := by
      rwa [Catalog.get?, h.table_eq, Catalog.table_absorb] at hn
    exact hs.ne_open htable (by simp [h.frames_eq]) rfl

/-- A child after a package has been absorbed is a child it had before, or one of the absorbed
package that is now in the package of that name. -/
theorem owner_of_absorbed (h : Closing b frame below name t after .absorbed) (hs : Sound b)
    {existing : ComponentId} (he : b.catalog.get? name = some existing)
    (hafter : after = (b.catalog.withStore t).absorb existing frame.component)
    (hn : b.closeTop.state.Standing n owner)
    (hm : child ∈ (b.closeTop.state.store.get owner).children) :
    child ∈ (t.get owner).children ∨ owner = existing ∧ n = name ∧
      child ∈ (t.get frame.component).children := by
  have hh := (hs.named name existing he).1
  have hframe : frame ∈ b.scope.frames := by simp [h.frames_eq]
  have hne := hs.ne_open he hframe
  rw [store, h.store_eq, hafter,
    Catalog.children_absorb ((h.attached.has_iff existing).mpr hh) hne] at hm
  split at hm
  · rename_i e
    subst e
    rcases List.mem_append.mp (List.mem_filter.mp hm).1 with hm | hm
    · exact .inl hm
    · exact .inr ⟨rfl, hs.standing_unique (h.standing hn) (.inr he), hm⟩
  · exact .inl hm

end Closing

theorem Listed.closeTop_of_absorbed {name : String} {t : Store} {after : Catalog}
    (hl : Listed (b.withStore t)) (h : Closing b frame below name t after .absorbed)
    (hs : Sound b) : Listed b.closeTop.state := by
  obtain ⟨existing, he, -, -, hafter⟩ := h.placed.of_absorbed
  have he : b.catalog.get? name = some existing := he
  have hh := (hs.named name existing he).1
  have hframe : frame ∈ b.scope.frames := by simp [h.frames_eq]
  have hne := hs.ne_open he hframe
  have hstanding (n : String) (id : ComponentId) (hn : b.closeTop.state.Standing n id) :
      (b.withStore t).Standing n id :=
    (standing_withStore h.attached.label_eq).mpr (h.standing hn)
  have hexisting : (b.withStore t).Standing name existing := .inr he
  have hclosed : (b.withStore t).Standing name frame.component :=
    (standing_withStore h.attached.label_eq).mpr h.standing_top
  -- Each child had an owner of the same name.
  have howner (n : String) (owner child : ComponentId) (hn : b.closeTop.state.Standing n owner)
      (hm : child ∈ (b.closeTop.state.store.get owner).children) :
      ∃ before, (b.withStore t).Standing n before ∧ child ∈ (t.get before).children ∧
        (before = owner ∨ before = frame.component ∧ owner = existing) := by
    rcases h.owner_of_absorbed hs he hafter hn hm with hm | ⟨rfl, rfl, hm⟩
    · exact ⟨owner, hstanding n owner hn, hm, .inl rfl⟩
    · exact ⟨frame.component, hclosed, hm, .inr ⟨rfl, rfl⟩⟩
  have hhas : (b.catalog.withStore t).store.Has existing := (h.attached.has_iff existing).mpr hh
  have hchildren := Catalog.children_absorb hhas hne
  rw [← hafter] at hchildren
  constructor
  · intro n owner child hn hm
    obtain ⟨before, hb, hm, -⟩ := howner n owner child hn hm
    rw [store, h.store_eq, h.alike.qualifiedName_eq]
    exact hl.final n before child hb hm
  · intro n owner child hn hm
    obtain ⟨before, hb, hm, -⟩ := howner n owner child hn hm
    rw [store, h.store_eq, h.alike.parentName_eq]
    exact hl.parent n before child hb hm
  · intro n owner hn
    rw [store, h.store_eq, hchildren]
    split
    · refine List.Pairwise.sublist List.filter_sublist ?_
      change List.Nodup _
      rw [List.nodup_append]
      refine ⟨hl.nodup name existing hexisting, hl.nodup name _ hclosed, ?_⟩
      rintro child hm _ hm' rfl
      exact hne (hl.unique name name existing _ child hexisting hclosed hm hm')
    · exact hl.nodup n owner (hstanding n owner hn)
  · intro n n' owner owner' child hn hn' hm hm'
    obtain ⟨before, hb, hm, ho⟩ := howner n owner child hn hm
    obtain ⟨before', hb', hm', ho'⟩ := howner n' owner' child hn' hm'
    obtain rfl := hl.unique n n' before before' child hb hb' hm hm'
    have hx := h.ne_of_absorbed hs hn
    have hx' := h.ne_of_absorbed hs hn'
    rcases ho with rfl | ⟨rfl, rfl⟩
    · rcases ho' with rfl | ⟨e, -⟩
      · rfl
      · exact absurd e hx
    · rcases ho' with rfl | ⟨-, rfl⟩
      · exact absurd rfl hx'
      · rfl
  · intro n owner hm hc
    apply h.found hm
    have howned : owner ≠ existing := by
      rintro rfl
      obtain ⟨inner, f, outer, e, -, hf⟩ := Scope.mem_openNames_iff.mp (h.opened hm)
      have e : below = inner ++ f :: outer := e
      exact hs.ne_open he (by simp [h.frames_eq, e]) hf
    rw [store, h.store_eq, hchildren, if_neg howned] at hc
    refine hl.first n owner ?_ hc
    rw [scope_withStore, show b.scope = ⟨frame :: below, b.scope.pushed⟩ by rw [← h.frames_eq]]
    exact Scope.mem_openNames_cons.mpr (.inr (h.opened hm))

theorem Listed.closeTop (hl : Listed b) (hs : Sound b) (hne : b.scope.frames ≠ []) :
    Listed b.closeTop.state := by
  obtain ⟨frame, below, hf⟩ := List.exists_cons_of_ne_nil hne
  obtain ⟨name, t, after, placement, hc⟩ := hs.closing hf
  have hl := hl.attach hs hf hc.attached
  by_cases hp : placement = .absorbed
  · subst hp
    exact hl.closeTop_of_absorbed hc hs
  · exact hl.shrink (hc.shrinks hp)

/-- A component that is about to be replaced is struck off wherever it is listed. -/
theorem Listed.strikes (hl : Listed b) (hs : Sound b) (hlab : Labelled b)
    {name : String} {t : Store} {after : Catalog} {placement : Placement}
    (h : Closing b frame below name t after placement) {existing : ComponentId}
    (he : b.catalog.get? name = some existing)
    (hn : b.Standing n owner) (hm : existing ∈ (b.store.get owner).children) :
    b.openParent below name = some owner ∨
      (b.catalog.withStore t).ownerAfter name existing frame.component = some owner := by
  have hq := (hs.named name existing he).2
  have hp := hl.parent n owner existing hn hm
  obtain ⟨s, -, hnamed⟩ := hlab.names existing name hq
  rw [hp] at hnamed
  obtain ⟨hne, hdot, rfl⟩ := hnamed
  rcases hn with hn | hn
  · left
    rw [openParent, Dotted.qualifier_append hdot, if_neg hne]
    have hscope : b.scope = ⟨frame :: below, b.scope.pushed⟩ := by rw [← h.frames_eq]
    have hfirst := hl.first n owner hn (List.ne_nil_of_mem hm)
    rw [hscope] at hfirst hn
    refine Scope.find?_of_cons hfirst ?_
    rcases Scope.mem_openNames_cons.mp hn with ⟨e, -⟩ | hn
    · exact absurd (h.name_eq.symm.trans e.symm) (Dotted.append_dot_ne_self n s)
    · exact hn
  · right
    have hframe : frame ∈ b.scope.frames := by simp [h.frames_eq]
    have hne := hs.ne_open he hframe
    have hpt : (t.get existing).parentName = some n := by
      rw [h.attached.parentName_eq, if_neg fun e => hne e.1, hp]
    have hput := Table.get?_put b.catalog.table (n ++ "." ++ s) frame.component n
    rw [if_neg (Dotted.append_dot_ne_self n s).symm] at hput
    simp only [Catalog.ownerAfter, Catalog.store_withStore, hpt, Option.bind_some]
    exact hput.trans hn

theorem Kept.closeTop (hk : Kept absorbed b) (hl : Listed b) (hs : Sound b) (hlab : Labelled b)
    (hpolicy : b.catalog.policy = .lastWriteWins) (hne : b.scope.frames ≠ []) :
    Kept (absorbed ++ [b].filterMap absorbed?) b.closeTop.state := by
  obtain ⟨frame, below, hf⟩ := List.exists_cons_of_ne_nil hne
  obtain ⟨name, t, after, placement, hc⟩ := hs.closing hf
  have hframe : frame ∈ b.scope.frames := by simp [hf]
  intro n owner child q hn hm hq
  have hstand := hc.standing hn
  rw [store, hc.store_eq, hc.alike.qualifiedName_eq, hc.attached.qualifiedName_eq] at hq
  rw [store, hc.store_eq, hc.alike.kind_eq, Catalog.get?, hc.table_eq]
  -- A child that was listed before is as it was, and the closed one has the name of its own.
  have hold (before : ComponentId) (hb : b.Standing n before)
      (hm : child ∈ (b.store.get before).children) :
      b.catalog.get? q = some child ∨
        child ∈ absorbed ++ [b].filterMap absorbed? ∧ (t.get child).kind = .package := by
    rw [if_neg (hs.child_ne_open hl hb hm hframe)] at hq
    rw [hc.attached.kind_eq]
    exact hk.mono _ n before child q hb hm hq
  have hnew (e : child = frame.component) : q = name := by
    rw [if_pos e] at hq
    exact (Option.some.inj hq).symm
  have hput (h : b.catalog.get? q = some child) (hq : q ≠ name) :
      (b.catalog.table.put name frame.component).get? q = some child := by
    rw [Table.get?_put, if_neg hq]
    exact h
  cases placement with
  | added =>
    obtain ⟨hg, rfl⟩ := hc.placed.of_added
    rw [store, hc.store_eq] at hm
    rcases hc.attached.mem_children hm with hm | ⟨e, -⟩
    · refine (hold owner hstand hm).imp_left fun h => hput h ?_
      rintro rfl
      cases hg.symm.trans h
    · exact .inl (by rw [hnew e, e, Table.get?_put, if_pos rfl])
  | absorbed =>
    have habsorbed := hc.absorbed?_eq
    obtain ⟨existing, he, -, hk, rfl⟩ := hc.placed.of_absorbed
    rw [Catalog.table_absorb]
    have hself (e : child = frame.component) :
        child ∈ absorbed ++ [b].filterMap absorbed? ∧ (t.get child).kind = .package := by
      rw [e]
      refine ⟨List.mem_append_right _ (List.mem_filterMap.mpr ?_), hk⟩
      exact ⟨b, List.mem_singleton_self b, habsorbed⟩
    rcases hc.owner_of_absorbed hs he rfl hn hm with hm | ⟨rfl, rfl, hm⟩
    · rcases hc.attached.mem_children hm with hm | ⟨e, -⟩
      · exact hold owner hstand hm
      · exact .inr (hself e)
    · rcases hc.attached.mem_children hm with hm | ⟨e, -⟩
      · exact hold frame.component hc.standing_top hm
      · exact .inr (hself e)
  | refused =>
    exact absurd rfl (hc.ne_refused hpolicy)
  | replaced =>
    obtain ⟨existing, he, -, rfl⟩ := hc.placed.of_replaced
    have hstruck : child ∈ (t.get owner).children ∧ child ≠ existing := by
      rw [store, hc.store_eq, Catalog.children_replace] at hm
      split at hm
      · obtain ⟨hm, hne⟩ := List.mem_filter.mp hm
        exact ⟨hm, by simpa using hne⟩
      · rename_i hno
        refine ⟨hm, ?_⟩
        rintro rfl
        rcases hc.attached.mem_children hm with hm | ⟨e, -⟩
        · exact hno (hl.strikes hs hlab hc he hstand hm)
        · exact hs.ne_open he hframe e
    rw [Catalog.table_replace]
    rcases hc.attached.mem_children hstruck.1 with hm | ⟨e, -⟩
    · refine (hold owner hstand hm).imp_left fun h => hput h ?_
      rintro rfl
      exact hstruck.2 (Option.some.inj (h.symm.trans he))
    · exact .inl (by rw [hnew e, e, Table.get?_put, if_pos rfl])

end CodeAtlas.Builder
