import CodeAtlas.Proofs.Builder.Sound

/-! # Qualified names

If no name given to a component has a dot, packages apart, then a component that closes is attached
exactly if it is nested in another one, its qualified name is the name of its parent, a dot and its
short name, and a component without a parent is named by its short name alone.
-/

namespace CodeAtlas

def Component.NamedByParent (c : Component) : Prop :=
  ∀ q, c.qualifiedName = some q → ∃ s, c.shortName = some s ∧
    match c.parentName with
    | none => q = s ∧ (Dotted.hasDot s = false ∨ c.kind = .package)
    | some p => p ≠ "" ∧ Dotted.hasDot s = false ∧ q = p ++ "." ++ s

theorem Component.NamedByParent.parentName_eq {c : Component} (h : c.NamedByParent) {q : String}
    (hq : c.qualifiedName = some q) (hk : c.kind ≠ .package) : c.parentName = Dotted.parent? q := by
  obtain ⟨s, -, hs⟩ := h q hq
  unfold Dotted.parent?
  cases hp : c.parentName with
  | none =>
    rw [hp] at hs
    obtain ⟨rfl, hdot | hpackage⟩ := hs
    · rw [if_pos (Dotted.qualifier_of_dotless hdot)]
    · exact absurd hpackage hk
  | some p =>
    rw [hp] at hs
    obtain ⟨hne, hdot, rfl⟩ := hs
    rw [Dotted.qualifier_append hdot, if_neg hne]

/-- The operation gives no name with a dot, unless it begins a package. -/
def Op.Dotless : Op → Prop
  | .openComponent _ _ shortName _ => ∀ name, shortName = some name → Dotted.hasDot name = false
  | .nameDeclarator name => Dotted.hasDot name = false
  | _ => True

namespace Builder

variable {b b' : Builder} {frame top : Frame} {below : List Frame} {c : Component}

structure Labelled (b : Builder) : Prop where
  frames : ∀ inner f outer, b.scope.frames = inner ++ f :: outer →
    Dotted.hasDot (b.store.get f.component).label = false ∨
      outer = [] ∧ (b.store.get f.component).kind = .package
  names : ∀ id, (b.store.get id).NamedByParent

theorem Labelled.of_eq (h : Labelled b) (hs : b'.catalog.store = b.catalog.store)
    (hf : b'.scope = b.scope) : Labelled b' := by
  obtain ⟨h₁, h₂⟩ := h
  unfold store at *
  exact ⟨by simp only [store, hs, hf]; exact h₁, by simp only [store, hs]; exact h₂⟩

theorem Labelled.vacate (h : Labelled b) (he : Vacated b b') : Labelled b' where
  frames inner f outer hf := by simp [he.frames_eq] at hf
  names id := by
    rw [store, he.store_eq]
    exact h.names id

theorem namedByParent_of_unnamed (h : c.qualifiedName = none) : c.NamedByParent := by
  intro q hq
  rw [h] at hq
  cases hq

theorem namedByParent_of_root {q s : String} (hq : c.qualifiedName = some q)
    (hs : c.shortName = some s) (hp : c.parentName = none) (he : q = s)
    (hk : Dotted.hasDot s = false ∨ c.kind = .package) : c.NamedByParent := by
  intro q' hq'
  refine ⟨s, hs, ?_⟩
  rw [hp, ← Option.some.inj (hq.symm.trans hq')]
  exact ⟨he, hk⟩

theorem namedByParent_of_parent {q s p : String} (hq : c.qualifiedName = some q)
    (hs : c.shortName = some s) (hp : c.parentName = some p) (hne : p ≠ "")
    (hk : Dotted.hasDot s = false) (he : q = p ++ "." ++ s) : c.NamedByParent := by
  intro q' hq'
  refine ⟨s, hs, ?_⟩
  rw [hp, ← Option.some.inj (hq.symm.trans hq')]
  exact ⟨hne, hk, he⟩

theorem Labelled.adding (h : Labelled b) (hs : Sound b) (hc : c.Blank) (hf : Fits b frame c)
    (hl : Dotted.hasDot c.label = false ∨ b.scope.frames = [] ∧ c.kind = .package) :
    Labelled (b.adding frame c) where
  frames inner f outer e := by
    rw [frames_adding] at e
    rw [store_adding]
    cases inner with
    | nil =>
      obtain ⟨rfl, rfl⟩ := List.cons.inj e
      rw [hf.component_eq, Store.get_add_new]
      exact hl
    | cons g inner =>
      have e : b.scope.frames = inner ++ f :: outer := (List.cons.inj e).2
      rw [Store.get_add_of_has (hs.has f (by simp [e]))]
      exact h.frames inner f outer e
  names id := by
    rw [store_adding, Store.get_add]
    split
    · exact namedByParent_of_unnamed hc.qualifiedName_eq
    · exact h.names id

theorem Labelled.enrich (h : Labelled b) {id : ComponentId} {f : Component → Component}
    (hf : Component.Enriched f) : Labelled (b.withStore (b.store.modify id f)) where
  frames inner g outer e := by
    rw [store_withStore, Store.field_modify Component.kind hf.kind_eq,
      Store.field_modify Component.label fun c => by simp only [Component.label, hf.shortName_eq]]
    exact h.frames inner g outer e
  names other := by
    have hn := h.names other
    unfold Component.NamedByParent at hn ⊢
    rwa [store_withStore, Store.field_modify Component.qualifiedName hf.qualifiedName_eq,
      Store.field_modify Component.shortName hf.shortName_eq,
      Store.field_modify Component.parentName hf.parentName_eq,
      Store.field_modify Component.kind hf.kind_eq]

theorem Labelled.rename (h : Labelled b) (hs : Sound b) (ht : b.scope.top? = some top)
    {name : String} (hn : Dotted.hasDot name = false) :
    Labelled (b.withStore (b.store.modify top.component ({ · with shortName := some name }))) := by
  obtain ⟨below, hf⟩ := frames_of_top? ht
  have htop : top ∈ b.scope.frames := by simp [hf]
  have hget := Store.get_modify (f := ({ · with shortName := some name })) (hs.has top htop)
  constructor
  · intro inner f outer e
    rw [store_withStore, hget]
    split
    · refine .inl (Component.hasDot_label fun other ho => ?_)
      rwa [← Option.some.inj ho]
    · exact h.frames inner f outer e
  · intro id
    rw [store_withStore, hget]
    split
    · exact namedByParent_of_unnamed (hs.unnamed top htop)
    · exact h.names id

/-- A component that closes is attached exactly if it is nested in another one, and then its name
is cut where that one's name ends. -/
theorem Labelled.openParent_cases (h : Labelled b) (hs : Sound b)
    (hf : b.scope.frames = frame :: below) {name : String}
    (hname : Scope.nameIn b.store frame below = name) :
    (frame.parent = none ∧ b.openParent below name = none ∧
      name = (b.store.get frame.component).label ∧
      (Dotted.hasDot (b.store.get frame.component).label = false ∨
        (b.store.get frame.component).kind = .package)) ∨
    ∃ parent, b.openParent below name = some parent ∧ Dotted.qualifier name ≠ "" ∧
      Dotted.hasDot (b.store.get frame.component).label = false ∧
      name = Dotted.qualifier name ++ "." ++ (b.store.get frame.component).label := by
  have hn := hs.nested
  rw [hf] at hn
  have hl := h.frames [] frame below hf
  rcases hn.parent_below with hp | ⟨inner, f, outer, rfl, hp⟩
  · left
    have hlabel : name = (b.store.get frame.component).label :=
      hname.symm.trans (Scope.nameIn_of_parent_none hp below)
    refine ⟨hp, ?_, hlabel, hl.imp id And.right⟩
    unfold openParent
    rcases hl with hl | ⟨rfl, _⟩
    · rw [hlabel, if_pos (Dotted.qualifier_of_dotless hl)]
    · split <;> rfl
  · right
    have hl : Dotted.hasDot (b.store.get frame.component).label = false := by
      rcases hl with hl | ⟨e, _⟩
      · exact hl
      · simp at e
    have hlabel := hname.symm.trans (hn.tail.nameIn_of_parent hp)
    have hqualifier : Dotted.qualifier name = Scope.nameIn b.store f outer := by
      rw [hlabel, Dotted.qualifier_append hl]
    have hne : Dotted.qualifier name ≠ "" := by
      rw [hqualifier]
      exact hn.tail.of_append.nameIn_ne_empty
    have hopen : (Dotted.qualifier name, f.component) ∈
        Scope.openNames ⟨inner ++ f :: outer, b.scope.pushed⟩ b.store :=
      Scope.mem_openNames_iff.mpr ⟨inner, f, outer, rfl, hqualifier, rfl⟩
    obtain ⟨parent, hparent⟩ := Scope.find?_of_mem_openNames hopen
    refine ⟨parent, ?_, hne, hl, ?_⟩
    · rw [openParent, if_neg hne, hparent]
    · rw [hqualifier]
      exact hlabel

theorem Labelled.closeTop (h : Labelled b) (hs : Sound b) (hne : b.scope.frames ≠ []) :
    Labelled b.closeTop.state := by
  obtain ⟨frame, below, hf⟩ := List.exists_cons_of_ne_nil hne
  obtain ⟨name, t, after, placement, hc⟩ := hs.closing hf
  have ha := hc.attached
  have hl := hc.alike
  constructor
  · intro inner f outer e
    rw [hc.scope_eq] at e
    rw [store, hc.store_eq, hl.label_eq, hl.kind_eq, ha.label_eq, ha.kind_eq]
    exact h.frames (frame :: inner) f outer (hf.trans (congrArg (frame :: ·) e))
  · intro id
    have hshort := (hl.shortName_eq id).trans (ha.shortName_eq id)
    have hqualified := (hl.qualifiedName_eq id).trans (ha.qualifiedName_eq id)
    have hparent := (hl.parentName_eq id).trans (ha.parentName_eq id)
    have hkind := (hl.kind_eq id).trans (ha.kind_eq id)
    rw [store, hc.store_eq]
    by_cases e : id = frame.component
    · subst e
      rw [if_pos rfl] at hshort hqualified
      rcases h.openParent_cases hs hf hc.name_eq with ⟨-, hp, hq, hk⟩ | ⟨parent, hp, hq, hk, hn⟩
      · rw [hp, if_neg (by simp), hs.unattached frame (by simp [hf])] at hparent
        refine namedByParent_of_root hqualified hshort hparent hq ?_
        rwa [hkind]
      · rw [hp, if_pos ⟨rfl, rfl⟩] at hparent
        exact namedByParent_of_parent hqualified hshort hparent hq hk hn
    · rw [if_neg e] at hshort hqualified
      rw [if_neg fun h => e h.1] at hparent
      have hold := h.names id
      unfold Component.NamedByParent at hold ⊢
      rwa [hqualified, hshort, hparent, hkind]

theorem Labelled.step (h : Labelled b) (hs : Sound b) {op : Op} (ho : op.Dotless) :
    Labelled (b.step op).state := by
  have he := b.step_effect op
  generalize b.step op = o at he
  -- Closing needs the builder to be sound all along.
  have hclose (n : Nat) (hn : n ≤ b.scope.frames.length) : Labelled (closeMany n b).state :=
    hs.kept_closeMany (fun _ hs h hne => h.closeTop hs hne) h hn
  cases he with
  | still ha => exact h.of_eq (congrArg Catalog.store ha.catalog_eq) ha.scope_eq
  | underflow => exact h
  | heldOpen => exact h
  | began name prov he =>
    have hs' := hs.vacate he.toVacated
    refine (h.vacate he.toVacated).adding hs' (b.blank_package name prov) (hs'.fits_inner _)
      (.inr ?_)
    exact ⟨he.frames_eq, rfl⟩
  | opened kind prov shortName withImports =>
    exact h.adding hs (b.blank_fresh kind prov shortName withImports) (hs.fits_inner _)
      (.inl (Component.hasDot_label ho))
  | renamed name _ ht => exact h.rename hs ht ho
  | joined name _ ht =>
    refine h.adding hs (blank_sibling _ name) (hs.fits_sibling ht _)
      (.inl (Component.hasDot_label fun other he => ?_))
    rwa [← Option.some.inj he]
  | enriched what => exact h.enrich (what.enriched b.resolver)
  | @closed top _ _ =>
    rw [state_andThen_done]
    exact hclose _ (b.countP_le_length top)
  | ended =>
    rw [state_andThen_done]
    exact hclose _ le_rfl

end Builder

end CodeAtlas
