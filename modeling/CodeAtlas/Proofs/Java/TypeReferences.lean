import Mathlib.Data.List.Forall2
import CodeAtlas.Proofs.Java.Learning
import CodeAtlas.Proofs.Java.Muted
import CodeAtlas.Proofs.Java.TypeNames

/-! # References to types

The walk of a type records the name that the type spells out, and walks the type arguments and
annotations inside it. Nodes decide whether they are part of a longer name by their parent alone. So
in a qualifier that is no plain name, as it has type arguments, the name is recorded once more.
-/

namespace CodeAtlas.Java

open Builder Place

/-- What a walk comes to: the name written out at a place is recorded, or a place is walked. -/
inductive Mention where
  | reference (p : Place)
  | aside (p : Place)

namespace Mention

def reference? : Mention → Option Place
  | reference p => some p
  | aside _ => none

def aside? : Mention → Option Place
  | reference _ => none
  | aside p => some p

def enrichment (p : Place) : Enrichment := .typeReference p.bareName p.startLine

def follow (b : Builder) : Mention → Outcome Builder Unit
  | reference p => b.run [.enrich (enrichment p)]
  | aside p => Java.follow b p.walk

def references (r : Resolver) (refs : Place → List TypeReference) : Mention → List TypeReference
  | reference p => [⟨r.resolve p.bareName, p.startLine⟩]
  | aside p => refs p

end Mention

def heed (b : Builder) : List Mention → Outcome Builder Unit
  | [] => .ok b ()
  | mention :: rest => (mention.follow b).andThen (heed · rest)

variable {b : Builder} {p q : Place} {top : Frame} {ms : List Mention}

theorem heed_append (b : Builder) (first second : List Mention) :
    heed b (first ++ second) = (heed b first).andThen (heed · second) := by
  induction first generalizing b with
  | nil => rfl
  | cons mention rest ih =>
    rw [List.cons_append, heed, heed, Outcome.andThen_assoc]
    simp only [ih]

/-- Following the visits is heeding the mentions, whatever the builder. -/
def ComesTo (visits : List Visit) (mentions : List Mention) : Prop :=
  ∀ b, follow b visits = heed b mentions

namespace ComesTo

theorem append {visits visits' : List Visit} {ms' : List Mention} (h : ComesTo visits ms)
    (h' : ComesTo visits' ms') : ComesTo (visits ++ visits') (ms ++ ms') := by
  intro b
  rw [follow_append, heed_append, h b]
  exact congrArg _ (funext h')

theorem flatMap {ps : List Place} {f : Place → List Mention} (h : ∀ p ∈ ps, ComesTo p.walk (f p)) :
    ComesTo (ps.flatMap Place.walk) (ps.flatMap f) := by
  induction ps with
  | nil => exact fun _ => rfl
  | cons p rest ih =>
    obtain ⟨hp, hrest⟩ := List.forall_mem_cons.mp h
    exact hp.append (ih hrest)

theorem asides (ps : List Place) : ComesTo (ps.flatMap Place.walk) (ps.map .aside) := by
  rw [List.map_eq_flatMap]
  exact flatMap fun p _ b => (andThen_ok_unit _).symm

theorem silent (henter : ∀ e, p.enterOps e = []) (hexit : p.exitOps = [])
    (h : ComesTo (p.namedChildren.flatMap Place.walk) ms) : ComesTo p.walk ms := by
  intro b
  rw [follow_walk_of_ops henter hexit, run, Outcome.andThen_ok, h b]

theorem recorded (henter : ∀ e, p.enterOps e = [.enrich (.typeReference p.bareName p.startLine)])
    (hexit : p.exitOps = []) (h : ComesTo (p.namedChildren.flatMap Place.walk) ms) :
    ComesTo p.walk (.reference p :: ms) := by
  intro b
  rw [follow_walk_of_ops henter hexit]
  exact congrArg _ (funext h)

theorem wrapping (hf : p.form ∈ wrappingForms)
    (h : (∀ c ∈ p.namedChildren, c.StandsAlone) → ComesTo (p.namedChildren.flatMap Place.walk) ms) :
    ComesTo p.walk ms :=
  silent (enterOps_of_wrapping hf) (exitOps_of_wrapping hf)
    (h fun _ hc => standsAlone_of_wrapping hf hc)

end ComesTo

structure IsLeaf (form : Form) (p : Place) : Prop where
  form_eq : p.form = form
  namedChildren_eq : p.namedChildren = []
  text_ne : p.text ≠ ""

namespace IsLeaf

variable {form : Form}

theorem comesTo (h : IsLeaf form p) : ComesTo (p.namedChildren.flatMap Place.walk) [] := by
  rw [h.namedChildren_eq]
  exact fun _ => rfl

theorem isPlainName (h : IsLeaf .typeIdentifier p) : p.isPlainName := by
  simp [Place.isPlainName, h.form_eq]

theorem bareName_ne (h : IsLeaf .typeIdentifier p) : p.bareName ≠ "" := by
  rw [bareName_of_name (.inl h.form_eq)]
  exact h.text_ne

end IsLeaf

def IsAnnotation (p : Place) : Prop := p.form = .markerUse ∨ p.form = .annotationUse

/-- The ways in which the grammar builds a type at a place. -/
inductive TypeAt : Place → Type
  | name {p : Place} (leaf : IsLeaf .typeIdentifier p) : TypeAt p
  | primitive {p : Place} (leaf : IsLeaf .primitiveType p) : TypeAt p
  | qualified {p q last : Place} (qualifier : TypeAt q) (annotations : List Place)
      (form_eq : p.form = .scopedTypeIdentifier)
      (children_eq : p.namedChildren = q :: (annotations ++ [last]))
      (annotations_are : ∀ a ∈ annotations, IsAnnotation a)
      (leaf : IsLeaf .typeIdentifier last) : TypeAt p
  | generic {p q : Place} (head : TypeAt q) (arguments : Place) (form_eq : p.form = .genericType)
      (children_eq : p.namedChildren = [q, arguments]) (head_is : q.isPlainName)
      (arguments_are : arguments.form = .typeArguments) : TypeAt p
  | array {p q : Place} (element : TypeAt q) (dimensions : List Place)
      (form_eq : p.form = .arrayType) (children_eq : p.namedChildren = q :: dimensions)
      (element_is : p.childInField? "element" = some q)
      (dimensions_are : ∀ d ∈ dimensions, d.form = .other ∧ ∀ a ∈ d.namedChildren, IsAnnotation a) :
      TypeAt p
  | annotated {p q : Place} (type : TypeAt q) (annotations : List Place)
      (form_eq : p.form = .annotatedType) (children_eq : p.namedChildren = annotations ++ [q])
      (annotations_are : ∀ a ∈ annotations, IsAnnotation a) : TypeAt p

namespace TypeAt

def head : {p : Place} → TypeAt p → Place
  | p, name _ | p, primitive _ | p, qualified .. => p
  | _, generic t .. | _, array t .. | _, annotated t .. => t.head

/-- The qualifiers in the name of a type, the longest one first. -/
def qualifiers : {p : Place} → TypeAt p → List Place
  | _, name _ | _, primitive _ => []
  | _, @qualified _ q _ t .. => q :: t.qualifiers
  | _, generic t .. | _, array t .. | _, annotated t .. => t.qualifiers

/-- The places that write out those qualifiers that are no plain names. -/
def cutOff : {p : Place} → TypeAt p → List Place
  | _, name _ | _, primitive _ => []
  | _, @qualified _ q _ t .. => (if q.isPlainName then [] else [t.head]) ++ t.cutOff
  | _, generic t .. | _, array t .. | _, annotated t .. => t.cutOff

/-- The type arguments and annotations of a type, and those in its qualifiers. -/
def asides : {p : Place} → TypeAt p → List Place
  | _, name _ | _, primitive _ => []
  | _, qualified t annotations .. => t.asides ++ annotations
  | _, generic t arguments .. => t.asides ++ [arguments]
  | _, array t dimensions .. => t.asides ++ dimensions.flatMap namedChildren
  | _, annotated t annotations .. => annotations ++ t.asides

/-- What the walk of a type comes to, for one that is part of a longer name or is not. -/
def mentions : {p : Place} → (part : Bool) → TypeAt p → List Mention
  | p, part, name _ => if part then [] else [.reference p]
  | p, _, primitive _ => [.reference p]
  | p, part, qualified t annotations .. =>
    (if part then [] else [.reference p]) ++ (t.mentions true ++ annotations.map .aside)
  | _, _, generic t arguments .. => t.mentions false ++ [.aside arguments]
  | _, _, array t dimensions .. =>
    t.mentions false ++ (dimensions.flatMap namedChildren).map .aside
  | _, _, annotated t annotations .. => annotations.map .aside ++ t.mentions false

theorem typeName?_of_annotation (h : IsAnnotation p) : p.typeName? = none := by
  obtain ⟨source, ⟨label, children⟩, above⟩ := p
  have h : Form.ofType label.type = .markerUse ∨ Form.ofType label.type = .annotationUse := h
  rcases h with h | h <;> simp [Place.typeName?, Java.typeName?, h]

theorem exists_name (t : TypeAt p) : ∃ name, p.typeName? = some name ∧ name ≠ "" := by
  induction t with
  | name leaf => exact ⟨_, typeName?_of_name (.inl leaf.form_eq), leaf.text_ne⟩
  | primitive leaf => exact ⟨_, typeName?_of_name (.inr leaf.form_eq), leaf.text_ne⟩
  | @qualified p q last _ annotations form_eq children_eq annotations_are leaf ih =>
    obtain ⟨qname, hq, hne⟩ := ih
    have hnone : annotations.filterMap segment? = [] :=
      List.filterMap_eq_nil_iff.mpr fun a ha => by
        rw [segment?, typeName?_of_annotation (annotations_are a ha), Option.filter_none]
    have hlast : last.segment? = some last.text :=
      segment?_of_typeName? (typeName?_of_name (.inl leaf.form_eq)) leaf.text_ne
    refine ⟨qname ++ "." ++ last.text, ?_, by simp⟩
    rw [typeName?_of_scoped form_eq, children_eq,
      List.filterMap_cons_some (segment?_of_typeName? hq hne), List.filterMap_append, hnone,
      List.nil_append, List.filterMap_cons_some hlast]
    rfl
  | generic _ _ form_eq children_eq _ _ ih =>
    rwa [typeName?_of_generic form_eq (by rw [children_eq]; rfl)]
  | array _ _ form_eq _ element_is _ ih => rwa [typeName?_of_array form_eq element_is]
  | annotated _ _ form_eq children_eq _ ih =>
    rwa [typeName?_of_annotated form_eq (by rw [children_eq, List.getLast?_concat])]

theorem bareName_ne (t : TypeAt p) : p.bareName ≠ "" := by
  obtain ⟨name, hname, hne⟩ := t.exists_name
  rwa [bareName, hname, Option.getD_some]

theorem head_of_isPlainName (t : TypeAt p) (h : p.isPlainName) : t.head = p := by
  cases t with
  | name | primitive | qualified => rfl
  | generic _ _ form_eq | array _ _ form_eq | annotated _ _ form_eq =>
    simp [isPlainName, form_eq] at h

theorem spells_head (t : TypeAt p) : Spells p t.head := by
  induction t with
  | name leaf => exact .self (.inl leaf.isPlainName)
  | primitive leaf => exact .self (.inr leaf.form_eq)
  | qualified _ _ form_eq => exact .self (.inl (by simp [isPlainName, form_eq]))
  | generic t _ form_eq children_eq head_is _ ih =>
    rw [head, t.head_of_isPlainName head_is]
    exact .generic form_eq (by rw [children_eq]; rfl) head_is
  | @array p q _ _ form_eq children_eq element_is _ ih =>
    have hm : q ∈ p.namedChildren := by simp [children_eq]
    exact .array form_eq element_is (List.mem_filter.mp hm).2 ih
  | annotated _ _ form_eq children_eq _ ih =>
    exact .annotated form_eq (by rw [children_eq, List.getLast?_concat]) ih

theorem spells_cutOff (t : TypeAt p) :
    List.Forall₂ Spells (t.qualifiers.filter (!·.isPlainName)) t.cutOff := by
  induction t with
  | name | primitive => exact .nil
  | @qualified _ q _ t _ _ _ _ _ ih =>
    rw [qualifiers, cutOff, List.filter_cons]
    by_cases h : q.isPlainName
    · simpa [h] using ih
    · simpa [h] using ⟨t.spells_head, ih⟩
  | generic _ _ _ _ _ _ ih | array _ _ _ _ _ _ ih | annotated _ _ _ _ _ ih => exact ih

theorem cutOff_eq_nil_iff (t : TypeAt p) :
    t.cutOff = [] ↔ ∀ q ∈ t.qualifiers, q.isPlainName := by
  rw [← List.length_eq_zero_iff, ← t.spells_cutOff.length_eq, List.length_eq_zero_iff,
    List.filter_eq_nil_iff]
  simp

/-- The walk of a type, as its parent is. -/
theorem comesTo_walk (t : TypeAt p) :
    (p.StandsAlone → ComesTo p.walk (t.mentions false)) ∧
      (p.parentForm? = some .scopedTypeIdentifier → ComesTo p.walk (t.mentions true)) := by
  induction t with
  | @name p leaf =>
    have hplain := leaf.isPlainName
    have hexit := exitOps_of_writesName (.inl hplain)
    have henter (ha : p.StandsAlone) := enterOps_of_writesName (.inl hplain) ha leaf.bareName_ne
    exact ⟨fun ha => .recorded (henter ha) hexit leaf.comesTo,
      fun hscoped => .silent (enterOps_of_part hplain hscoped) hexit leaf.comesTo⟩
  | @primitive p leaf =>
    -- Primitive types do not look at their parents.
    have hwalk : ComesTo p.walk [.reference p] :=
      .recorded (enterOps_of_primitive leaf.form_eq) (exitOps_of_writesName (.inr leaf.form_eq))
        leaf.comesTo
    exact ⟨fun _ => hwalk, fun _ => hwalk⟩
  | @qualified p q last t annotations form_eq children_eq annotations_are leaf ih =>
    have hplain : p.isPlainName := by simp [isPlainName, form_eq]
    have hexit := exitOps_of_writesName (.inl hplain)
    have hpart (c : Place) (hc : c ∈ p.namedChildren) :
        c.parentForm? = some .scopedTypeIdentifier := by
      rw [parentForm?_of_mem hc, form_eq]
    have hlast : ComesTo last.walk [] :=
      .silent (enterOps_of_part leaf.isPlainName (hpart last (by simp [children_eq])))
        (exitOps_of_writesName (.inl leaf.isPlainName)) leaf.comesTo
    have hchildren : ComesTo (p.namedChildren.flatMap Place.walk)
        (t.mentions true ++ annotations.map .aside) := by
      have hrest := (ComesTo.asides annotations).append hlast
      rw [List.append_nil] at hrest
      rw [children_eq, List.flatMap_cons, List.flatMap_append, List.flatMap_singleton]
      exact (ih.2 (hpart q (by simp [children_eq]))).append hrest
    have hne := (qualified t annotations form_eq children_eq annotations_are leaf).bareName_ne
    exact ⟨fun ha => .recorded (enterOps_of_writesName (.inl hplain) ha hne) hexit hchildren,
      fun hscoped => .silent (enterOps_of_part hplain hscoped) hexit hchildren⟩
  | @generic p q t arguments form_eq children_eq head_is _ ih =>
    -- The head has this node as its parent, and not the name that this node may be part of.
    have hwalk : ComesTo p.walk (t.mentions false ++ [.aside arguments]) := by
      refine .wrapping (by simp [form_eq, wrappingForms]) fun hall => ?_
      rw [children_eq] at hall ⊢
      exact (ih.1 (hall q (by simp))).append (.asides [arguments])
    exact ⟨fun _ => hwalk, fun _ => hwalk⟩
  | @array p q t dimensions form_eq children_eq element_is dimensions_are ih =>
    have hwalk : ComesTo p.walk
        (t.mentions false ++ (dimensions.flatMap namedChildren).map .aside) := by
      refine .wrapping (by simp [form_eq, wrappingForms]) fun hall => ?_
      rw [children_eq] at hall ⊢
      refine (ih.1 (hall q (by simp))).append ?_
      rw [List.map_flatMap]
      refine .flatMap fun d hd => .wrapping ?_ fun _ => .asides d.namedChildren
      simp [(dimensions_are d hd).1, wrappingForms]
    exact ⟨fun _ => hwalk, fun _ => hwalk⟩
  | @annotated p q t annotations form_eq children_eq _ ih =>
    have hwalk : ComesTo p.walk (annotations.map .aside ++ t.mentions false) := by
      refine .wrapping (by simp [form_eq, wrappingForms]) fun hall => ?_
      rw [children_eq] at hall ⊢
      rw [List.flatMap_append, List.flatMap_singleton]
      exact (ComesTo.asides annotations).append (ih.1 (hall q (by simp)))
    exact ⟨fun _ => hwalk, fun _ => hwalk⟩

theorem references_mentions (t : TypeAt p) (part : Bool) :
    (t.mentions part).filterMap Mention.reference? =
      (if part && p.isPlainName then [] else [t.head]) ++ t.cutOff := by
  have hasides (ps : List Place) : (ps.map Mention.aside).filterMap Mention.reference? = [] := by
    simp [Mention.reference?]
  induction t generalizing part with
  | name leaf =>
    cases part <;> simp [mentions, Mention.reference?, leaf.isPlainName, head, cutOff]
  | primitive leaf => simp [mentions, Mention.reference?, isPlainName, leaf.form_eq, head, cutOff]
  | @qualified p q _ t _ form_eq _ _ _ ih =>
    have hp : p.isPlainName := by simp [isPlainName, form_eq]
    rw [mentions, List.filterMap_append, List.filterMap_append, ih, hasides, cutOff, hp]
    cases part <;> simp [Mention.reference?, head]
  | generic t _ form_eq _ _ _ ih | array t _ form_eq _ _ _ ih | annotated t _ form_eq _ _ ih =>
    rw [mentions, List.filterMap_append, ih]
    simp [Mention.reference?, isPlainName, form_eq, head, cutOff]

theorem asides_mentions (t : TypeAt p) (part : Bool) :
    (t.mentions part).filterMap Mention.aside? = t.asides := by
  have hasides (ps : List Place) : (ps.map Mention.aside).filterMap Mention.aside? = ps := by
    simp [List.filterMap_map, Function.comp_def, Mention.aside?]
  induction t generalizing part with
  | name => cases part <;> simp [mentions, Mention.aside?, asides]
  | primitive => simp [mentions, Mention.aside?, asides]
  | qualified _ _ _ _ _ _ ih =>
    rw [mentions, List.filterMap_append, List.filterMap_append, ih, hasides, asides]
    cases part <;> simp [Mention.aside?]
  | generic _ _ _ _ _ _ ih => rw [mentions, List.filterMap_append, ih, asides]; rfl
  | array _ _ _ _ _ _ ih | annotated _ _ _ _ _ ih =>
    rw [mentions, List.filterMap_append, ih, hasides, asides]

theorem form_of_mem_asides (t : TypeAt p) :
    ∀ a ∈ t.asides, a.form = .typeArguments ∨ IsAnnotation a := by
  induction t with
  | name | primitive => simp [asides]
  | qualified _ _ _ _ annotations_are _ ih =>
    exact List.forall_mem_append.mpr ⟨ih, fun a ha => .inr (annotations_are a ha)⟩
  | generic _ _ _ _ _ arguments_are ih =>
    exact List.forall_mem_append.mpr ⟨ih, by simp [arguments_are]⟩
  | array _ _ _ _ _ dimensions_are ih =>
    refine List.forall_mem_append.mpr ⟨ih, fun a ha => .inr ?_⟩
    obtain ⟨d, hd, ha⟩ := List.mem_flatMap.mp ha
    exact (dimensions_are d hd).2 a ha
  | annotated _ _ _ _ annotations_are ih =>
    exact List.forall_mem_append.mpr ⟨fun a ha => .inr (annotations_are a ha), ih⟩

end TypeAt

structure Resembles (b b' : Builder) : Prop where
  frames_eq : b'.scope.frames = b.scope.frames
  resolver_eq : b'.resolver = b.resolver
  suppressed_eq : b'.suppressed = b.suppressed
  currentKind?_eq : b'.currentKind? = b.currentKind?
  has : ∀ id, b.store.Has id → b'.store.Has id

theorem Resembles.refl (b : Builder) : Resembles b b := ⟨rfl, rfl, rfl, rfl, fun _ h => h⟩

theorem Resembles.top?_eq {b' : Builder} (h : Resembles b b') : b'.scope.top? = b.scope.top? :=
  congrArg List.head? h.frames_eq

theorem resembles_learn (b : Builder) (id : ComponentId) (whats : List Enrichment) :
    Resembles b (b.learn id whats) :=
  ⟨rfl, rfl, rfl, b.currentKind?_learn id whats, fun _ h => Store.has_modify_iff.mpr h⟩

theorem Resembles.trans {b' b'' : Builder} (h : Resembles b b') (h' : Resembles b' b'') :
    Resembles b b'' :=
  ⟨h'.frames_eq.trans h.frames_eq, h'.resolver_eq.trans h.resolver_eq,
    h'.suppressed_eq.trans h.suppressed_eq, h'.currentKind?_eq.trans h.currentKind?_eq,
    fun id hid => h'.has id (h.has id hid)⟩

def Appends (b : Builder) (id : ComponentId) (refs : List TypeReference)
    (o : Outcome Builder Unit) : Prop :=
  ∃ b', o = .ok b' () ∧ Resembles b b' ∧
    (b'.store.get id).typeReferences = (b.store.get id).typeReferences ++ refs

theorem appends_learn {id : ComponentId} (hh : b.store.Has id) (whats : List Enrichment) :
    Appends b id (whats.filterMap (·.typeReference? b.resolver)) (.ok (b.learn id whats) ()) := by
  refine ⟨_, rfl, resembles_learn b id whats, ?_⟩
  rw [get_learn hh, Component.field_gather (Component.typeReferences_apply b.resolver)]

theorem Appends.andThen {id : ComponentId} {refs refs' : List TypeReference}
    {o : Outcome Builder Unit} {f : Builder → Outcome Builder Unit} (h : Appends b id refs o)
    (h' : ∀ b', Resembles b b' → Appends b' id refs' (f b')) :
    Appends b id (refs ++ refs') (o.andThen f) := by
  obtain ⟨b₁, rfl, hlike, hrefs⟩ := h
  obtain ⟨b₂, hf, hlike', hrefs'⟩ := h' b₁ hlike
  refine ⟨b₂, hf, hlike.trans hlike', ?_⟩
  rw [hrefs', hrefs, List.append_assoc]

/-- The references that the walk of a place appends, if it only enriches. -/
def referencesOf (b : Builder) (p : Place) : List TypeReference :=
  (learnt b.currentKind? p).filterMap (·.typeReference? b.resolver)

theorem appends_walk_of_resembles {b' : Builder} (hp : p.Asks Op.Enriches) (hlike : Resembles b b')
    (hs : b.suppressed = false) (ht : b.scope.top? = some top) (hh : b.store.Has top.component) :
    Appends b' top.component (referencesOf b p) (follow b' p.walk) := by
  rw [follow_walk_enriching hp (hlike.suppressed_eq.trans hs) (hlike.top?_eq.trans ht),
    referencesOf, ← hlike.currentKind?_eq, ← hlike.resolver_eq]
  exact appends_learn (hlike.has _ hh) _

theorem appends_recording (hs : b.suppressed = false) (ht : b.scope.top? = some top)
    (hh : b.store.Has top.component) (p : Place) :
    Appends b top.component [⟨b.resolver.resolve p.bareName, p.startLine⟩]
      (b.run [.enrich (Mention.enrichment p)]) := by
  have hrun : b.run [.enrich (Mention.enrichment p)] = _ := run_enrichments hs ht [_]
  rw [hrun]
  exact appends_learn hh _

/-- Mentions append the references of each one in turn, whatever it is that asides append. -/
theorem appends_heed {refs : Place → List TypeReference} (hs : b.suppressed = false)
    (ht : b.scope.top? = some top) (hh : b.store.Has top.component)
    (h : ∀ a ∈ ms.filterMap Mention.aside?, ∀ b', Resembles b b' →
      Appends b' top.component (refs a) (follow b' a.walk)) :
    Appends b top.component (ms.flatMap (Mention.references b.resolver refs)) (heed b ms) := by
  induction ms generalizing b with
  | nil => exact ⟨b, rfl, .refl b, (List.append_nil _).symm⟩
  | cons mention rest ih =>
    have hfirst : Appends b top.component (mention.references b.resolver refs)
        (mention.follow b) := by
      cases mention with
      | reference p => exact appends_recording hs ht hh p
      | aside p => exact h p (by simp [Mention.aside?]) b (.refl b)
    refine hfirst.andThen fun b' hlike => ?_
    rw [← hlike.resolver_eq]
    refine ih (hlike.suppressed_eq.trans hs) (hlike.top?_eq.trans ht) (hlike.has _ hh) ?_
    intro a ha b'' hlike'
    obtain ⟨m, hm, ha⟩ := List.mem_filterMap.mp ha
    refine h a (List.mem_filterMap.mpr ⟨m, List.mem_cons_of_mem _ hm, ha⟩) b'' ?_
    exact hlike.trans hlike'

/-- The walk of a type that stands alone records the name of the type, then the name of each
qualifier that is no plain name, and walks the type arguments and annotations inside the type.
Whatever these walks append to the innermost component, the walk of the type appends no more than
that and the names recorded. So one name is recorded only if all qualifiers are plain names. -/
theorem TypeAt.walk_references (t : TypeAt p) (ha : p.StandsAlone) (hs : b.suppressed = false)
    (ht : b.scope.top? = some top) (hh : b.store.Has top.component) :
    let mentions := t.mentions false
    (follow b p.walk = heed b mentions ∧
      mentions.filterMap Mention.aside? = t.asides ∧
      ∀ a ∈ t.asides, a.form = .typeArguments ∨ IsAnnotation a) ∧
    (mentions.filterMap Mention.reference? = t.head :: t.cutOff ∧
      p.typeName? = some t.head.bareName ∧ t.head.bareName ≠ "" ∧
      List.Forall₂ Spells (t.qualifiers.filter (!·.isPlainName)) t.cutOff ∧
      (t.cutOff = [] ↔ ∀ q ∈ t.qualifiers, q.isPlainName)) ∧
    ∀ refs : Place → List TypeReference,
      (∀ a ∈ t.asides, ∀ b', Resembles b b' →
        Appends b' top.component (refs a) (follow b' a.walk)) →
      Appends b top.component (mentions.flatMap (Mention.references b.resolver refs))
        (follow b p.walk) := by
  intro mentions
  have hwalk : follow b p.walk = heed b mentions := t.comesTo_walk.1 ha b
  have hmentions : mentions.filterMap Mention.aside? = t.asides := t.asides_mentions false
  have hname : t.head.bareName = p.bareName := t.spells_head.bareName_eq
  refine ⟨⟨hwalk, hmentions, t.form_of_mem_asides⟩,
    ⟨?_, ?_, ?_, t.spells_cutOff, t.cutOff_eq_nil_iff⟩, fun refs hrefs => ?_⟩
  · simpa using t.references_mentions false
  · obtain ⟨name, hp, -⟩ := t.exists_name
    rw [hname, bareName, hp, Option.getD_some]
  · rw [hname]
    exact t.bareName_ne
  · rw [hwalk]
    rw [← hmentions] at hrefs
    exact appends_heed hs ht hh hrefs

def memberType (outer : Node) : Place where
  source := "Outer<X>.Inner".toUTF8.toList
  node := .mk { type := "scoped_type_identifier", span := some (0, 14) }
    [outer, .mk { type := ".", span := some (8, 9), named := false } [],
      .mk { type := "type_identifier", span := some (9, 14) } []]

def plainOuter : Node := .mk { type := "type_identifier", span := some (0, 5) } []

def genericOuter : Node :=
  .mk { type := "generic_type", span := some (0, 8) }
    [plainOuter, .mk { type := "type_arguments", span := some (5, 8) }
      [.mk { type := "type_identifier", span := some (6, 7) } []]]

def genericMember : TypeAt (memberType genericOuter) :=
  let p := memberType genericOuter
  let outer : Place := ⟨p.source, genericOuter, [⟨p.node, []⟩]⟩
  let head : Place := ⟨p.source, plainOuter, ⟨genericOuter, []⟩ :: outer.above⟩
  let name : TypeAt head := .name ⟨rfl, rfl, by decide +kernel⟩
  let qualifier : TypeAt outer := .generic name _ rfl rfl rfl rfl
  .qualified qualifier [] rfl rfl (by simp) ⟨rfl, rfl, by decide +kernel⟩

theorem walk_references_genericMember :
    let b := inClass .flag []
    let p := memberType genericOuter
    p.StandsAlone ∧ b.suppressed = false ∧ genericMember.asides.length = 1 ∧
      genericMember.cutOff.map bareName = ["Outer"] ∧
      (genericMember.mentions false).filterMap Mention.reference? = p :: genericMember.cutOff ∧
      Appends b ⟨0⟩ ((genericMember.mentions false).flatMap
        (Mention.references b.resolver (referencesOf b))) (follow b p.walk) := by
  intro b p
  have ha : p.StandsAlone := ⟨by decide +kernel, by decide +kernel, by decide +kernel⟩
  have hasides : ∀ a ∈ genericMember.asides, a.Asks Op.Enriches := by
    refine List.forall_mem_singleton.mpr (Plain.asks_enriches (plain_of_preorder ?_) ?_)
    all_goals decide +kernel
  obtain ⟨-, hreferences, happends⟩ :=
    genericMember.walk_references (b := b) ha rfl rfl Nat.zero_lt_one
  refine ⟨ha, rfl, rfl, by decide +kernel, hreferences.1, happends _ fun a hm b' hlike => ?_⟩
  exact appends_walk_of_resembles (hasides a hm) hlike rfl rfl Nat.zero_lt_one

/-- The walk of `Outer<X>.Inner` in a class appends a reference to `Outer`, besides the one to the
type and those that the walk of `<X>` appends. That of `Outer.Inner` appends the one to the type. -/
theorem genericOuter_recorded :
    let after (p : Place) :=
      ((follow (inClass .flag []) p.walk).state.store.get ⟨0⟩).typeReferences
    after (memberType genericOuter) = [⟨"Outer.Inner", 1⟩, ⟨"Outer", 1⟩, ⟨"X", 1⟩] ∧
      genericMember.asides.flatMap after = [⟨"X", 1⟩] ∧
      after (memberType plainOuter) = [⟨"Outer.Inner", 1⟩] := by
  simp only [← Place.visitsAt_eq]
  decide +kernel

end CodeAtlas.Java
