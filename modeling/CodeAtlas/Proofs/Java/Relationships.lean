import Mathlib.Data.List.Flatten
import CodeAtlas.Proofs.Java.Learning
import CodeAtlas.Proofs.Java.Muted
import CodeAtlas.Proofs.Java.TypeNames

/-! # Clauses and the types they name

A clause of a declaration records the types that it names as super types, interfaces or exceptions
when it is entered, by the bare name of each type. The references to these types are recorded later,
at the places where the names are written out. Both come to the same names.
-/

namespace CodeAtlas

/-- What a clause says of the types that it names. -/
inductive Relation where
  | extension
  | implementation
  | exception
deriving DecidableEq

namespace Relation

def record : Relation → String → Int → Enrichment
  | extension => .superType
  | implementation => .implementedType
  | exception => .thrownException

def role : Relation → Role
  | extension => .extension
  | implementation => .implementation
  | exception => .exception

def names : Relation → Component → List String
  | extension => Component.superTypes
  | implementation => Component.implementedTypes
  | exception => Component.thrownExceptions

def name? (r : Resolver) : Relation → Enrichment → Option String
  | extension => Enrichment.superType? r
  | implementation => Enrichment.implementedType? r
  | exception => Enrichment.thrownException? r

variable (r : Resolver) (relation : Relation) (token : String) (line : Int)

theorem names_apply (c : Component) (what : Enrichment) :
    relation.names (what.apply r c) = relation.names c ++ (relation.name? r what).toList := by
  cases relation with
  | extension => exact c.superTypes_apply r what
  | implementation => exact c.implementedTypes_apply r what
  | exception => exact c.thrownExceptions_apply r what

theorem name?_record (other : Relation) : other.name? r (relation.record token line) =
    if other = relation then some (r.resolve token) else none := by
  cases relation <;> cases other <;> rfl

theorem invocation?_record : (relation.record token line).invocation? r =
    some ⟨relation.role, r.resolve token, line⟩ := by
  cases relation <;> rfl

theorem typeReference?_record : (relation.record token line).typeReference? r = none := by
  cases relation <;> rfl

end Relation

namespace Enrichment

/-- The enrichment records none of the relations that clauses record. -/
def Unrelated : Enrichment → Prop
  | superType .. | implementedType .. | thrownException .. => False
  | _ => True

variable {what : Enrichment}

theorem Unrelated.name?_eq (h : what.Unrelated) (r : Resolver) (relation : Relation) :
    relation.name? r what = none := by
  cases what <;> cases relation <;> first | rfl | exact h.elim

theorem Unrelated.role_ne (h : what.Unrelated) {r : Resolver} {invocation : Invocation}
    (hi : what.invocation? r = some invocation) (relation : Relation) :
    invocation.role ≠ relation.role := by
  cases what <;> cases hi <;> first | exact h.elim | (cases relation <;> simp [Relation.role])

end Enrichment

namespace Java

open Builder Place

variable {b : Builder} {p q : Place} {top : Frame} {e : Option Kind} {relation : Relation}

def Form.relation? : Form → Option Relation
  | superclass | extendsInterfaces => some .extension
  | superInterfaces => some .implementation
  | throwsClause => some .exception
  | _ => none

def listedTypes (p : Place) : List Place :=
  (p.namedChildren.filter (·.node.type == "type_list")).flatMap typeChildren

/-- The types that a clause names. Clauses of interfaces have them in lists. -/
def clauseTypes (p : Place) : List Place :=
  match p.form with
  | .superInterfaces | .extendsInterfaces => listedTypes p
  | _ => p.typeChildren

/-- The types that entering a clause records. A clause of interfaces does not ask which of its
children are lists. -/
def recordedTypes (p : Place) : List Place :=
  match p.form with
  | .superInterfaces | .extendsInterfaces => p.namedChildren.flatMap typeChildren
  | _ => p.typeChildren

def TypesInLists (p : Place) : Prop :=
  p.form = .superInterfaces ∨ p.form = .extendsInterfaces →
    ∀ c ∈ p.namedChildren, c.node.type ≠ "type_list" → c.typeChildren = []

theorem flatMap_typeChildren {ps : List Place}
    (h : ∀ c ∈ ps, c.node.type ≠ "type_list" → c.typeChildren = []) :
    ps.flatMap typeChildren = (ps.filter (·.node.type == "type_list")).flatMap typeChildren := by
  induction ps with
  | nil => rfl
  | cons c rest ih =>
    obtain ⟨hc, hrest⟩ := List.forall_mem_cons.mp h
    rw [List.flatMap_cons, ih hrest, List.filter_cons]
    by_cases hl : c.node.type = "type_list"
    · simp [hl]
    · simp [hl, hc hl]

theorem clauseTypes_sublist_recordedTypes (p : Place) :
    (clauseTypes p).Sublist (recordedTypes p) := by
  unfold clauseTypes recordedTypes
  split
  · exact List.filter_sublist.flatMap _
  · exact List.filter_sublist.flatMap _
  · exact .refl _

theorem TypesInLists.recordedTypes_eq (h : TypesInLists p) : recordedTypes p = clauseTypes p := by
  unfold clauseTypes recordedTypes
  split
  · exact flatMap_typeChildren (h (.inl ‹_›))
  · exact flatMap_typeChildren (h (.inr ‹_›))
  · rfl

theorem typeOps_eq_map (make : String → Int → Enrichment) {types : List Place}
    (h : ∀ type ∈ types, type.typeName?.isSome) :
    typeOps make types = types.map fun type => .enrich (make type.bareName type.startLine) := by
  rw [typeOps, ← List.filterMap_eq_map']
  refine List.filterMap_congr fun type hm => ?_
  obtain ⟨name, hname⟩ := Option.isSome_iff_exists.mp (h type hm)
  simp [hname, bareName]

theorem isSome_of_mem_typeChildren (h : q ∈ p.typeChildren) : q.typeName?.isSome :=
  (List.mem_filter.mp h).2

theorem isSome_of_mem_recordedTypes (h : q ∈ recordedTypes p) : q.typeName?.isSome := by
  unfold recordedTypes at h
  split at h
  · obtain ⟨c, -, hc⟩ := List.mem_flatMap.mp h
    exact isSome_of_mem_typeChildren hc
  · obtain ⟨c, -, hc⟩ := List.mem_flatMap.mp h
    exact isSome_of_mem_typeChildren hc
  · exact isSome_of_mem_typeChildren h

theorem Form.relation?_eq_some {form : Form} (h : form.relation? = some relation) :
    (form = .superclass ∧ relation = .extension) ∨
      (form = .extendsInterfaces ∧ relation = .extension) ∨
      (form = .superInterfaces ∧ relation = .implementation) ∨
      (form = .throwsClause ∧ relation = .exception) := by
  cases form <;> simp_all [Form.relation?]

theorem enterOps_of_clause (hp : p.form.relation? = some relation) (e : Option Kind) :
    p.enterOps e = typeOps relation.record (recordedTypes p) := by
  rcases Form.relation?_eq_some hp with ⟨hf, rfl⟩ | ⟨hf, rfl⟩ | ⟨hf, rfl⟩ | ⟨hf, rfl⟩
  all_goals
    simp [enterOps, opens?, hf, Form.opens?, usageOps, recordedTypes, Relation.record]

def recording (relation : Relation) (types : List Place) : List Enrichment :=
  types.map fun type => relation.record type.bareName type.startLine

section Recording

variable (r : Resolver) (relation : Relation) (types : List Place) (c : Component)
  (rest : List Enrichment)

/-- Types are listed for the relation in which they are recorded and for no other one. -/
theorem names_gather_recording (h : ∀ what ∈ rest, what.Unrelated) (other : Relation) :
    other.names (c.gather r (recording relation types ++ rest)) = other.names c ++
      if other = relation then types.map fun type => r.resolve type.bareName else [] := by
  have hrest : rest.filterMap (other.name? r) = [] :=
    List.filterMap_eq_nil_iff.mpr fun what hm => (h what hm).name?_eq r other
  rw [Component.field_gather (other.names_apply r), List.filterMap_append, hrest, List.append_nil,
    recording, List.filterMap_map]
  congr 1
  split
  · rename_i he
    rw [← List.filterMap_eq_map']
    refine List.filterMap_congr fun type _ => ?_
    simp [Relation.name?_record, he]
  · rename_i he
    refine List.filterMap_eq_nil_iff.mpr fun type _ => ?_
    simp [Relation.name?_record, he]

theorem invocations_gather_recording :
    (c.gather r (recording relation types ++ rest)).invocations = c.invocations ++
      (types.map fun type => ⟨relation.role, r.resolve type.bareName, type.startLine⟩) ++
      rest.filterMap (·.invocation? r) := by
  have htypes : (recording relation types).filterMap (·.invocation? r) =
      types.map fun type => ⟨relation.role, r.resolve type.bareName, type.startLine⟩ := by
    rw [recording, List.filterMap_map, ← List.filterMap_eq_map']
    exact List.filterMap_congr fun type _ => relation.invocation?_record r ..
  rw [Component.field_gather (Component.invocations_apply r), List.filterMap_append, htypes,
    List.append_assoc]

theorem typeReferences_gather_recording :
    (c.gather r (recording relation types ++ rest)).typeReferences =
      c.typeReferences ++ rest.filterMap (·.typeReference? r) := by
  have htypes : (recording relation types).filterMap (·.typeReference? r) = [] := by
    rw [recording, List.filterMap_map]
    exact List.filterMap_eq_nil_iff.mpr fun type _ => relation.typeReference?_record r ..
  rw [Component.field_gather (Component.typeReferences_apply r), List.filterMap_append, htypes,
    List.nil_append]

end Recording

theorem taught_clause (hp : p.form.relation? = some relation) :
    taught e (.enter p) = recording relation (recordedTypes p) := by
  rw [taught, enterOps_of_clause hp, typeOps_eq_map _ fun _ h => isSome_of_mem_recordedTypes h,
    List.filterMap_map]
  exact congrFun List.filterMap_eq_map' _

section Usage

variable {what : Enrichment}

theorem unrelated_typeArgumentOps (h : .enrich what ∈ p.typeArgumentOps) : what.Unrelated := by
  obtain ⟨argument, -, h⟩ := List.mem_filterMap.mp h
  split at h
  · cases h
  · split at h
    · cases h
    · split at h
      · cases h
      · cases h
        trivial

theorem unrelated_declaratorOps (h : .enrich what ∈ p.declaratorOps) : what.Unrelated := by
  unfold Place.declaratorOps at h
  split at h
  · split at h
    · rcases List.mem_cons.mp h with h | h
      · cases h
      · split at h
        · cases List.mem_singleton.mp h
          trivial
        · cases h
    · cases h
  · cases h

theorem unrelated_receiverOps (h : .enrich what ∈ p.receiverOps) : what.Unrelated := by
  unfold receiverOps at h
  split at h
  · split at h
    · cases List.mem_singleton.mp h
      trivial
    · cases h
  · cases h

theorem unrelated_usageOps (hp : p.form.relation? = none) (h : .enrich what ∈ p.usageOps e) :
    what.Unrelated := by
  unfold usageOps at h
  cases hf : p.form with
  | packageDeclaration | importDeclaration | annotationTypeDeclaration => simp [hf] at h
  | superclass | superInterfaces | extendsInterfaces | throwsClause =>
    simp [hf, Form.relation?] at hp
  | typeBound =>
    simp only [hf] at h
    obtain ⟨_, -, h⟩ := List.mem_filterMap.mp h
    obtain ⟨_, -, h⟩ := Option.map_eq_some_iff.mp h
    cases h
    trivial
  | typeArguments =>
    rw [hf] at h
    exact unrelated_typeArgumentOps h
  | typeParameters =>
    simp only [hf] at h
    split at h
    · split at h
      · cases List.mem_singleton.mp h
        trivial
      · cases h
    · cases h
  | variableDeclarator =>
    rw [hf] at h
    exact unrelated_declaratorOps h
  | modifiers =>
    simp only [hf] at h
    obtain ⟨_, -, h⟩ := List.mem_map.mp h
    cases h
    trivial
  | markerUse | annotationUse | primitiveType =>
    simp only [hf] at h
    cases List.mem_singleton.mp h
    trivial
  | typeIdentifier | scopedTypeIdentifier =>
    simp only [hf] at h
    split at h
    · cases h
    · cases List.mem_singleton.mp h
      trivial
  | methodInvocation | fieldAccess =>
    rw [hf] at h
    exact unrelated_receiverOps h
  | _ => simp [hf] at h

theorem unrelated_of_mem_taught (ho : p.opens? none = none) (hp : p.form.relation? = none)
    (h : what ∈ taught e (.enter p)) : what.Unrelated := by
  have ho : p.opens? e = none := by
    have hs := p.opens?_isSome e none
    rw [ho] at hs
    exact Option.isNone_iff_eq_none.mp (by simpa using hs)
  obtain ⟨op, hop, hw⟩ := List.mem_filterMap.mp h
  rw [enterOps, ho] at hop
  cases op with
  | enrich =>
    cases hw
    exact unrelated_usageOps hp hop
  | _ => cases hw

theorem unrelated_of_mem_learnt (hp : Plain p)
    (hc : ∀ visit ∈ p.walk, visit.place.form.relation? = none) (h : what ∈ learnt e p) :
    what.Unrelated := by
  obtain ⟨visit, hv, h⟩ := List.mem_flatMap.mp h
  cases visit with
  | enter q => exact unrelated_of_mem_taught (hp _ hv).1 (hc _ hv) h
  | exit q => cases h

end Usage

def referenceNames (r : Resolver) (whats : List Enrichment) : List String :=
  (whats.filterMap (·.typeReference? r)).map TypeReference.name

theorem resolve_mem_referenceNames (h : Spells p q) (ha : p.StandsAlone) (hne : p.bareName ≠ "")
    (r : Resolver) (e : Option Kind) : r.resolve p.bareName ∈ referenceNames r (learnt e p) := by
  have hops := enterOps_of_writesName h.writesName (h.standsAlone ha) (h.bareName_eq ▸ hne) e
  have htaught : .typeReference p.bareName q.startLine ∈ taught e (.enter q) := by
    rw [taught, hops, h.bareName_eq]
    exact List.mem_singleton_self _
  refine List.mem_map.mpr ⟨⟨r.resolve p.bareName, q.startLine⟩, ?_, rfl⟩
  exact List.mem_filterMap.mpr ⟨_, taught_subset_learnt h.enter_mem_walk htaught, rfl⟩

theorem referenceNames_append (r : Resolver) (first second : List Enrichment) :
    referenceNames r (first ++ second) = referenceNames r first ++ referenceNames r second := by
  simp [referenceNames]

theorem referenceNames_flatMap (r : Resolver) (e : Option Kind) (ps : List Place) :
    referenceNames r (ps.flatMap (learnt e)) =
      ps.flatMap fun p => referenceNames r (learnt e p) := by
  rw [referenceNames, List.filterMap_flatMap, List.map_flatMap]
  rfl

/-- The place is that of a type of one of the shapes that spell out a name, with such a name. -/
def WellShaped (p : Place) : Prop := (∃ q, Spells p q) ∧ p.bareName ≠ ""

theorem typeChildren_sublist (ha : ∀ c ∈ p.namedChildren, c.StandsAlone)
    (hw : ∀ type ∈ p.typeChildren, WellShaped type) (r : Resolver) (e : Option Kind) :
    (p.typeChildren.map fun type => r.resolve type.bareName).Sublist
      (referenceNames r (p.namedChildren.flatMap (learnt e))) := by
  rw [List.map_eq_flatMap, referenceNames_flatMap]
  refine .trans (.flatMap_right _ fun type ht => ?_) (List.filter_sublist.flatMap _)
  obtain ⟨⟨q, hq⟩, hne⟩ := hw type ht
  have hm : type ∈ p.namedChildren := List.mem_of_mem_filter ht
  exact List.singleton_sublist.mpr (resolve_mem_referenceNames hq (ha type hm) hne r e)

theorem form_of_list (h : p.node.type = "type_list") : p.form = .other := by
  rw [form, Node.form, h]
  decide

theorem listedTypes_sublist (hw : ∀ type ∈ listedTypes p, WellShaped type) (r : Resolver)
    (e : Option Kind) : ((listedTypes p).map fun type => r.resolve type.bareName).Sublist
      (referenceNames r (p.namedChildren.flatMap (learnt e))) := by
  rw [listedTypes, List.map_flatMap, referenceNames_flatMap]
  refine .trans (.flatMap_right _ fun c hc => ?_) (List.filter_sublist.flatMap _)
  have hf : c.form ∈ wrappingForms := by
    simp [form_of_list (p := c) (by simpa using (List.mem_filter.mp hc).2), wrappingForms]
  rw [learnt_eq, referenceNames_append]
  refine .trans (typeChildren_sublist (fun d hd => standsAlone_of_wrapping hf hd) ?_ r e)
    (List.sublist_append_right ..)
  exact fun type hm => hw type (List.mem_flatMap.mpr ⟨c, hc, hm⟩)

/-- The names of the types of a clause are among those that its walk refers to, in their order. -/
theorem clauseTypes_sublist (hp : p.form.relation? = some relation)
    (hw : ∀ type ∈ clauseTypes p, WellShaped type) (r : Resolver) (e : Option Kind) :
    ((clauseTypes p).map fun type => r.resolve type.bareName).Sublist
      (referenceNames r (p.namedChildren.flatMap (learnt e))) := by
  have hdirect {form : Form} (hf : p.form = form) (hs : form ≠ .scopedTypeIdentifier)
      (ht : form ≠ .typeParameter) (hi : form.mayInferType = false) :
      ∀ c ∈ p.namedChildren, c.StandsAlone :=
    fun c hc => standsAlone_child hc (hf ▸ hs) (hf ▸ ht) (hf ▸ hi)
  rcases Form.relation?_eq_some hp with ⟨hf, -⟩ | ⟨hf, -⟩ | ⟨hf, -⟩ | ⟨hf, -⟩
  all_goals simp only [clauseTypes, hf] at hw ⊢
  · exact typeChildren_sublist (hdirect hf (by decide) (by decide) rfl) hw r e
  · exact listedTypes_sublist hw r e
  · exact listedTypes_sublist hw r e
  · exact typeChildren_sublist (hdirect hf (by decide) (by decide) rfl) hw r e

/-- The walk of a clause makes the innermost component list the resolved names of the types that it
records, in their order, and adds an invocation for each of them, in the role of the clause and with
the line where the type starts. All else that it adds to the invocations has other roles. Among the
references that it adds there is one to each of the types that the clause names, if these spell out
their names. The types recorded are those named, unless types stand beside the lists of a clause of
interfaces. -/
theorem follow_clause (hp : p.form.relation? = some relation)
    (hw : ∀ type ∈ clauseTypes p, WellShaped type) (hplain : Plain p)
    (hc : ∀ c ∈ p.namedChildren, ∀ visit ∈ c.walk, visit.place.form.relation? = none)
    (hs : b.suppressed = false) (ht : b.scope.top? = some top) (hh : b.store.Has top.component) :
    ((clauseTypes p).Sublist (recordedTypes p) ∧
      (TypesInLists p → recordedTypes p = clauseTypes p)) ∧
    ∃ b', follow b p.walk = .ok b' () ∧ b'.scope = b.scope ∧
      let before := b.store.get top.component
      let after := b'.store.get top.component
      let named := (clauseTypes p).map fun type => b.resolver.resolve type.bareName
      let recorded := (recordedTypes p).map fun type => b.resolver.resolve type.bareName
      relation.names after = relation.names before ++ recorded ∧
      (∀ other, other ≠ relation → other.names after = other.names before) ∧
      (∃ others, after.invocations = before.invocations ++ ((recordedTypes p).map fun type =>
          ⟨relation.role, b.resolver.resolve type.bareName, type.startLine⟩) ++ others ∧
        ∀ invocation ∈ others, ∀ other : Relation, invocation.role ≠ other.role) ∧
      ∃ refs, after.typeReferences = before.typeReferences ++ refs ∧
        named.Sublist (refs.map TypeReference.name) := by
  have hd : ¬ p.Declares := by
    rintro ⟨hf, -⟩
    simp [hf, Form.relation?] at hp
  refine ⟨⟨clauseTypes_sublist_recordedTypes p, TypesInLists.recordedTypes_eq⟩, _,
    follow_walk_enriching (hplain.asks_enriches hd) hs ht, rfl, ?_⟩
  intro before after named recorded
  -- The clause itself records the types, and what is below it records no relation.
  have hlearnt := learnt_eq b.currentKind? p
  rw [taught_clause hp] at hlearnt
  have hunrelated : ∀ what ∈ p.namedChildren.flatMap (learnt b.currentKind?), what.Unrelated := by
    intro what hm
    obtain ⟨c, hm, hw⟩ := List.mem_flatMap.mp hm
    exact unrelated_of_mem_learnt (hplain.child hm) (hc c hm) hw
  have hafter : after = before.gather b.resolver _ := get_learn hh _
  rw [hlearnt] at hafter
  have hnames := names_gather_recording b.resolver relation (recordedTypes p) before _ hunrelated
  have hinvocations := invocations_gather_recording b.resolver relation (recordedTypes p) before
    (p.namedChildren.flatMap (learnt b.currentKind?))
  have hreferences := typeReferences_gather_recording b.resolver relation (recordedTypes p) before
    (p.namedChildren.flatMap (learnt b.currentKind?))
  rw [← hafter] at hnames hinvocations hreferences
  refine ⟨by simpa using hnames relation, fun other hne => by simpa [hne] using hnames other,
    ⟨_, hinvocations, fun invocation hm other => ?_⟩, _, hreferences,
    clauseTypes_sublist hp hw b.resolver b.currentKind?⟩
  obtain ⟨what, hm, hi⟩ := List.mem_filterMap.mp hm
  exact (hunrelated what hm).role_ne hi other

/-- The clause `implements A<X>, p.C`, where the types stand on two lines. -/
def interfaceClause : Place where
  source := "implements A<X>, p.C".toUTF8.toList
  node := .mk { type := "super_interfaces" } [.mk { type := "type_list" }
    [.mk { type := "generic_type" } [name (11, 12) 0,
      .mk { type := "type_arguments" } [name (13, 14) 0]],
      .mk { type := "scoped_type_identifier", startRow := 1 } [name (17, 18) 1, name (19, 20) 1]]]
where
  name (span : Nat × Nat) (startRow : Nat) : Node :=
    .mk { type := "type_identifier", span, startRow } []

theorem follow_clause_interfaceClause :
    let b := inClass .flag []
    let p := interfaceClause
    p.form.relation? = some .implementation ∧ (∀ type ∈ clauseTypes p, WellShaped type) ∧ Plain p ∧
      (clauseTypes p).map (fun type => (type.bareName, type.startLine)) = [("A", 1), ("p.C", 2)] ∧
      ∃ b' others refs, follow b p.walk = .ok b' () ∧
        (b'.store.get ⟨0⟩).implementedTypes = ["A", "p.C"] ∧
        (b'.store.get ⟨0⟩).invocations = ((clauseTypes p).map fun type =>
          ⟨.implementation, b.resolver.resolve type.bareName, type.startLine⟩) ++ others ∧
        (b'.store.get ⟨0⟩).typeReferences = refs ∧
        ["A", "p.C"].Sublist (refs.map TypeReference.name) := by
  intro b p
  have hp : p.form.relation? = some .implementation := by decide +kernel
  have hl : TypesInLists p := fun _ => List.forall_mem_singleton.mpr fun h => absurd rfl h
  have hw : ∀ type ∈ clauseTypes p, WellShaped type :=
    List.forall_mem_cons.mpr ⟨⟨⟨_, .generic rfl rfl rfl⟩, by decide +kernel⟩,
      List.forall_mem_singleton.mpr ⟨⟨_, .self (.inl rfl)⟩, by decide +kernel⟩⟩
  have hplain : Plain p := plain_of_preorder (by decide +kernel)
  have hc : ∀ c ∈ p.namedChildren, ∀ q ∈ c.preorder, q.form.relation? = none := by decide +kernel
  have hresolved : (clauseTypes p).map (fun type => b.resolver.resolve type.bareName) =
      ["A", "p.C"] := by decide +kernel
  obtain ⟨⟨-, htypes⟩, b', hf, -, hnames, -, ⟨others, hinvocations, -⟩, refs, hrefs, hsub⟩ :=
    follow_clause (b := b) hp hw hplain
      (fun c hm _ hv => hc c hm _ (mem_preorder_of_mem_walk hv)) rfl rfl Nat.zero_lt_one
  rw [htypes hl] at hnames hinvocations
  rw [hresolved] at hnames hsub
  exact ⟨hp, hw, hplain, by decide +kernel, b', others, refs, hf, hnames, hinvocations, hrefs, hsub⟩

/-- The clause `implements A, B`, where the second type stands beside the list, in a node for text
that the grammar has no rule for. -/
def brokenClause : Place where
  source := "implements A, B".toUTF8.toList
  node := .mk { type := "super_interfaces", hasError := true }
    [.mk { type := "type_list" } [name 11],
      .mk { type := "ERROR", hasError := true } [name 14]]
where
  name (first : Nat) : Node := .mk { type := "type_identifier", span := (first, first + 1) } []

/-- The type beside the list is recorded like the one that the clause names. -/
theorem brokenClause_recorded :
    let b := inClass .flag []
    let p := brokenClause
    let after := (follow b p.walk).state.store.get ⟨0⟩
    p.form.relation? = some .implementation ∧ (∀ type ∈ clauseTypes p, WellShaped type) ∧ Plain p ∧
      (∀ c ∈ p.namedChildren, ∀ q ∈ c.preorder, q.form.relation? = none) ∧
      b.suppressed = false ∧ b.scope.top?.map Frame.component = some ⟨0⟩ ∧
      (clauseTypes p).map (fun type => b.resolver.resolve type.bareName) = ["A"] ∧
      (b.store.get ⟨0⟩).implementedTypes = [] ∧ after.implementedTypes = ["A", "B"] ∧
      after.invocations.map (fun invocation => (invocation.role.name, invocation.target)) =
        [("implementation", "A"), ("implementation", "B")] := by
  intro b p after
  have hwalk : p.walk = visitsAt p.source p.above p.node := (visitsAt_eq p).symm
  have hw : ∀ type ∈ clauseTypes p, WellShaped type :=
    List.forall_mem_singleton.mpr ⟨⟨_, .self (.inl rfl)⟩, by decide +kernel⟩
  refine ⟨by decide +kernel, hw, plain_of_preorder (by decide +kernel), by decide +kernel,
    rfl, rfl, by decide +kernel, rfl, ?_⟩
  simp only [after, hwalk]
  decide +kernel

end Java

end CodeAtlas
