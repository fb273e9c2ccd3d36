import Mathlib.Data.String.Basic
import CodeAtlas.Proofs.Builder.Sound

/-! # What a component gathers

Enrichments add to the lists of a component, and set its value and the snippet of its type. The
components of a declaration that names several are copies of one component, each taken when the next
name is met. So each has what had been gathered for those before it, but for their values.
-/

namespace CodeAtlas

namespace Enrichment

def word? : Enrichment → Option String
  | modifier word => some word
  | _ => none

def value? : Enrichment → Option String
  | value code => some code
  | _ => none

def snippet? : Enrichment → Option String
  | typeSnippet code => some code
  | _ => none

def typeReference? (r : Resolver) : Enrichment → Option TypeReference
  | typeReference token line => some ⟨r.resolve token, line⟩
  | _ => none

def superType? (r : Resolver) : Enrichment → Option String
  | superType token _ => some (r.resolve token)
  | _ => none

def implementedType? (r : Resolver) : Enrichment → Option String
  | implementedType token _ => some (r.resolve token)
  | _ => none

def thrownException? (r : Resolver) : Enrichment → Option String
  | thrownException token _ => some (r.resolve token)
  | _ => none

def invocation? (r : Resolver) : Enrichment → Option Invocation
  | declaredType token line => some ⟨.declaration, r.resolve token, line⟩
  | superType token line => some ⟨.extension, r.resolve token, line⟩
  | implementedType token line => some ⟨.implementation, r.resolve token, line⟩
  | thrownException token line => some ⟨.exception, r.resolve token, line⟩
  | typeParameter token line => some ⟨.typeParameter, r.resolve token, line⟩
  | annotationUse name values line => some ⟨.annotated [⟨name, values⟩], r.resolve name, line⟩
  | modifier _ | value _ | typeSnippet _ | typeReference .. => none

end Enrichment

namespace Component

theorem withTypeSnippet_eq (c : Component) (code : String) :
    c.withTypeSnippet code = { c with typeSnippet := c.typeSnippet.or (some code) } := by
  unfold withTypeSnippet
  split
  · rename_i e
    obtain ⟨⟩ := c
    simp_all
  · rename_i e
    simp [e]

def setting (c : Component) : Component where
  kind := c.kind
  packageName := c.packageName
  sourceFile := c.sourceFile
  code := c.code
  comment := c.comment
  startLine := c.startLine
  endLine := c.endLine
  imports := c.imports

/-- A component without its names and its place in the tree. -/
def content (c : Component) : Component :=
  { c with shortName := none, qualifiedName := none, parentName := none, children := [] }

variable {r : Resolver} {opened c c' : Component} {all recent : List Enrichment}

/-- The component is as it was opened, with all that some enrichments record, in their order. Its
value is the last one that the recent ones among them set, its snippet the first one of all. -/
structure Records (r : Resolver) (opened : Component) (all recent : List Enrichment)
    (c : Component) : Prop where
  setting_eq : c.setting = opened.setting
  invocations_eq : c.invocations = all.filterMap (·.invocation? r)
  typeReferences_eq : c.typeReferences = all.filterMap (·.typeReference? r)
  superTypes_eq : c.superTypes = all.filterMap (·.superType? r)
  implementedTypes_eq : c.implementedTypes = all.filterMap (·.implementedType? r)
  thrownExceptions_eq : c.thrownExceptions = all.filterMap (·.thrownException? r)
  mem_modifiers_iff : ∀ word, word ∈ c.modifiers ↔ word ∈ all.filterMap (·.word?)
  modifiers_ascend : c.modifiers.Pairwise (· < ·)
  typeSnippet_eq : c.typeSnippet = (all.filterMap (·.snippet?)).head?
  value_eq : c.value = (recent.filterMap (·.value?)).getLast?

theorem mem_insertWord {word other : String} {words : List String} :
    other ∈ insertWord word words ↔ other = word ∨ other ∈ words := by
  induction words with
  | nil => simp [insertWord]
  | cons first rest ih =>
    unfold insertWord
    split
    · rename_i e
      simp [e]
    · split
      · simp
      · simp only [List.mem_cons, ih]
        tauto

theorem pairwise_insertWord {word : String} {words : List String} (h : words.Pairwise (· < ·)) :
    (insertWord word words).Pairwise (· < ·) := by
  induction words with
  | nil => simp [insertWord]
  | cons first rest ih =>
    obtain ⟨hfirst, hrest⟩ := List.pairwise_cons.mp h
    unfold insertWord
    split
    · exact h
    · split
      · rename_i hlt
        refine List.pairwise_cons.mpr ⟨List.forall_mem_cons.mpr ⟨hlt, ?_⟩, h⟩
        exact fun other hm => hlt.trans (hfirst other hm)
      · rename_i hne hlt
        refine List.pairwise_cons.mpr ⟨fun other hm => ?_, ih hrest⟩
        rcases mem_insertWord.mp hm with rfl | hm
        · exact lt_of_le_of_ne (not_lt.mp hlt) (Ne.symm hne)
        · exact hfirst other hm

theorem Records.of_content (h : Records r opened all recent c) (hc : c'.content = c.content) :
    Records r opened all recent c' := by
  have hmodifiers := congrArg modifiers hc
  change c'.modifiers = c.modifiers at hmodifiers
  constructor
  · exact (congrArg setting hc).trans h.setting_eq
  · exact (congrArg invocations hc).trans h.invocations_eq
  · exact (congrArg typeReferences hc).trans h.typeReferences_eq
  · exact (congrArg superTypes hc).trans h.superTypes_eq
  · exact (congrArg implementedTypes hc).trans h.implementedTypes_eq
  · exact (congrArg thrownExceptions hc).trans h.thrownExceptions_eq
  · rw [hmodifiers]
    exact h.mem_modifiers_iff
  · rw [hmodifiers]
    exact h.modifiers_ascend
  · exact (congrArg typeSnippet hc).trans h.typeSnippet_eq
  · exact (congrArg value hc).trans h.value_eq

theorem Records.named (h : Records r opened all recent c) (name : String) :
    Records r opened all recent { c with shortName := some name } :=
  h.of_content rfl

theorem Records.sibling (h : Records r opened all recent c) (name : String) :
    Records r opened all [] { c.sibling with shortName := some name } where
  setting_eq := h.setting_eq
  invocations_eq := h.invocations_eq
  typeReferences_eq := h.typeReferences_eq
  superTypes_eq := h.superTypes_eq
  implementedTypes_eq := h.implementedTypes_eq
  thrownExceptions_eq := h.thrownExceptions_eq
  mem_modifiers_iff := h.mem_modifiers_iff
  modifiers_ascend := h.modifiers_ascend
  typeSnippet_eq := h.typeSnippet_eq
  value_eq := rfl

section Apply

variable (r : Resolver) (c : Component) (what : Enrichment)

theorem setting_apply : (what.apply r c).setting = c.setting := by
  cases what <;> simp [Enrichment.apply, withTypeSnippet_eq, addModifier, setting]

theorem invocations_apply :
    (what.apply r c).invocations = c.invocations ++ (what.invocation? r).toList := by
  cases what <;> simp [Enrichment.apply, withTypeSnippet_eq, addModifier, Enrichment.invocation?]

theorem typeReferences_apply :
    (what.apply r c).typeReferences = c.typeReferences ++ (what.typeReference? r).toList := by
  cases what <;> simp [Enrichment.apply, withTypeSnippet_eq, addModifier, Enrichment.typeReference?]

theorem superTypes_apply :
    (what.apply r c).superTypes = c.superTypes ++ (what.superType? r).toList := by
  cases what <;> simp [Enrichment.apply, withTypeSnippet_eq, addModifier, Enrichment.superType?]

theorem implementedTypes_apply :
    (what.apply r c).implementedTypes = c.implementedTypes ++ (what.implementedType? r).toList := by
  cases what <;>
    simp [Enrichment.apply, withTypeSnippet_eq, addModifier, Enrichment.implementedType?]

theorem thrownExceptions_apply :
    (what.apply r c).thrownExceptions = c.thrownExceptions ++ (what.thrownException? r).toList := by
  cases what <;>
    simp [Enrichment.apply, withTypeSnippet_eq, addModifier, Enrichment.thrownException?]

theorem modifiers_apply :
    (what.apply r c).modifiers = what.word?.elim c.modifiers (insertWord · c.modifiers) := by
  cases what <;> simp [Enrichment.apply, withTypeSnippet_eq, addModifier, Enrichment.word?]

theorem typeSnippet_apply : (what.apply r c).typeSnippet = c.typeSnippet.or what.snippet? := by
  cases what <;> simp [Enrichment.apply, withTypeSnippet_eq, addModifier, Enrichment.snippet?]

theorem value_apply : (what.apply r c).value = what.value?.or c.value := by
  cases what <;> simp [Enrichment.apply, withTypeSnippet_eq, addModifier, Enrichment.value?]

end Apply

theorem filterMap_concat {α β : Type} (f : α → Option β) (as : List α) (a : α) :
    (as ++ [a]).filterMap f = as.filterMap f ++ (f a).toList := by
  rw [List.filterMap_append, List.filterMap_cons]
  cases f a <;> rfl

theorem Records.apply (h : Records r opened all recent c) (what : Enrichment) :
    Records r opened (all ++ [what]) (recent ++ [what]) (what.apply r c) := by
  constructor
  · rw [setting_apply, h.setting_eq]
  · rw [invocations_apply, h.invocations_eq, filterMap_concat]
  · rw [typeReferences_apply, h.typeReferences_eq, filterMap_concat]
  · rw [superTypes_apply, h.superTypes_eq, filterMap_concat]
  · rw [implementedTypes_apply, h.implementedTypes_eq, filterMap_concat]
  · rw [thrownExceptions_apply, h.thrownExceptions_eq, filterMap_concat]
  · intro word
    rw [modifiers_apply, filterMap_concat, List.mem_append, ← h.mem_modifiers_iff]
    cases what.word? with
    | none => simp
    | some other => simp [mem_insertWord, or_comm]
  · rw [modifiers_apply]
    cases what.word? with
    | none => exact h.modifiers_ascend
    | some other => exact pairwise_insertWord h.modifiers_ascend
  · simp [typeSnippet_apply, h.typeSnippet_eq]
  · simp [value_apply, h.value_eq]

def gather (r : Resolver) (c : Component) (whats : List Enrichment) : Component :=
  whats.foldl (fun c what => what.apply r c) c

theorem Records.gather (h : Records r opened all recent c) (whats : List Enrichment) :
    Records r opened (all ++ whats) (recent ++ whats) (c.gather r whats) := by
  induction whats generalizing c all recent with
  | nil =>
    rw [List.append_nil, List.append_nil]
    exact h
  | cons what rest ih =>
    rw [List.append_cons, List.append_cons recent]
    exact ih (h.apply what)

theorem enriched_gather (r : Resolver) (whats : List Enrichment) : Enriched (gather r · whats) := by
  induction whats with
  | nil => constructor <;> exact fun _ => rfl
  | cons what rest ih =>
    have hw := what.enriched r
    constructor
    all_goals intro c
    · exact (ih.kind_eq _).trans (hw.kind_eq c)
    · exact (ih.shortName_eq _).trans (hw.shortName_eq c)
    · exact (ih.qualifiedName_eq _).trans (hw.qualifiedName_eq c)
    · exact (ih.parentName_eq _).trans (hw.parentName_eq c)
    · exact (ih.sourceFile_eq _).trans (hw.sourceFile_eq c)
    · exact (ih.children_eq _).trans (hw.children_eq c)

/-- The components that come after one in its declaration, for each name with what is learnt after
it. -/
def successors (r : Resolver) (c : Component) : List (String × List Enrichment) → List Component
  | [] => []
  | (name, whats) :: rest =>
    let next := gather r { c.sibling with shortName := some name } whats
    next :: successors r next rest

/-- A component of a declaration records what has been learnt up to the name after its own, and of
values only what has been learnt since its own name. -/
theorem Records.successors (h : Records r opened all recent c)
    (before after : List (String × List Enrichment)) (name : String) (whats : List Enrichment) :
    ∃ next, (c.successors r (before ++ (name, whats) :: after))[before.length]? = some next ∧
      next.shortName = some name ∧
      Records r opened (all ++ before.flatMap Prod.snd ++ whats) whats next := by
  induction before generalizing c all recent with
  | nil =>
    refine ⟨_, rfl, (enriched_gather r whats).shortName_eq _, ?_⟩
    simpa using (h.sibling name).gather whats
  | cons first before ih =>
    obtain ⟨next, hnext, hname, hrecords⟩ := ih ((h.sibling first.1).gather first.2)
    refine ⟨next, hnext, hname, ?_⟩
    simpa using hrecords

theorem map_successors (r : Resolver) (c : Component) {decls : List (String × List Enrichment)}
    (hn : ∀ decl ∈ decls, decl.1 ≠ "") :
    (c.successors r decls).map (fun next => (next.label, next.kind)) =
      decls.map fun decl => (decl.1, c.kind) := by
  induction decls generalizing c with
  | nil => rfl
  | cons decl rest ih =>
    obtain ⟨hname, hrest⟩ := List.forall_mem_cons.mp hn
    have hgather := enriched_gather r decl.2
    rw [successors, List.map_cons, ih _ hrest, hgather.kind_eq,
      label_of_shortName (hgather.shortName_eq _) hname]
    rfl

/-- The components of a declaration, from the one it opens: the first name is given to that one,
with what has been learnt before. -/
def fromDeclaration (r : Resolver) (opened : Component) (first : List Enrichment) :
    List (String × List Enrichment) → List Component
  | [] => []
  | (name, whats) :: rest =>
    let named := gather r { opened.gather r first with shortName := some name } whats
    named :: named.successors r rest

theorem Records.fromDeclaration (h : Records r opened [] [] opened) (first : List Enrichment)
    (before after : List (String × List Enrichment)) (name : String) (whats : List Enrichment) :
    ∃ c, (opened.fromDeclaration r first (before ++ (name, whats) :: after))[before.length]? =
        some c ∧
      c.shortName = some name ∧
      Records r opened (first ++ before.flatMap Prod.snd ++ whats)
        (if before = [] then first ++ whats else whats) c := by
  have hopened := h.gather first
  have hnamed (name : String) (whats : List Enrichment) : Records r opened (first ++ whats)
      (first ++ whats) (Component.gather r
        { opened.gather r first with shortName := some name } whats) :=
    (hopened.named name).gather whats
  cases before with
  | nil =>
    refine ⟨_, rfl, (enriched_gather r whats).shortName_eq _, ?_⟩
    simpa using hnamed name whats
  | cons decl before =>
    obtain ⟨c, hc, hname, hrecords⟩ :=
      (hnamed decl.1 decl.2).successors before after name whats
    refine ⟨c, hc, hname, ?_⟩
    simpa using hrecords

theorem map_fromDeclaration (r : Resolver) (opened : Component) (first : List Enrichment)
    {decls : List (String × List Enrichment)} (hn : ∀ decl ∈ decls, decl.1 ≠ "") :
    (opened.fromDeclaration r first decls).map (fun c => (c.label, c.kind)) =
      decls.map fun decl => (decl.1, opened.kind) := by
  cases decls with
  | nil => rfl
  | cons decl rest =>
    obtain ⟨hname, hrest⟩ := List.forall_mem_cons.mp hn
    have hfirst := enriched_gather r first
    have hgather := enriched_gather r decl.2
    rw [fromDeclaration, List.map_cons, map_successors r _ hrest, hgather.kind_eq, hfirst.kind_eq,
      label_of_shortName (hgather.shortName_eq _) hname]
    rfl

end Component

end CodeAtlas
