import CodeAtlas.Java.CompilationUnit
import CodeAtlas.Proofs.Builder.Sound
import CodeAtlas.Proofs.Tree.Walk

/-! # What visits ask of a builder

Entering a node opens a component, begins a package, starts suppression, names a declarator or
only adds to what is known; leaving it undoes what entering did. Walks leave suppression as they
found it.
-/

namespace CodeAtlas

/-- The operation neither opens, names nor closes a component, and does not touch suppression. -/
def Op.Inert : Op → Prop
  | .enrich _ | .addImport _ => True
  | _ => False

def Op.Enriches : Op → Prop
  | .enrich _ => True
  | _ => False

theorem Op.Enriches.inert {op : Op} (h : op.Enriches) : op.Inert := by
  cases op with
  | enrich => trivial
  | _ => cases h

theorem inert_of_enriches {ops : List Op} (h : ∀ op ∈ ops, op.Enriches) : ∀ op ∈ ops, op.Inert :=
  fun op hm => (h op hm).inert

namespace Java

theorem parameterKind_ne_package (e : Option Kind) : parameterKind e ≠ .package := by
  unfold parameterKind
  split <;> decide

theorem fieldKind_ne_package (e : Option Kind) : fieldKind e ≠ .package := by
  unfold fieldKind
  split <;> decide

namespace Form

theorem opens?_isSome (form : Form) (e e' : Option Kind) :
    (form.opens? e).isSome = (form.opens? e').isSome := by
  cases form <;> rfl

theorem opens?_ne_package {form : Form} {e : Option Kind} {kind : Kind}
    (h : form.opens? e = some kind) : kind ≠ .package := by
  rintro rfl
  cases form <;> simp [opens?, parameterKind_ne_package, fieldKind_ne_package] at h

theorem opens?_of_ownsDeclarators {form : Form} (h : form.ownsDeclarators = true)
    (e : Option Kind) : (form.opens? e).isSome := by
  cases form <;> simp_all [ownsDeclarators, opens?]

end Form

end Java

namespace Place

open Java

variable {p : Place} {e : Option Kind} {ops : List Op}

theorem opens?_isSome (p : Place) (e e' : Option Kind) :
    (p.opens? e).isSome = (p.opens? e').isSome := by
  unfold opens?
  split
  · rfl
  · exact Form.opens?_isSome ..

theorem opens?_ne_package {kind : Kind} (h : p.opens? e = some kind) : kind ≠ .package := by
  unfold opens? at h
  split at h
  · cases h
  · exact Form.opens?_ne_package h

def Declares (p : Place) : Prop :=
  p.form = .variableDeclarator ∧ ∃ parent, p.parent? = some parent ∧ parent.form.ownsDeclarators

instance (p : Place) : Decidable p.Declares :=
  decidable_of_iff (p.form = .variableDeclarator ∧ p.parent?.any (·.form.ownsDeclarators) = true)
    (by simp only [Declares, Option.any_eq_true])

inductive Entry (p : Place) : List Op → Prop
  | opens {kind : Kind} {rest : List Op} : (p.opens? none).isSome → kind ≠ .package →
      (∀ op ∈ rest, op.Enriches) →
      Entry p (.openComponent kind p.provenance p.declaredName? p.form.declaresType :: rest)
  | package (prov : Provenance) : p.opens? none = none → p.form = .packageDeclaration →
      Entry p [.beginPackage p.dottedName prov]
  | suppresses : p.opens? none = none → p.form = .annotationTypeDeclaration →
      Entry p [.enterSuppressed]
  | declares {rest : List Op} : p.opens? none = none → p.Declares → (∀ op ∈ rest, op.Enriches) →
      Entry p (.nameDeclarator (p.fieldText "name") :: rest)
  | imports (name : String) : p.opens? none = none → p.form = .importDeclaration →
      Entry p [.addImport name]
  | enriches {ops : List Op} : p.opens? none = none → p.form ≠ .packageDeclaration →
      p.form ≠ .annotationTypeDeclaration → p.form ≠ .importDeclaration → ¬ p.Declares →
      (∀ op ∈ ops, op.Enriches) → Entry p ops

theorem enriches_declaredTypeOps (p : Place) : ∀ op ∈ p.declaredTypeOps, op.Enriches := by
  unfold declaredTypeOps
  split
  · simp
  · simp only [List.forall_mem_cons]
    refine ⟨trivial, ?_⟩
    split
    · simp
    · split
      · simp
      · split
        · simp
        · simp [Op.Enriches]

theorem enriches_typeOps (make : String → Int → Enrichment) (types : List Place) :
    ∀ op ∈ typeOps make types, op.Enriches := by
  intro op h
  simp only [typeOps, List.mem_filterMap, Option.map_eq_some_iff] at h
  obtain ⟨_, _, _, _, rfl⟩ := h
  trivial

theorem enriches_typeArgumentOps (p : Place) : ∀ op ∈ p.typeArgumentOps, op.Enriches := by
  intro op h
  obtain ⟨argument, -, h⟩ := List.mem_filterMap.mp h
  split at h
  · cases h
  · split at h
    · cases h
    · split at h
      · cases h
      · cases h
        trivial

theorem enriches_receiverOps (p : Place) : ∀ op ∈ p.receiverOps, op.Enriches := by
  unfold receiverOps
  split
  · split <;> simp [Op.Enriches]
  · simp

theorem entry_declaratorOps (hn : p.opens? none = none) (hf : p.form = .variableDeclarator) :
    Entry p p.declaratorOps := by
  have hnone (hd : ¬ p.Declares) : Entry p [] :=
    .enriches hn (by simp [hf]) (by simp [hf]) (by simp [hf]) hd (by simp)
  unfold declaratorOps
  split
  · rename_i parent hp
    split
    · rename_i ho
      refine .declares hn ⟨hf, parent, hp, ho⟩ ?_
      split <;> simp [Op.Enriches]
    · rename_i ho
      refine hnone ?_
      rintro ⟨-, parent', hp', ho'⟩
      obtain rfl := Option.some.inj (hp.symm.trans hp')
      exact ho ho'
  · rename_i hp
    refine hnone ?_
    rintro ⟨-, parent', hp', -⟩
    exact absurd (hp.symm.trans hp') nofun

theorem entry_usageOps (e : Option Kind) (hn : p.opens? none = none) :
    Entry p (p.usageOps e) := by
  have henriches {form : Form} (hf : p.form = form) (h₁ : form ≠ .packageDeclaration)
      (h₂ : form ≠ .annotationTypeDeclaration) (h₃ : form ≠ .importDeclaration)
      (h₄ : form ≠ .variableDeclarator) {ops : List Op} (h : ∀ op ∈ ops, op.Enriches) :
      Entry p ops :=
    .enriches hn (hf ▸ h₁) (hf ▸ h₂) (hf ▸ h₃) (fun hd => h₄ (hf.symm.trans hd.1)) h
  unfold usageOps
  cases hf : p.form with
  | packageDeclaration => exact .package _ hn hf
  | importDeclaration => exact .imports _ hn hf
  | annotationTypeDeclaration => exact .suppresses hn hf
  | superclass | superInterfaces | extendsInterfaces | throwsClause | typeBound =>
    exact henriches hf nofun nofun nofun nofun (enriches_typeOps _ _)
  | typeArguments => exact henriches hf nofun nofun nofun nofun p.enriches_typeArgumentOps
  | typeParameters =>
    refine henriches hf nofun nofun nofun nofun ?_
    dsimp only
    split
    · split <;> simp [Op.Enriches]
    · simp
  | variableDeclarator => exact entry_declaratorOps hn hf
  | modifiers =>
    refine henriches hf nofun nofun nofun nofun fun op h => ?_
    obtain ⟨_, _, rfl⟩ := List.mem_map.mp h
    trivial
  | markerUse | annotationUse | primitiveType =>
    exact henriches hf nofun nofun nofun nofun (by simp [Op.Enriches])
  | typeIdentifier | scopedTypeIdentifier =>
    refine henriches hf nofun nofun nofun nofun ?_
    dsimp only
    split <;> simp [Op.Enriches]
  | methodInvocation | fieldAccess =>
    exact henriches hf nofun nofun nofun nofun p.enriches_receiverOps
  | _ => exact henriches hf nofun nofun nofun nofun (by simp)

theorem entry_enterOps (p : Place) (e : Option Kind) : Entry p (p.enterOps e) := by
  unfold enterOps
  split
  · rename_i kind hk
    have ho : (p.opens? none).isSome := by rw [p.opens?_isSome none e, hk]; rfl
    refine .opens ho (opens?_ne_package hk) ?_
    split
    · exact p.enriches_declaredTypeOps
    · simp
  · rename_i hk
    have hn : p.opens? none = none := by
      have hs := p.opens?_isSome none e
      rw [hk] at hs
      exact Option.isNone_iff_eq_none.mp (by simpa using hs)
    exact entry_usageOps e hn

end Place

end CodeAtlas
