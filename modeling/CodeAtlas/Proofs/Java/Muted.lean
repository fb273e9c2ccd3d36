import CodeAtlas.Proofs.Java.Discipline

/-! # Walks under suppression

A suppressed builder ignores every operation that opens, names, closes or enriches a component. So
a walk under suppression does no more than note imports, and the walk of an annotation type without
imports does nothing at all.
-/

namespace CodeAtlas

theorem Op.Enriches.guarded {op : Op} (h : op.Enriches) : op.Guarded := by
  cases op with
  | enrich => trivial
  | _ => cases h

theorem Suppression.exit_enter {s : Suppression} (h : s.mode = .flag → s.active = false) :
    s.enter.exit = s := by
  obtain ⟨mode, depth⟩ := s
  cases mode with
  | depth => rfl
  | flag =>
    have hdepth : depth = 0 := by simpa [active] using h rfl
    rw [hdepth]
    rfl

theorem Suppression.active_enter (s : Suppression) : s.enter.active = true := by
  unfold enter active
  split <;> simp

namespace Builder

variable {b : Builder} {ops : List Op}

theorem run_guarded (hs : b.suppressed = true) (hg : ∀ op ∈ ops, op.Guarded) :
    b.run ops = .ok b () := by
  induction ops with
  | nil => rfl
  | cons op rest ih =>
    obtain ⟨hop, hrest⟩ := List.forall_mem_cons.mp hg
    rw [run, step_guarded hs hop, Outcome.andThen_ok, ih hrest]

end Builder

namespace Place

variable {p : Place} {ops : List Op}

theorem Entry.guarded (h : Entry p ops) (hp : p.form ≠ .packageDeclaration)
    (ha : p.form ≠ .annotationTypeDeclaration) (hi : p.form ≠ .importDeclaration) :
    ∀ op ∈ ops, op.Guarded := by
  cases h with
  | opens _ _ hrest | declares _ _ hrest =>
    exact List.forall_mem_cons.mpr ⟨trivial, fun op hm => (hrest op hm).guarded⟩
  | package _ _ hf => exact absurd hf hp
  | suppresses _ hf => exact absurd hf ha
  | imports _ _ hf => exact absurd hf hi
  | enriches _ _ _ _ _ hops => exact fun op hm => (hops op hm).guarded

theorem guarded_exitOps (hp : p.form ≠ .program) (ha : p.form ≠ .annotationTypeDeclaration) :
    ∀ op ∈ p.exitOps, op.Guarded := by
  by_cases ho : (p.opens? none).isSome
  · simp [exitOps_of_opens ho, Op.Guarded]
  · simp [exitOps_of_plain (by simpa using ho) hp ha]

theorem enterOps_of_suppresses (h : p.form = .annotationTypeDeclaration) (e : Option Kind) :
    p.enterOps e = [.enterSuppressed] := by
  simp [enterOps, opens?, h, Java.Form.opens?, usageOps]

theorem enterOps_of_imports (h : p.form = .importDeclaration) (e : Option Kind) :
    ∃ name, p.enterOps e = [.addImport name] := by
  simp [enterOps, opens?, h, Java.Form.opens?, usageOps]

end Place

namespace Java

open Builder Place

variable {b : Builder} {p : Place}

def Lacks (form : Form) (p : Place) : Prop := ∀ visit ∈ p.walk, visit.place.form ≠ form

theorem Lacks.self {form : Form} (h : Lacks form p) : p.form ≠ form := h _ p.enter_mem_walk

theorem Lacks.child {form : Form} (h : Lacks form p) {c : Place} (hc : c ∈ p.namedChildren) :
    Lacks form c :=
  fun visit hv => h visit (mem_walk_of_child hc hv)

theorem lacks_of_preorder {form : Form} (h : ∀ q ∈ p.preorder, q.form ≠ form) : Lacks form p :=
  fun _ hv => h _ (mem_preorder_of_mem_walk hv)

/-- The walks do nothing but to change what is imported, and not even that without imports. -/
def Mutes (b : Builder) (visits : List Visit) : Prop :=
  ∃ r, follow b visits = .ok { b with resolver := r } () ∧
    ((∀ visit ∈ visits, visit.place.form ≠ .importDeclaration) → r = b.resolver)

theorem Mutes.append {first second : List Visit} (h : Mutes b first)
    (h' : ∀ r, Mutes { b with resolver := r } second) : Mutes b (first ++ second) := by
  obtain ⟨r, hr, hsame⟩ := h
  obtain ⟨r', hr', hsame'⟩ := h' r
  refine ⟨r', ?_, fun hno => ?_⟩
  · rw [follow_append, hr, Outcome.andThen_ok, hr']
  · obtain ⟨hfirst, hsecond⟩ := List.forall_mem_append.mp hno
    rw [hsame' hsecond, ← hsame hfirst]

theorem mutes_siblings {ps : List Place}
    (h : ∀ c ∈ ps, ∀ r, Mutes { b with resolver := r } c.walk) :
    Mutes b (ps.flatMap Place.walk) := by
  induction ps generalizing b with
  | nil => exact ⟨b.resolver, rfl, fun _ => rfl⟩
  | cons c rest ih =>
    obtain ⟨hc, hrest⟩ := List.forall_mem_cons.mp h
    rw [List.flatMap_cons]
    exact (hc b.resolver).append fun r => ih fun c' hc' r' => hrest c' hc' r'

theorem mutes_of_children {b₁ : Builder} (henter : b.run (opsFor b (.enter p)) = .ok b₁ ())
    (hchildren : Mutes b₁ (p.namedChildren.flatMap Place.walk))
    (hexit : ∀ r, ({ b₁ with resolver := r } : Builder).run p.exitOps =
      .ok { b with resolver := r } ())
    (hsame : p.form ≠ .importDeclaration → b₁.resolver = b.resolver) : Mutes b p.walk := by
  obtain ⟨r, hfollow, hr⟩ := hchildren
  refine ⟨r, ?_, fun hno => ?_⟩
  · rw [follow_walk_eq, henter, Outcome.andThen_ok, hfollow, Outcome.andThen_ok, hexit]
  · rw [hr fun visit hv => hno visit ?_, hsame (hno _ p.enter_mem_walk)]
    rw [Place.walk_eq]
    exact List.mem_cons_of_mem _ (List.mem_append_left _ hv)

theorem mutes_of_suppresses (hp : p.form = .annotationTypeDeclaration)
    (hm : b.suppression.mode = .flag → b.suppressed = false)
    (hchildren : Mutes { b with suppression := b.suppression.enter }
      (p.namedChildren.flatMap Place.walk)) : Mutes b p.walk := by
  refine mutes_of_children ?_ hchildren (fun r => ?_) fun _ => rfl
  · rw [opsFor, enterOps_of_suppresses hp]
    rfl
  · rw [exitOps_of_suppresses hp]
    -- Suppression ends as it began, unless it is a flag that was set before.
    exact congrArg (fun s => Outcome.ok { b with resolver := r, suppression := s } ())
      (Suppression.exit_enter hm)

/-- A walk under suppression is muted: in depth mode in any case, else if no annotation type ends
the suppression. -/
theorem mutes_walk (hs : b.suppressed = true) (he : Enclosed p)
    (hm : b.suppression.mode = .depth ∨ Lacks .annotationTypeDeclaration p) :
    Mutes b p.walk := by
  induction p using Place.induction generalizing b with
  | h p ih =>
    obtain ⟨hpackage, hprogram⟩ := he _ p.enter_mem_walk
    have hchildren {b₁ : Builder} (hs₁ : b₁.suppressed = true)
        (hm₁ : b₁.suppression.mode = .depth ∨ Lacks .annotationTypeDeclaration p) :
        Mutes b₁ (p.namedChildren.flatMap Place.walk) :=
      mutes_siblings fun c hc r => ih c hc hs₁ (he.child hc) (hm₁.imp_right (·.child hc))
    by_cases ha : p.form = .annotationTypeDeclaration
    · -- Only in depth mode may a further annotation type be met.
      have hmode : b.suppression.mode = .depth := hm.resolve_right fun hno => hno.self ha
      refine mutes_of_suppresses ha (by simp [hmode])
        (hchildren b.suppression.active_enter (.inl ?_))
      simp [Suppression.enter, hmode]
    · have hexit (r : Resolver) : ({ b with resolver := r } : Builder).run p.exitOps =
          .ok { b with resolver := r } () := run_guarded hs (guarded_exitOps hprogram ha)
      by_cases hi : p.form = .importDeclaration
      · obtain ⟨name, hops⟩ := enterOps_of_imports hi b.currentKind?
        have henter : b.run (opsFor b (.enter p)) =
            .ok { b with resolver := b.resolver.addImport name } () := by
          rw [opsFor, hops]
          rfl
        exact mutes_of_children henter (hchildren hs hm) hexit fun hno => absurd hi hno
      · refine mutes_of_children (run_guarded hs ?_) (hchildren hs hm) hexit fun _ => rfl
        exact (p.entry_enterOps _).guarded hpackage ha hi

theorem mutes_annotationType (hp : p.form = .annotationTypeDeclaration) (he : Enclosed p)
    (hm : b.suppression.mode = .flag → b.suppressed = false ∧
      ∀ c ∈ p.namedChildren, Lacks .annotationTypeDeclaration c) : Mutes b p.walk := by
  refine mutes_of_suppresses hp (fun hf => (hm hf).1)
    (mutes_siblings fun c hc r => mutes_walk b.suppression.active_enter (he.child hc) ?_)
  cases hmode : b.suppression.mode with
  | depth => exact .inl (by simp [Suppression.enter, hmode])
  | flag => exact .inr ((hm hmode).2 c hc)

/-- The walk of an annotation type without packages, imports and programs leaves a builder as it
is: in depth mode in any case, in flag mode if suppression is inactive and no annotation type lies
inside. -/
theorem follow_annotationType (b : Builder) (p : Place) (hp : p.form = .annotationTypeDeclaration)
    (hforms : ∀ q ∈ p.preorder, q.form ∉ [.packageDeclaration, .importDeclaration, .program])
    (hmode : b.suppression.mode = .flag → b.suppressed = false ∧
      ∀ c ∈ p.children, ∀ q ∈ c.preorder, q.form ≠ .annotationTypeDeclaration) :
    follow b p.walk = .ok b () := by
  have hforms (visit : Visit) (hv : visit ∈ p.walk) := hforms _ (mem_preorder_of_mem_walk hv)
  simp only [List.mem_cons, List.not_mem_nil, or_false, not_or] at hforms
  have henclosed : Enclosed p := fun visit hv => ⟨(hforms visit hv).1, (hforms visit hv).2.2⟩
  obtain ⟨r, hfollow, hr⟩ := mutes_annotationType hp henclosed fun hm =>
    ⟨(hmode hm).1, fun c hc => lacks_of_preorder ((hmode hm).2 c (List.mem_of_mem_filter hc))⟩
  rw [hfollow, hr fun visit hv => (hforms visit hv).2.1]

def annotationType (members : List Node) : Place where
  source := []
  node := .mk { type := "annotation_type_declaration" }
    [.mk { type := "class_declaration" } (.mk { type := "marker_annotation" } [] :: members)]

def inClass (mode : Suppression.Mode) (ops : List Op) : Builder :=
  ((started .lastWriteWins {} "C.java" mode).run
    (.openComponent .classType ⟨1, 1, "", none⟩ "C" true :: ops)).state

/-- An annotation type in a class has no effect in flag mode. One in an annotation type, with a
further one inside, has none in depth mode. -/
theorem follow_annotationType_inClass :
    let flagged := inClass .flag []
    let nested := inClass .depth [.enterSuppressed]
    follow flagged (annotationType []).walk = .ok flagged () ∧
      follow nested (annotationType [(annotationType []).node]).walk = .ok nested () :=
  ⟨follow_annotationType _ _ rfl (by decide +kernel) fun _ => ⟨rfl, by decide +kernel⟩,
    follow_annotationType _ _ rfl (by decide +kernel) nofun⟩

end Java

end CodeAtlas
