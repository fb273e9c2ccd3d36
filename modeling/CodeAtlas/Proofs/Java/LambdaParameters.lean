import CodeAtlas.Proofs.Java.Learning
import CodeAtlas.Proofs.Java.Modes

/-! # Parameters of lambda expressions

The formal parameters of a lambda expression are no components: a walk may leave out their visits.
Its parameters of variable arity are not told from those of methods. They open a component, name it
by their declarator and close it. In both cases what was open before the list is open after it.
-/

namespace CodeAtlas

namespace Place

variable {p c : Place}

theorem grandparent?_of_mem_namedChildren (h : c ∈ p.namedChildren) :
    c.grandparent? = p.parent? := by
  obtain ⟨earlier, he⟩ := above_of_mem_childrenFrom (List.mem_of_mem_filter h)
  rw [grandparent?, he]
  rfl

theorem isLambdaParameter_of_mem (hp : p.parentForm? = some .lambdaExpression)
    (hc : c ∈ p.namedChildren) : c.isLambdaParameter = true := by
  obtain ⟨outer, ho, hform⟩ := Option.map_eq_some_iff.mp hp
  rw [isLambdaParameter, grandparent?_of_mem_namedChildren hc, ho]
  simp [hform]

theorem not_declares_of_lambda (hp : p.parentForm? = some .lambdaExpression) : ¬ p.Declares := by
  rintro ⟨-, parent, hparent, howns⟩
  rw [parentForm?, hparent] at hp
  rw [Option.some.inj hp] at howns
  cases howns

def Idle (p : Place) : Prop := (∀ e, p.enterOps e = []) ∧ p.exitOps = []

def isLambdaFormal (p : Place) : Bool := p.form == .formalParameter && p.isLambdaParameter

theorem idle_of_isLambdaFormal (h : p.isLambdaFormal) : p.Idle := by
  rw [isLambdaFormal, Bool.and_eq_true, beq_iff_eq] at h
  obtain ⟨hform, hlambda⟩ := h
  have hopens (e : Option Kind) : p.opens? e = none := by simp [opens?, hform, hlambda]
  constructor
  · intro e
    simp [enterOps, hopens, usageOps, hform]
  · simp [exitOps, hopens, hform]

theorem idle_declarator (hf : p.form = .variableDeclarator) (hd : ¬ p.Declares) : p.Idle := by
  have hopens (e : Option Kind) : p.opens? e = none := by simp [opens?, hf, Java.Form.opens?]
  constructor
  · intro e
    simp only [enterOps, hopens, usageOps, hf]
    unfold declaratorOps
    split
    · rename_i parent hparent
      exact if_neg fun howns => hd ⟨hf, parent, hparent, howns⟩
    · rfl
  · simp [exitOps, hopens, hf]

end Place

namespace Java

open Builder Place

variable {b b' : Builder} {p c list : Place}

theorem opsFor_of_idle {visit : Visit} (h : visit.place.Idle) (b : Builder) :
    opsFor b visit = [] := by
  cases visit with
  | enter p => exact h.1 _
  | exit p => exact h.2

/-- Visits of idle places may be left out. -/
theorem follow_filter {idle : Place → Bool} (h : ∀ p, idle p → p.Idle) (b : Builder)
    (visits : List Visit) :
    follow b (visits.filter fun visit => !idle visit.place) = follow b visits := by
  induction visits generalizing b with
  | nil => rfl
  | cons visit rest ih =>
    cases hidle : idle visit.place with
    | true =>
      rw [List.filter_cons_of_neg (by simp [hidle]), ih, follow, opsFor_of_idle (h _ hidle)]
      rfl
    | false =>
      rw [List.filter_cons_of_pos (by simp [hidle]), follow, follow]
      simp only [ih]

def PassesOver (b : Builder) (p : Place) : Prop :=
  b.run (opsFor b (.enter p)) = .ok b () ∧ b.run (opsFor b (.exit p)) = .ok b ()

theorem passesOver_of_idle (h : p.Idle) (b : Builder) : PassesOver b p :=
  ⟨congrArg b.run (h.1 b.currentKind?), congrArg b.run h.2⟩

theorem passesOver_of_suppressed (hs : b.suppressed = true) (hp : p.form ∉
    [.packageDeclaration, .importDeclaration, .program, .annotationTypeDeclaration]) :
    PassesOver b p := by
  simp only [List.mem_cons, List.not_mem_nil, or_false, not_or] at hp
  obtain ⟨hpackage, himport, hprogram, hannotation⟩ := hp
  constructor
  · apply run_guarded hs
    exact (p.entry_enterOps _).guarded hpackage hannotation himport
  · exact run_guarded hs (guarded_exitOps hprogram hannotation)

theorem frames_run_enter (hs : b.suppressed = false) (ho : (p.opens? none).isSome) :
    ∃ frame, (b.run (opsFor b (.enter p))).state.scope.frames = frame :: b.scope.frames := by
  have hentry := p.entry_enterOps b.currentKind?
  rw [opsFor]
  generalize p.enterOps b.currentKind? = ops at hentry
  cases hentry with
  | @opens kind rest _ _ hrest =>
    let pushed := b.push (b.fresh kind p.provenance p.declaredName? p.form.declaresType)
    have hstep : b.step (.openComponent kind p.provenance p.declaredName? p.form.declaresType) =
        .ok pushed.1 (.component pushed.2) := by
      rw [step, if_neg (by simp [hs])]
    have hscope : (pushed.1.run rest).state.scope = pushed.1.scope := by
      refine run_state (I := fun b' => b'.scope = pushed.1.scope) (fun b' op hm h => ?_) rfl
      exact (scope_step_inert (hrest op hm).inert).trans h
    rw [run, hstep, Outcome.andThen_ok, hscope]
    exact ⟨_, rfl⟩
  | package _ hno | suppresses hno | declares hno | imports _ hno | enriches hno =>
    rw [hno] at ho
    cases ho

/-- A walk closes what it opens, in flag mode too if suppression ends there as in depth mode. -/
theorem frames_follow_of_concur (hb : b.scope.Reached) (hp : Enclosed p) (hd : ¬ p.Declares)
    (hc : Concur { b.suppression with mode := .depth } b.suppression p.walk)
    (h : follow b p.walk = .ok b' ()) : b'.scope.frames = b.scope.frames := by
  obtain ⟨t, ht⟩ := exists_follow_suppressing hc
  rw [h] at ht
  have hready : Ready 0 (b.suppressing { b.suppression with mode := .depth }) :=
    ⟨hb, rfl, Nat.zero_le _⟩
  exact (moves_walk_of_not_declares hready hp hd ht).frames_eq

theorem passesOver_or_opens (hlist : list.parentForm? = some .lambdaExpression)
    (hc : c ∈ list.namedChildren) (hp : c.form = .formalParameter ∨ c.form = .spreadParameter)
    (b : Builder) :
    if c.form = .spreadParameter ∧ b.suppressed = false then
      ∃ frame, (b.run (opsFor b (.enter c))).state.scope.frames = frame :: b.scope.frames
    else PassesOver b c ∧
      ∀ d ∈ c.namedChildren, d.form = .variableDeclarator → PassesOver b d := by
  rcases hp with hform | hform
  · have hidle : c.Idle := by
      apply idle_of_isLambdaFormal
      rw [isLambdaFormal, hform, isLambdaParameter_of_mem hlist hc]
      rfl
    rw [if_neg (by simp [hform])]
    refine ⟨passesOver_of_idle hidle b, fun d hd hdf => ?_⟩
    have hdeclares : ¬ d.Declares := by
      intro hdecl
      have howns := hdecl.owner hd
      rw [hform] at howns
      cases howns
    exact passesOver_of_idle (idle_declarator hdf hdeclares) b
  · split
    · rename_i h
      apply frames_run_enter h.2
      simp [opens?, hform, Form.opens?]
    · rename_i h
      have hs : b.suppressed = true := by simpa [hform] using h
      refine ⟨passesOver_of_suppressed hs (by simp [hform]), fun d _ hdf => ?_⟩
      exact passesOver_of_suppressed hs (by simp [hdf])

theorem follow_plain (hp : Plain p) (hd : ¬ p.Declares)
    (hb : b.suppressed = true ∨ b.scope.frames ≠ []) :
    ∃ store, follow b p.walk = .ok (b.withStore store) () ∧
      ∀ id, store.Has id ↔ b.store.Has id := by
  have hforms (visit : Visit) (hv : visit ∈ p.walk) := (hp visit hv).2
  simp only [List.mem_cons, List.not_mem_nil, or_false, not_or] at hforms
  cases hs : b.suppressed with
  | true =>
    have henclosed : Enclosed p := fun visit hv => ⟨(hforms visit hv).1, (hforms visit hv).2.2.1⟩
    obtain ⟨r, hfollow, hr⟩ :=
      mutes_walk hs henclosed (.inr fun visit hv => (hforms visit hv).2.2.2)
    rw [hr fun visit hv => (hforms visit hv).2.1] at hfollow
    exact ⟨b.store, hfollow, fun _ => Iff.rfl⟩
  | false =>
    obtain ⟨top, below, hframes⟩ := List.exists_cons_of_ne_nil (hb.resolve_left (by simp [hs]))
    have htop : b.scope.top? = some top := by rw [Scope.top?, hframes]; rfl
    exact ⟨_, follow_walk_enriching (hp.asks_enriches hd) hs htop, fun _ => Store.has_modify_iff⟩

/-- In flag mode suppression ends as in depth mode if no annotation type is met, or if suppression
is inactive at first and no annotation type stands below another one. -/
theorem concur_depth {s : Suppression}
    (h : s.mode = .flag → (∀ q ∈ p.preorder, q.form ≠ .annotationTypeDeclaration) ∨
      s.active = false ∧ p.AnnotationTypesApart) :
    Concur { s with mode := .depth } s p.walk := by
  obtain ⟨mode, depth⟩ := s
  cases mode with
  | depth => exact concur_refl _ _
  | flag =>
    rcases h rfl with hlacks | ⟨hinactive, hapart⟩
    · have hactive : (⟨.depth, depth⟩ : Suppression).active =
          (⟨.flag, depth⟩ : Suppression).active := rfl
      exact (concur_of_lacks (lacks_of_preorder hlacks) hactive).1
    · have hdepth : depth = 0 := by simpa [Suppression.active] using hinactive
      exact concur_walk hapart hdepth hdepth

/-- The list of parameters of a lambda expression. Its formal parameters and their declarators do
nothing, so that their visits may be left out, in nested lambda expressions too. A parameter of
variable arity opens a component, unless it is suppressed. If nothing else is declared in the list,
the walk returns and no component is new; and in any case what was open before is open after it. -/
theorem follow_lambdaParameters (b : Builder) (list : Place)
    (hlist : list.parentForm? = some .lambdaExpression) :
    (∀ c ∈ list.namedChildren, c.form = .formalParameter ∨ c.form = .spreadParameter →
      if c.form = .spreadParameter ∧ b.suppressed = false then
        ∃ frame, (b.run (opsFor b (.enter c))).state.scope.frames = frame :: b.scope.frames
      else PassesOver b c ∧
        ∀ d ∈ c.namedChildren, d.form = .variableDeclarator → PassesOver b d) ∧
    follow b (list.walk.filter fun visit => !visit.place.isLambdaFormal) = follow b list.walk ∧
    (Plain list → b.suppressed = true ∨ b.scope.frames ≠ [] → ∃ store,
      follow b list.walk = .ok (b.withStore store) () ∧ ∀ id, store.Has id ↔ b.store.Has id) ∧
    ∀ b', b.scope.Reached → (∀ q ∈ list.preorder, q.form ∉ [.packageDeclaration, .program]) →
      (b.suppression.mode = .flag →
        (∀ q ∈ list.preorder, q.form ≠ .annotationTypeDeclaration) ∨
          b.suppressed = false ∧ list.AnnotationTypesApart) →
      follow b list.walk = .ok b' () → b'.scope.frames = b.scope.frames := by
  have hd : ¬ list.Declares := not_declares_of_lambda hlist
  refine ⟨fun c hc hp => passesOver_or_opens hlist hc hp b,
    follow_filter (fun _ => idle_of_isLambdaFormal) b list.walk, fun hp hb => follow_plain hp hd hb,
    fun b' hb hforms hmode h => ?_⟩
  have henclosed : Enclosed list := by
    intro visit hv
    simpa using hforms _ (mem_preorder_of_mem_walk hv)
  exact frames_follow_of_concur hb henclosed hd (concur_depth hmode) h

/-- The list of a lambda expression with one formal parameter, which is annotated with a further
lambda expression, and with the parameters that are given. -/
def lambdaParameters (more : List Node) : Place where
  source := "s".toUTF8.toList
  node := parameters (annotated :: more)
  above := [⟨lambda (annotated :: more), []⟩]
where
  type : Node := .mk { type := "type_identifier" } []
  parameters (children : List Node) : Node := .mk { type := "formal_parameters" } children
  lambda (children : List Node) : Node :=
    .mk { type := "lambda_expression" } [parameters children]
  annotated : Node :=
    .mk { type := "formal_parameter" } [.mk { type := "modifiers" } [.mk { type := "annotation" }
      [lambda [.mk { type := "formal_parameter" } [type]]]], type]
  variableArity : Node :=
    .mk { type := "spread_parameter" } [type, .declaration "variable_declarator" 0 []]

/-- The two formal parameters are passed over. A parameter of variable arity beside the outer one
opens a component, which is closed before the walk ends. -/
theorem follow_lambdaParameters_nested :
    let b := inClass .flag []
    let formal := lambdaParameters []
    let visits := formal.walk.filter fun visit => !visit.place.isLambdaFormal
    let mixed := lambdaParameters [lambdaParameters.variableArity]
    (∀ c ∈ formal.namedChildren, PassesOver b c) ∧ follow b visits = follow b formal.walk ∧
      visits.length + 4 = formal.walk.length ∧
      (∃ store, follow b formal.walk = .ok (b.withStore store) () ∧
        ∀ id, store.Has id ↔ b.store.Has id) ∧
      (∃ c ∈ mixed.namedChildren, ∃ frame,
        (b.run (opsFor b (.enter c))).state.scope.frames = frame :: b.scope.frames) ∧
      ∃ b', follow b mixed.walk = .ok b' () ∧ b'.scope.frames = b.scope.frames := by
  intro b formal visits mixed
  have hwalk (p : Place) : p.walk = visitsAt p.source p.above p.node := (visitsAt_eq p).symm
  obtain ⟨hpassed, hfilter, hplain, -⟩ := follow_lambdaParameters b formal (by decide +kernel)
  obtain ⟨hopens, -, -, hframes⟩ := follow_lambdaParameters b mixed (by decide +kernel)
  refine ⟨fun c hc => ?_, hfilter, ?_, ?_, ?_, ?_⟩
  · have hform : ∀ c ∈ formal.namedChildren, c.form = .formalParameter := by decide +kernel
    have hc' := hpassed c hc (.inl (hform c hc))
    rw [if_neg (by simp [hform c hc])] at hc'
    exact hc'.1
  · simp only [visits, hwalk]
    decide +kernel
  · exact hplain (plain_of_preorder (by decide +kernel)) (.inr (by decide +kernel))
  · obtain ⟨c, hc, hform⟩ : ∃ c ∈ mixed.namedChildren, c.form = .spreadParameter := by
      decide +kernel
    have hc' := hopens c hc (.inr hform)
    rw [if_pos ⟨hform, by decide +kernel⟩] at hc'
    exact ⟨c, hc, hc'⟩
  · have hf := Outcome.eq_ok_of_isOk (o := follow b (visitsAt mixed.source mixed.above mixed.node))
      (by decide +kernel)
    rw [← hwalk mixed] at hf
    exact ⟨_, hf, hframes _ (reached_step .new _) (by decide +kernel)
      (fun _ => .inl (by decide +kernel)) hf⟩

/-- A parameter of variable arity becomes a component. -/
theorem variableArity_finalized :
    let b := inClass .depth []
    let list := lambdaParameters [lambdaParameters.variableArity]
    list.parentForm? = some .lambdaExpression ∧ b.catalog.table.keys = [] ∧
      ∃ b', follow b list.walk = .ok b' () ∧ b'.catalog.table.keys = ["C.s"] := by
  intro b list
  have hwalk : list.walk = visitsAt list.source list.above list.node := (visitsAt_eq list).symm
  have hf := Outcome.eq_ok_of_isOk (o := follow b (visitsAt list.source list.above list.node))
    (by decide +kernel)
  rw [hwalk]
  exact ⟨by decide +kernel, by decide +kernel, _, hf, by decide +kernel⟩

end Java

end CodeAtlas
