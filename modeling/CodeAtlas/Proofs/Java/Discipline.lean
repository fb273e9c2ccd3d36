import CodeAtlas.Proofs.Builder.Groups
import CodeAtlas.Proofs.Java.Quiet

/-! # Scope discipline of walks

In depth mode a walk closes what it opens. The walk of a tree without packages and programs leaves
the open components as they were, except that a declarator may open one beside the innermost. On
its way it names and closes only components that it has opened itself.
-/

namespace CodeAtlas

namespace Builder

variable {b b' : Builder} {R : Op → Prop} {k : Nat} {ops : List Op}

theorem scope_step_inert {op : Op} (hp : op.Inert) : (b.step op).state.scope = b.scope := by
  cases op with
  | enrich what =>
    rw [Builder.step]
    split
    · rfl
    · split <;> rfl
  | addImport => rfl
  | _ => cases hp

theorem moves_inert (hp : ∀ op ∈ ops, op.Inert) (hr : ∀ op ∈ ops, R op)
    (h : b.run ops = .ok b' ()) : Moves R k b ops b' [] := by
  induction ops generalizing b with
  | nil =>
    obtain ⟨rfl, -⟩ := Outcome.ok_inj h
    exact .nil b
  | cons op rest ih =>
    obtain ⟨hop, hrest⟩ := List.forall_mem_cons.mp hp
    obtain ⟨b₁, reply, h₁, h₂⟩ := Outcome.eq_ok_of_andThen h
    have hscope := scope_step_inert (b := b) hop
    rw [h₁] at hscope
    have hw : Within k b op := by cases op <;> trivial
    have hmove := moves_of_scope h₁ (hr op List.mem_cons_self) hw hscope
    exact hmove.append (ih hrest (fun op hm => hr op (List.mem_cons_of_mem _ hm)) h₂)

theorem moves_suppression {op : Op} (hs : (b.step op).state.scope = b.scope) (hr : R op)
    (hw : Within k b op) (h : b.run [op] = .ok b' ()) : Moves R k b [op] b' [] := by
  obtain ⟨b₁, reply, h₁, h₂⟩ := Outcome.eq_ok_of_andThen h
  obtain ⟨rfl, -⟩ := Outcome.ok_inj h₂
  rw [h₁] at hs
  exact moves_of_scope h₁ hr hw hs

end Builder

namespace Place

variable {p c : Place}

theorem Declares.owner (h : c.Declares) (hc : c ∈ p.namedChildren) :
    p.form.ownsDeclarators = true := by
  obtain ⟨-, parent, hp, ho⟩ := h
  obtain rfl := Option.some.inj ((parent?_of_mem_namedChildren hc).symm.trans hp)
  exact ho

theorem not_declares_of_opens_none (ho : p.opens? none = none) (hc : c ∈ p.namedChildren) :
    ¬ c.Declares := by
  intro hdecl
  have howns := hdecl.owner hc
  have hopens := Java.Form.opens?_of_ownsDeclarators howns none
  have hform : p.form ≠ .formalParameter := by
    intro e
    rw [e] at howns
    cases howns
  rw [opens?, if_neg (by simp [hform])] at ho
  rw [ho] at hopens
  cases hopens

theorem not_declares_of_opens (ho : (p.opens? none).isSome) : ¬ p.Declares := by
  rintro ⟨hf, -⟩
  simp [opens?, hf, Java.Form.opens?] at ho

def Asks (R : Op → Prop) (p : Place) : Prop :=
  ∀ visit ∈ p.walk, ∀ b, ∀ op ∈ Java.opsFor b visit, R op

theorem Asks.child {R : Op → Prop} (h : p.Asks R) (hc : c ∈ p.namedChildren) : c.Asks R :=
  fun visit hv => h visit (mem_walk_of_child hc hv)

end Place

namespace Java

open Builder Place

variable {b b₁ b' : Builder} {R : Op → Prop} {k : Nat} {p : Place} {ops : List Op}

/-- The walk opens nothing, or else it opens declarators beside the innermost component. -/
def Leaves (p : Place) (b : Builder) (more : List Frame) : Prop :=
  more ≠ [] → p.Declares ∧ b.suppressed = false ∧
    ∃ top, b.scope.top? = some top ∧ ∀ f ∈ more, f.group = top.group

structure Ready (k : Nat) (b : Builder) : Prop where
  reached : b.scope.Reached
  mode_eq : b.suppression.mode = .depth
  le_pushed : k ≤ b.scope.pushed

theorem ready_started (policy : CollisionPolicy) (store : Store) (path : String) :
    Ready 0 (started policy store path .depth) :=
  ⟨.new, rfl, Nat.zero_le _⟩

def trace (b : Builder) : List Visit → List Op
  | [] => []
  | visit :: rest => opsFor b visit ++ trace (b.run (opsFor b visit)).state rest

theorem trace_append {first second : List Visit} (h : follow b first = .ok b₁ ()) :
    trace b (first ++ second) = trace b first ++ trace b₁ second := by
  induction first generalizing b with
  | nil =>
    obtain ⟨rfl, -⟩ := Outcome.ok_inj h
    rfl
  | cons visit rest ih =>
    obtain ⟨b₂, _, h₁, h₂⟩ := Outcome.eq_ok_of_andThen h
    rw [List.cons_append, trace, trace, h₁, List.append_assoc]
    exact congrArg _ (ih h₂)

theorem reached_follow (h : b.scope.Reached) {visits : List Visit}
    (hf : follow b visits = .ok b' ()) : b'.scope.Reached := by
  have hs : (follow b visits).state.scope.Reached :=
    follow_state (I := fun b => b.scope.Reached) (fun _ op _ h => reached_step h op)
      (fun _ _ _ _ _ => trivial) h
  rwa [hf] at hs

theorem Ready.after {visits : List Visit} {more : List Frame} (h : Ready k b)
    (hf : follow b visits = .ok b' ()) (hm : Moves R k b ops b' more) : Ready k b' where
  reached := reached_follow h.reached hf
  mode_eq := by
    rw [suppression_follow hf, mode_foldl_suppress, h.mode_eq]
  le_pushed := h.le_pushed.trans hm.pushed_le

theorem Ready.suppression_walk (h : Ready k b) (hf : follow b p.walk = .ok b' ()) :
    b'.suppression = b.suppression := by
  rw [suppression_follow hf, foldl_suppress_walk h.mode_eq]

theorem suppressed_eq (h : b'.suppression = b.suppression) : b'.suppressed = b.suppressed := by
  rw [suppressed, suppressed, h]

def InGroup (b : Builder) (g : Nat) : Prop :=
  b.suppressed = true ∨ ∃ top, b.scope.top? = some top ∧ top.group = g

theorem InGroup.within {g : Nat} (h : InGroup b g) (hk : k ≤ g) (name : String) :
    Within k b (.nameDeclarator name) :=
  h.imp_right fun ⟨top, ht, e⟩ => ⟨top, ht, e ▸ hk⟩

theorem InGroup.moves {g : Nat} {more : List Frame} (h : InGroup b g) (hm : Moves R k b ops b' more)
    (hs : b'.suppression = b.suppression) (hg : ∀ f ∈ more, f.group = g) : InGroup b' g := by
  rcases h with h | ⟨top, ht, hgroup⟩
  · exact .inl ((suppressed_eq hs).trans h)
  · right
    unfold Scope.top? at ht ⊢
    rw [hm.frames_eq]
    cases more with
    | nil => exact ⟨top, ht, hgroup⟩
    | cons f more => exact ⟨f, rfl, hg f List.mem_cons_self⟩

theorem moves_children {g : Nat} (hk : k ≤ g) (ps : List Place)
    (ih : ∀ c ∈ ps, ∀ {b b'}, Ready k b → (c.Declares → Within k b (.nameDeclarator "")) →
      follow b c.walk = .ok b' () → ∃ more, Moves R k b (trace b c.walk) b' more ∧ Leaves c b more)
    (hready : Ready k b) (hg : ∀ c ∈ ps, c.Declares → InGroup b g)
    (h : follow b (ps.flatMap Place.walk) = .ok b' ()) :
    b'.suppression = b.suppression ∧
      ∃ more, Moves R k b (trace b (ps.flatMap Place.walk)) b' more ∧ (∀ f ∈ more, f.group = g) ∧
      (b.suppressed = true ∨ (∀ c ∈ ps, ¬ c.Declares) → more = []) := by
  induction ps generalizing b with
  | nil =>
    obtain ⟨rfl, -⟩ := Outcome.ok_inj h
    exact ⟨rfl, [], .nil b, by simp, fun _ => rfl⟩
  | cons c rest ihs =>
    obtain ⟨ihc, ihrest⟩ := List.forall_mem_cons.mp ih
    obtain ⟨hgc, hgrest⟩ := List.forall_mem_cons.mp hg
    rw [List.flatMap_cons, follow_append] at h
    obtain ⟨b₁, _, h₁, h₂⟩ := Outcome.eq_ok_of_andThen h
    obtain ⟨more₁, hm₁, hl₁⟩ := ihc hready (fun hd => (hgc hd).within hk _) h₁
    have hs₁ := hready.suppression_walk h₁
    have hgroup : ∀ f ∈ more₁, f.group = g := by
      intro f hf
      obtain ⟨hd, hsup, top, ht, hmore⟩ := hl₁ (List.ne_nil_of_mem hf)
      rcases hgc hd with hs | ⟨top', ht', hg'⟩
      · rw [hsup] at hs
        cases hs
      · rw [hmore f hf, ← hg', Option.some.inj (ht.symm.trans ht')]
    obtain ⟨hs₂, more₂, hm₂, hgroup₂, hnone₂⟩ := ihs ihrest (hready.after h₁ hm₁)
      (fun c hc hd => (hgrest c hc hd).moves hm₁ hs₁ hgroup) h₂
    rw [List.flatMap_cons, trace_append h₁]
    refine ⟨hs₂.trans hs₁, more₂ ++ more₁, hm₁.append hm₂, ?_, ?_⟩
    · intro f hf
      exact (List.mem_append.mp hf).elim (hgroup₂ f) (hgroup f)
    · intro hnone
      have hmore₁ : more₁ = [] := by
        by_contra hne
        obtain ⟨hd, hsup, -⟩ := hl₁ hne
        rcases hnone with hs | hno
        · rw [hsup] at hs
          cases hs
        · exact hno c List.mem_cons_self hd
      have hmore₂ : more₂ = [] := by
        refine hnone₂ (hnone.imp (suppressed_eq hs₁).trans fun hno c hc => ?_)
        exact hno c (List.mem_cons_of_mem _ hc)
      rw [hmore₁, hmore₂]
      rfl

/-- What a tree must not hold for its walk to stay where it is. -/
def Enclosed (p : Place) : Prop :=
  ∀ visit ∈ p.walk, visit.place.form ≠ .packageDeclaration ∧ visit.place.form ≠ .program

theorem Enclosed.child (h : Enclosed p) {c : Place} (hc : c ∈ p.namedChildren) : Enclosed c :=
  fun visit hv => h visit (mem_walk_of_child hc hv)

theorem follow_walk_eq (b : Builder) (p : Place) :
    follow b p.walk = (b.run (opsFor b (.enter p))).andThen fun b₁ =>
      (follow b₁ (p.namedChildren.flatMap Place.walk)).andThen fun b₂ => b₂.run p.exitOps := by
  have hlast (b₂ : Builder) : follow b₂ [.exit p] = b₂.run p.exitOps := by
    rw [follow, opsFor]
    obtain ⟨state, result⟩ := b₂.run p.exitOps
    cases result <;> rfl
  rw [Place.walk_eq, follow]
  simp only [follow_append, hlast]

theorem follow_walk (h : follow b p.walk = .ok b' ()) :
    ∃ b₁ b₂, b.run (opsFor b (.enter p)) = .ok b₁ () ∧
      follow b₁ (p.namedChildren.flatMap Place.walk) = .ok b₂ () ∧
      b₂.run p.exitOps = .ok b' () ∧ trace b p.walk = opsFor b (.enter p) ++
        (trace b₁ (p.namedChildren.flatMap Place.walk) ++ p.exitOps) := by
  rw [follow_walk_eq] at h
  obtain ⟨b₁, _, h₁, h⟩ := Outcome.eq_ok_of_andThen h
  obtain ⟨b₂, _, h₂, h₃⟩ := Outcome.eq_ok_of_andThen h
  refine ⟨b₁, b₂, h₁, h₂, h₃, ?_⟩
  rw [Place.walk_eq, trace, h₁]
  refine congrArg _ ((trace_append h₂).trans ?_)
  simp [trace, opsFor]

theorem moves_enter_declaration {kind : Kind} {prov : Provenance} {shortName : Option String}
    {withImports : Bool} {rest : List Op} (hkind : kind ≠ .package) (hplain : ∀ op ∈ rest, op.Inert)
    (hr : ∀ op ∈ .openComponent kind prov shortName withImports :: rest, R op)
    (h : b.run (.openComponent kind prov shortName withImports :: rest) = .ok b' ()) :
    ∃ opened, Moves R k b (.openComponent kind prov shortName withImports :: rest) b' opened ∧
      (b.suppressed = true → opened = []) ∧
      (b.suppressed = false → ∃ frame, opened = [frame] ∧ frame.group = b.scope.pushed) := by
  obtain ⟨b₀, _, h₀, h₁⟩ := Outcome.eq_ok_of_andThen h
  obtain ⟨hro, hrrest⟩ := List.forall_mem_cons.mp hr
  obtain ⟨opened, hopen, hnone, hnew⟩ := moves_openComponent h₀ hro hkind
  exact ⟨opened, hopen.append (moves_inert hplain hrrest h₁), hnone, hnew⟩

theorem Ready.enter (h : Ready k b) (h₁ : b.run (opsFor b (.enter p)) = .ok b₁ ())
    (hp : b.scope.pushed ≤ b₁.scope.pushed) : Ready k b₁ where
  reached := reached_run h.reached h₁
  mode_eq := by
    rw [suppression_run h₁, foldl_suppress_opsFor, ← h.mode_eq]
    exact mode_foldl_suppress [.enter p] b.suppression
  le_pushed := h.le_pushed.trans hp

/-- Inside a declaration one group is open that was not open before: its own component, and beside
it those of its declarators. -/
theorem moves_declaration {b₂ : Builder} (hready : Ready k b) (ho : (p.opens? none).isSome)
    (ha : p.Asks R)
    (ih : ∀ c ∈ p.namedChildren, ∀ {b b'}, Ready k b →
      (c.Declares → Within k b (.nameDeclarator "")) → follow b c.walk = .ok b' () →
      ∃ more, Moves R k b (trace b c.walk) b' more ∧ Leaves c b more)
    (h₁ : b.run (opsFor b (.enter p)) = .ok b₁ ())
    (h₂ : follow b₁ (p.namedChildren.flatMap Place.walk) = .ok b₂ ()) :
    b₂.suppression = b.suppression ∧ ∃ opened more, Moves R k b (opsFor b (.enter p)) b₁ opened ∧
      Moves R k b₁ (trace b₁ (p.namedChildren.flatMap Place.walk)) b₂ more ∧
      (∀ f ∈ more ++ opened, f.group = b.scope.pushed) ∧
      (b.suppressed = true → more ++ opened = []) ∧ (b.suppressed = false → opened.length = 1) := by
  have hr := ha _ p.enter_mem_walk b
  have hs₁ := suppression_run h₁
  rw [foldl_suppress_opsFor, Visit.suppress, if_neg (form_ne_of_opens ho rfl)] at hs₁
  obtain ⟨opened, hm₁, hnone₁, hnew⟩ : ∃ opened, Moves R k b (opsFor b (.enter p)) b₁ opened ∧
      (b.suppressed = true → opened = []) ∧
      (b.suppressed = false → ∃ frame, opened = [frame] ∧ frame.group = b.scope.pushed) := by
    have hentry := p.entry_enterOps b.currentKind?
    rw [opsFor] at h₁ hr ⊢
    generalize p.enterOps b.currentKind? = ops at hentry h₁ hr
    cases hentry with
    | opens _ hkind hrest =>
      exact moves_enter_declaration hkind (inert_of_enriches hrest) hr h₁
    | package _ hno | suppresses hno | declares hno | imports _ hno | enriches hno =>
      rw [hno] at ho
      cases ho
  have hgroup : InGroup b₁ b.scope.pushed := by
    cases hsup : b.suppressed with
    | true => exact .inl ((suppressed_eq hs₁).trans hsup)
    | false =>
      obtain ⟨frame, rfl, hg⟩ := hnew hsup
      exact .inr ⟨frame, by rw [Scope.top?, hm₁.frames_eq]; rfl, hg⟩
  obtain ⟨hs₂, more, hm₂, hmore, hnone₂⟩ := moves_children hready.le_pushed p.namedChildren ih
    (hready.enter h₁ hm₁.pushed_le) (fun _ _ _ => hgroup) h₂
  refine ⟨hs₂.trans hs₁, opened, more, hm₁, hm₂, ?_, ?_, ?_⟩
  · intro f hf
    rcases List.mem_append.mp hf with hf | hf
    · exact hmore f hf
    · cases hsup : b.suppressed with
      | true =>
        rw [hnone₁ hsup] at hf
        cases hf
      | false =>
        obtain ⟨frame, rfl, hg⟩ := hnew hsup
        rw [List.mem_singleton.mp hf, hg]
  · intro hsup
    rw [hnone₁ hsup, hnone₂ (.inl ((suppressed_eq hs₁).trans hsup))]
    rfl
  · intro hsup
    obtain ⟨frame, rfl, -⟩ := hnew hsup
    rfl

theorem moves_exit_declaration {group : List Frame} (hready : Ready k b)
    (hm : Moves R k b ops b₁ group) (hs : b₁.suppression = b.suppression)
    (hgroup : ∀ f ∈ group, f.group = b.scope.pushed)
    (hsome : group = [] ↔ b.suppressed = true) (hr : R .close)
    (h : b₁.run [.close] = .ok b' ()) : Moves R k b (ops ++ [.close]) b' [] := by
  obtain ⟨b₂, _, hstep, h₂⟩ := Outcome.eq_ok_of_andThen h
  obtain ⟨rfl, -⟩ := Outcome.ok_inj h₂
  have hsup' := suppressed_eq hs
  cases group with
  | nil =>
    have hsup := hsup'.trans (hsome.mp rfl)
    have hkept : b₁.step .close = .ok b₁ .done := step_guarded hsup trivial
    obtain ⟨rfl, -⟩ := Outcome.ok_inj (hkept.symm.trans hstep)
    exact hm.append (moves_of_scope hstep hr (.inl hsup) rfl)
  | cons top others =>
    -- The group that is closed is that of the declaration; what was open before is of others.
    obtain ⟨htop, hothers⟩ := List.forall_mem_cons.mp hgroup
    have hsup : b₁.suppressed = false := by
      rw [hsup']
      simpa using hsome
    have hscope := frames_step_close hstep hsup hm.frames_eq
      (fun f hf => (hothers f hf).trans htop.symm)
      fun f hf => htop ▸ (hready.reached.group_lt f hf).ne
    have hin : b₁.scope.top? = some top := by rw [Scope.top?, hm.frames_eq]; rfl
    refine ⟨hm.inner.append (.single hr (.inr ⟨top, hin, ?_⟩) hstep), ?_, ?_⟩
    · rw [htop]
      exact hready.le_pushed
    · rw [hscope]
      rfl
    · rw [hscope]
      exact hm.pushed_le

theorem leaves_nil (p : Place) (b : Builder) : Leaves p b [] := fun h => absurd rfl h

/-- A walk without packages and programs names and closes only what it has opened itself, and leaves
nothing open but declarators of the component around it. -/
theorem moves_walk (hready : Ready k b) (ha : p.Asks R) (hp : Enclosed p)
    (hd : p.Declares → Within k b (.nameDeclarator "")) (h : follow b p.walk = .ok b' ()) :
    ∃ more, Moves R k b (trace b p.walk) b' more ∧ Leaves p b more := by
  induction p using Place.induction generalizing b b' with
  | h p ih =>
    obtain ⟨b₁, b₂, h₁, h₂, h₃, htrace⟩ := follow_walk h
    obtain ⟨hpackage, hprogram⟩ := hp _ p.enter_mem_walk
    have hr := ha _ p.enter_mem_walk b
    have hr' : ∀ op ∈ p.exitOps, R op := ha _ p.exit_mem_walk b₂
    have ih' (c : Place) (hc : c ∈ p.namedChildren) {b b' : Builder} (hb : Ready k b)
        (hd : c.Declares → Within k b (.nameDeclarator "")) (h : follow b c.walk = .ok b' ()) :=
      ih c hc hb (ha.child hc) (hp.child hc) hd h
    rw [htrace]
    by_cases ho : (p.opens? none).isSome
    · obtain ⟨hs, opened, more, hm₁, hm₂, hgroup, hnone, hnew⟩ :=
        moves_declaration hready ho ha ih' h₁ h₂
      rw [exitOps_of_opens ho] at h₃ hr' ⊢
      rw [← List.append_assoc]
      refine ⟨[], moves_exit_declaration hready (hm₁.append hm₂) hs hgroup ⟨fun e => ?_, hnone⟩
        (hr' _ List.mem_cons_self) h₃, leaves_nil p b⟩
      by_contra hsup
      have hlength := hnew (by simpa using hsup)
      simp_all
    · have ho : p.opens? none = none := by simpa using ho
      have hthrough {first : List Frame} (hm₁ : Moves R k b (opsFor b (.enter p)) b₁ first)
          (hm₃ : Moves R k b₂ p.exitOps b' []) : Moves R k b (opsFor b (.enter p) ++
            (trace b₁ (p.namedChildren.flatMap Place.walk) ++ p.exitOps)) b' first := by
        have hchildless (c : Place) (hc : c ∈ p.namedChildren) : ¬ c.Declares :=
          not_declares_of_opens_none ho hc
        obtain ⟨-, more, hm₂, -, hnone⟩ := moves_children le_rfl p.namedChildren ih'
          (hready.enter h₁ hm₁.pushed_le) (fun c hc hdecl => absurd hdecl (hchildless c hc)) h₂
        rw [hnone (.inr hchildless)] at hm₂
        exact hm₁.append (hm₂.append hm₃)
      have hplainExit (ha : p.form ≠ .annotationTypeDeclaration) :
          Moves R k b₂ p.exitOps b' [] := by
        rw [exitOps_of_plain ho hprogram ha] at h₃ ⊢
        obtain ⟨rfl, -⟩ := Outcome.ok_inj h₃
        exact .nil b₂
      have hentry := p.entry_enterOps b.currentKind?
      rw [opsFor] at h₁ hr hthrough ⊢
      generalize p.enterOps b.currentKind? = ops at hentry h₁ hr hthrough
      cases hentry with
      | opens hsome =>
        rw [ho] at hsome
        cases hsome
      | package prov _ hf => exact absurd hf hpackage
      | suppresses _ hf =>
        rw [exitOps_of_suppresses hf] at h₃ hr' hthrough ⊢
        exact ⟨[], hthrough (moves_suppression rfl (hr _ List.mem_cons_self) trivial h₁)
          (moves_suppression rfl (hr' _ List.mem_cons_self) trivial h₃), leaves_nil p b⟩
      | declares _ hdecl hrest =>
        obtain ⟨b₀, _, h₀, h₁⟩ := Outcome.eq_ok_of_andThen h₁
        obtain ⟨hro, hrrest⟩ := List.forall_mem_cons.mp hr
        obtain ⟨more, hm₀, hmore⟩ := moves_nameDeclarator h₀ hro (hd hdecl)
        have hm₁ := hm₀.append (moves_inert (inert_of_enriches hrest) hrrest h₁)
        exact ⟨more, hthrough hm₁ (hplainExit (by simp [hdecl.1])), fun hne => ⟨hdecl, hmore hne⟩⟩
      | imports name _ hf =>
        exact ⟨[], hthrough (moves_inert (by simp [Op.Inert]) hr h₁) (hplainExit (by simp [hf])),
          leaves_nil p b⟩
      | enriches _ _ hf _ _ hops =>
        exact ⟨[], hthrough (moves_inert (inert_of_enriches hops) hr h₁) (hplainExit hf),
          leaves_nil p b⟩

theorem moves_walk_of_not_declares (hready : Ready k b) (hp : Enclosed p) (hd : ¬ p.Declares)
    (h : follow b p.walk = .ok b' ()) : Moves (fun _ => True) k b (trace b p.walk) b' [] := by
  obtain ⟨more, hm, hleaves⟩ :=
    moves_walk hready (fun _ _ _ _ _ => trivial) hp (fun hdecl => absurd hdecl hd) h
  obtain rfl : more = [] := by
    by_contra hne
    exact hd (hleaves hne).1
  exact hm

/-- Between entering and leaving a declaration, one group is open that was not open before. It
starts with what the entry has opened, and under suppression it is empty. -/
def Pairs (b : Builder) (p : Place) (b' : Builder) : Prop :=
  ∃ b₁ b₂ opened group, b.run (opsFor b (.enter p)) = .ok b₁ () ∧
    follow b₁ (p.namedChildren.flatMap Place.walk) = .ok b₂ () ∧
    b₂.run (opsFor b₂ (.exit p)) = .ok b' () ∧
    b₁.scope.frames = opened ++ b.scope.frames ∧ b₂.scope.frames = group ++ b.scope.frames ∧
    b'.scope.frames = b.scope.frames ∧ opened <:+ group ∧
    (if b.suppressed then group = [] else opened.length = 1) ∧
    (∀ f ∈ group, f.group = b.scope.pushed) ∧ ∀ f ∈ b.scope.frames, f.group ≠ b.scope.pushed

theorem pairs_walk (hready : Ready k b) (hp : Enclosed p) (ho : (p.opens? none).isSome)
    (h : follow b p.walk = .ok b' ()) : Pairs b p b' := by
  obtain ⟨b₁, b₂, h₁, h₂, h₃, -⟩ := follow_walk h
  have ha (q : Place) : q.Asks fun _ => True := fun _ _ _ _ _ => trivial
  obtain ⟨-, opened, more, hm₁, hm₂, hgroup, hnone, hnew⟩ := moves_declaration hready ho (ha p)
    (fun c hc {_ _} hb => moves_walk hb (ha c) (hp.child hc)) h₁ h₂
  have hm := moves_walk_of_not_declares hready hp (not_declares_of_opens ho) h
  refine ⟨b₁, b₂, opened, more ++ opened, h₁, h₂, h₃, hm₁.frames_eq,
    (hm₁.append hm₂).frames_eq, hm.frames_eq, List.suffix_append more opened, ?_, hgroup, ?_⟩
  · cases hsup : b.suppressed with
    | true => exact hnone hsup
    | false => exact hnew hsup
  · exact fun f hf => (hready.reached.group_lt f hf).ne

/-- In depth mode a walk without packages and programs leaves open what was open before, and each
declaration on the way is left with the closing of the group that entering it has opened. -/
theorem frames_follow_walk (hb : b.scope.Reached) (hm : b.suppression.mode = .depth)
    (hforms : ∀ q ∈ p.preorder, q.form ∉ [.packageDeclaration, .program]) (hd : ¬ p.Declares)
    (h : follow b p.walk = .ok b' ()) :
    b'.scope.frames = b.scope.frames ∧ b'.suppression = b.suppression ∧
      ∀ before q after, p.walk = before ++ q.walk ++ after → (q.opens? none).isSome →
        ∃ b₀ b₁, follow b before = .ok b₀ () ∧ follow b₀ q.walk = .ok b₁ () ∧ Pairs b₀ q b₁ := by
  have hready : Ready 0 b := ⟨hb, hm, Nat.zero_le _⟩
  have henclosed : Enclosed p := by
    intro visit hv
    simpa using hforms _ (mem_preorder_of_mem_walk hv)
  refine ⟨(moves_walk_of_not_declares hready henclosed hd h).frames_eq, hready.suppression_walk h,
    fun before q after hsplit ho => ?_⟩
  rw [hsplit, follow_append] at h
  obtain ⟨b₁, _, h₁, -⟩ := Outcome.eq_ok_of_andThen h
  rw [follow_append] at h₁
  obtain ⟨b₀, _, h₀, h₁⟩ := Outcome.eq_ok_of_andThen h₁
  have hready₀ : Ready 0 b₀ := by
    refine ⟨reached_follow hb h₀, ?_, Nat.zero_le _⟩
    rw [suppression_follow h₀, mode_foldl_suppress, hm]
  refine ⟨b₀, b₁, h₀, h₁, pairs_walk hready₀ (fun visit hv => henclosed visit ?_) ho h₁⟩
  rw [hsplit]
  exact List.mem_append_left _ (List.mem_append_right _ hv)

/-- A field with two declarators. The first one has a class in its initializer, with a method and an
annotation type inside. -/
def initializedField : Place where
  source := "a b".toUTF8.toList
  node := .mk { type := "field_declaration" }
    [.declaration "variable_declarator" 0 [.mk { type := "class_declaration" }
      [.mk { type := "method_declaration" } [],
        .mk { type := "annotation_type_declaration" } [.mk { type := "class_declaration" } []]]],
    .declaration "variable_declarator" 2 []]

theorem frames_follow_walk_initializedField :
    let b := ((started .lastWriteWins {} "C.java" .depth).run
      [.openComponent .classType ⟨1, 1, "", none⟩ "C" true]).state
    ∃ b', follow b initializedField.walk = .ok b' () ∧ b'.scope.frames = b.scope.frames ∧
      b.scope.frames.length = 1 ∧ b'.catalog.size = 4 ∧ Pairs b initializedField b' := by
  intro b
  have hb : b.scope.Reached := reached_step .new _
  have hwalk : initializedField.walk = visitsAt initializedField.source [] initializedField.node :=
    (visitsAt_eq ..).symm
  have hf := Outcome.eq_ok_of_isOk (o := follow b (visitsAt initializedField.source []
    initializedField.node)) (by decide +kernel)
  rw [← hwalk] at hf
  obtain ⟨hframes, -, hpairs⟩ := frames_follow_walk hb rfl (by decide +kernel)
    (by decide +kernel) hf
  obtain ⟨b₀, b₁, h₀, h₁, hpair⟩ := hpairs [] initializedField [] (by simp) rfl
  obtain ⟨rfl, -⟩ := Outcome.ok_inj h₀
  obtain ⟨rfl, -⟩ := Outcome.ok_inj (hf.symm.trans h₁)
  exact ⟨_, hf, hframes, rfl, by rw [hwalk]; decide +kernel, hpair⟩

end Java

end CodeAtlas
