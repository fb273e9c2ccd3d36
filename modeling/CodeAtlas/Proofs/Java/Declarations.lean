import Mathlib.Algebra.GroupWithZero.Nat
import CodeAtlas.Proofs.Builder.Tally
import CodeAtlas.Proofs.Java.Muted
import CodeAtlas.Proofs.Java.Units

/-! # Counting declarations

A unit opens one component for each declaration that no annotation type hides, and where names are
given by declarators, one for each of them. What the catalog then has and what it reports as
collisions are as many in all.
-/

namespace CodeAtlas

mutual

def exposedAt (source : List UInt8) (above : List Step) : Node → List Place
  | .mk label children =>
    ⟨source, .mk label children, above⟩ ::
      if (Node.mk label children).form = .annotationTypeDeclaration then []
      else exposedBelow source (.mk label children) above [] children

def exposedBelow (source : List UInt8) (parent : Node) (above : List Step)
    (earlier : List Node) : List Node → List Place
  | [] => []
  | child :: rest =>
    (if child.named then exposedAt source (⟨parent, earlier⟩ :: above) child else []) ++
      exposedBelow source parent above (child :: earlier) rest

end

namespace Place

open Java

variable {p : Place}

/-- The place and the places reached from it by named children, but not through an annotation
type. -/
def exposed (p : Place) : List Place := exposedAt p.source p.above p.node

theorem exposedBelow_eq (p : Place) (earlier children : List Node) :
    exposedBelow p.source p.node p.above earlier children =
      ((p.childrenFrom earlier children).filter (·.node.named)).flatMap exposed := by
  induction children generalizing earlier with
  | nil => rfl
  | cons child rest ih =>
    rw [exposedBelow, childrenFrom, ih, List.filter_cons]
    dsimp only
    split
    · rfl
    · rfl

theorem exposed_eq (p : Place) : p.exposed =
    p :: if p.form = .annotationTypeDeclaration then [] else p.namedChildren.flatMap exposed := by
  obtain ⟨source, ⟨label, children⟩, above⟩ := p
  have hbelow := exposedBelow_eq ⟨source, .mk label children, above⟩ [] children
  rw [exposed, exposedAt, hbelow]
  rfl

/-- How many components a place declares. -/
def declared (p : Place) : Nat :=
  match p.form with
  | .packageDeclaration | .classDeclaration | .recordDeclaration | .interfaceDeclaration
  | .enumDeclaration | .enumConstant | .methodDeclaration | .constructorDeclaration
  | .compactConstructorDeclaration => 1
  | .formalParameter => if p.isLambdaParameter then 0 else 1
  | .fieldDeclaration | .constantDeclaration | .localVariableDeclaration | .spreadParameter =>
    max 1 (p.namedChildren.countP (·.form == .variableDeclarator))
  | _ => 0

/-- How many components the exposed places declare. -/
def yield (p : Place) : Nat := (p.exposed.map declared).sum

theorem yield_of_annotationType (h : p.form = .annotationTypeDeclaration) : p.yield = 0 := by
  simp [yield, exposed_eq, h, declared]

theorem yield_eq (h : p.form ≠ .annotationTypeDeclaration) :
    p.yield = p.declared + (p.namedChildren.map yield).sum := by
  rw [yield, exposed_eq, if_neg h, List.map_cons, List.sum_cons]
  congr 1
  induction p.namedChildren with
  | nil => rfl
  | cons c rest ih => simp [yield, ih]

def declarators (ps : List Place) : Nat := ps.countP (decide ·.Declares)

theorem declarators_eq_zero {ps : List Place} (h : ∀ c ∈ ps, ¬ c.Declares) :
    declarators ps = 0 := by
  simpa [declarators, List.countP_eq_zero] using h

theorem declarators_of_owner (h : p.form.ownsDeclarators = true) :
    declarators p.namedChildren = p.namedChildren.countP (·.form == .variableDeclarator) := by
  refine List.countP_congr fun c hc => ?_
  simp only [decide_eq_true_eq, beq_iff_eq]
  exact ⟨fun hd => hd.1, fun hf => ⟨hf, p.node, parent?_of_mem_namedChildren hc, h⟩⟩

theorem declared_of_opens (h : (p.opens? none).isSome) :
    p.declared = max 1 (declarators p.namedChildren) := by
  by_cases ho : p.form.ownsDeclarators = true
  · rw [declarators_of_owner ho]
    unfold declared
    cases hf : p.form <;> simp_all [Form.ownsDeclarators]
  · have hnone : declarators p.namedChildren = 0 :=
      declarators_eq_zero fun c hc => not_declares_of_mem (by simpa using ho) hc
    rw [hnone]
    unfold declared
    unfold opens? at h
    cases hf : p.form <;> simp_all [Form.ownsDeclarators, Form.opens?]

theorem declared_of_opens_none (h : p.opens? none = none) (hp : p.form ≠ .packageDeclaration) :
    p.declared = 0 := by
  unfold declared
  unfold opens? at h
  cases hf : p.form <;> simp_all [Form.opens?]

end Place

namespace Builder

variable {b b' : Builder} {ops : List Op}

def topNamed (b : Builder) : Bool := b.scope.top?.any fun top => (b.store.get top.component).hasName

theorem topNamed_congr (hf : b'.scope.frames = b.scope.frames)
    (hn : ∀ top ∈ b.scope.top?,
      (b'.store.get top.component).shortName = (b.store.get top.component).shortName) :
    b'.topNamed = b.topNamed := by
  have htop : b'.scope.top? = b.scope.top? := by rw [Scope.top?, hf, Scope.top?]
  rw [topNamed, topNamed, htop]
  cases ht : b.scope.top? with
  | none => rfl
  | some top => simp only [Option.any_some, Component.hasName, hn top ht]

theorem topNamed_adding {frame : Frame} {c : Component} (h : frame.component = (b.store.add c).2) :
    (b.adding frame c).topNamed = c.hasName := by
  simp [topNamed, Scope.top?, h]

theorem topNamed_beside (b : Builder) (top : Frame) (c : Component) :
    (b.beside top c).topNamed = c.hasName :=
  topNamed_adding (b := b) rfl

theorem shortName_step_inert {op : Op} (hp : op.Inert) (id : ComponentId) :
    ((b.step op).state.store.get id).shortName = (b.store.get id).shortName := by
  cases op with
  | enrich what =>
    rw [Builder.step]
    split
    · rfl
    · split
      · rfl
      · exact Store.field_modify Component.shortName (what.enriched b.resolver).shortName_eq id
  | addImport => rfl
  | _ => cases hp

theorem topNamed_run_inert (hp : ∀ op ∈ ops, op.Inert) (h : b.run ops = .ok b' ()) :
    b'.scope = b.scope ∧ b'.topNamed = b.topNamed := by
  induction ops generalizing b with
  | nil =>
    obtain ⟨rfl, -⟩ := Outcome.ok_inj h
    exact ⟨rfl, rfl⟩
  | cons op rest ih =>
    obtain ⟨hop, hrest⟩ := List.forall_mem_cons.mp hp
    obtain ⟨b₁, reply, h₁, h₂⟩ := Outcome.eq_ok_of_andThen h
    have hscope := scope_step_inert (b := b) hop
    have hname (id : ComponentId) := shortName_step_inert (b := b) hop id
    rw [h₁] at hscope hname
    obtain ⟨hscope', hnamed'⟩ := ih hrest h₂
    exact ⟨hscope'.trans hscope,
      hnamed'.trans (topNamed_congr (congrArg Scope.frames hscope) fun _ _ => hname _)⟩

theorem topNamed_openComponent {kind : Kind} {prov : Provenance} {shortName : Option String}
    {withImports : Bool} {reply : Reply} (hs : b.suppressed = false)
    (h : b.step (.openComponent kind prov shortName withImports) = .ok b' reply) :
    b'.scope.pushed = b.scope.pushed + 1 ∧ (shortName = none → b'.topNamed = false) := by
  rw [Builder.step, hs] at h
  obtain ⟨rfl, -⟩ := Outcome.ok_inj h
  refine ⟨rfl, ?_⟩
  rintro rfl
  exact topNamed_adding rfl

theorem topNamed_nameDeclarator (hsound : Sound b) {name : String} {reply : Reply}
    (hs : b.suppressed = false) (hn : name ≠ "")
    (h : b.step (.nameDeclarator name) = .ok b' reply) :
    b'.scope.pushed = b.scope.pushed + b.topNamed.toNat ∧ b'.topNamed = true := by
  have hnamed (c : Component) : ({ c with shortName := some name } : Component).hasName = true := by
    simpa [Component.hasName] using hn
  rw [Builder.step, hs] at h
  cases ht : b.scope.top? with
  | none =>
    simp only [ht, Bool.false_eq_true, if_false] at h
    exact absurd h Outcome.fail_ne_ok
  | some top =>
    simp only [ht, Bool.false_eq_true, if_false] at h
    obtain ⟨rfl, -⟩ := Outcome.ok_inj h
    obtain ⟨below, hf⟩ := frames_of_top? ht
    have htop : b.topNamed = (b.store.get top.component).hasName := by simp [topNamed, ht]
    rw [htop]
    cases hname : (b.store.get top.component).hasName with
    | true =>
      rw [nameDeclarator_of_named hname]
      exact ⟨rfl, (topNamed_beside ..).trans (hnamed _)⟩
    | false =>
      rw [nameDeclarator_of_unnamed hname]
      refine ⟨rfl, ?_⟩
      rw [topNamed, scope_withStore, ht, Option.any_some, store_withStore,
        Store.get_modify_self (hsound.has top (by simp [hf]))]
      exact hnamed _

theorem pushed_step_close {reply : Reply} (h : b.step .close = .ok b' reply) :
    b'.scope.pushed = b.scope.pushed := by
  rw [Builder.step] at h
  split at h
  · obtain ⟨rfl, -⟩ := Outcome.ok_inj h
    rfl
  · obtain ⟨b₁, _, h₁, h₂⟩ := Outcome.eq_ok_of_andThen h
    obtain ⟨rfl, -⟩ := Outcome.ok_inj h₂
    unfold Builder.close at h₁
    split at h₁
    · exact absurd h₁ Outcome.fail_ne_ok
    · rw [frames_of_closeMany h₁]

end Builder

namespace Java

open Builder Place

variable {b b₁ b' : Builder} {p : Place}

structure Exposed (b : Builder) : Prop where
  sound : Sound b
  reached : b.scope.Reached
  mode_eq : b.suppression.mode = .depth
  suppressed_eq : b.suppressed = false

theorem Exposed.ready (h : Exposed b) : Ready b.scope.pushed b := ⟨h.reached, h.mode_eq, le_rfl⟩

theorem Exposed.follow {visits : List Visit} (h : Exposed b) (hf : follow b visits = .ok b' ())
    (hs : b'.suppression = b.suppression) : Exposed b' where
  sound := sound_follow h.sound hf
  reached := reached_follow h.reached hf
  mode_eq := by rw [hs, h.mode_eq]
  suppressed_eq := by rw [suppressed, hs]; exact h.suppressed_eq

theorem Exposed.run {ops : List Op} (h : Exposed b) (hr : b.run ops = .ok b' ())
    (hs : b'.suppression = b.suppression) : Exposed b' where
  sound := h.sound.run hr
  reached := reached_run h.reached hr
  mode_eq := by rw [hs, h.mode_eq]
  suppressed_eq := by rw [suppressed, hs]; exact h.suppressed_eq

/-- The walk opens as many components as the place yields, and one for its own declarator if the
innermost component has a name already. -/
structure Grows (p : Place) (b b' : Builder) : Prop where
  pushed_eq : b'.scope.pushed =
    b.scope.pushed + p.yield + if p.Declares then b.topNamed.toNat else 0
  topNamed_eq : b'.topNamed = (b.topNamed || decide p.Declares)

/-- Of the declarators among siblings, all open a component but the one that names the innermost
component. -/
theorem grows_siblings {ps : List Place}
    (ih : ∀ c ∈ ps, ∀ {b b'}, Exposed b → follow b c.walk = .ok b' () → Grows c b b')
    (hb : Exposed b) (h : follow b (ps.flatMap Place.walk) = .ok b' ()) :
    b'.scope.pushed = b.scope.pushed + (ps.map yield).sum +
        (declarators ps - if b.topNamed then 0 else 1) ∧
      b'.topNamed = (b.topNamed || decide (0 < declarators ps)) := by
  induction ps generalizing b with
  | nil =>
    obtain ⟨rfl, -⟩ := Outcome.ok_inj h
    simp [declarators]
  | cons c rest ihs =>
    obtain ⟨ihc, ihrest⟩ := List.forall_mem_cons.mp ih
    rw [List.flatMap_cons, follow_append] at h
    obtain ⟨b₁, _, h₁, h₂⟩ := Outcome.eq_ok_of_andThen h
    obtain ⟨hpushed, hnamed⟩ := ihc hb h₁
    obtain ⟨hpushed', hnamed'⟩ := ihs ihrest (hb.follow h₁ (hb.ready.suppression_walk h₁)) h₂
    rw [hpushed', hpushed, hnamed', hnamed, List.map_cons, List.sum_cons]
    unfold declarators at *
    by_cases hd : c.Declares
    · cases b.topNamed <;> simp [hd] <;> omega
    · cases b.topNamed <;> simp [hd] <;> omega

theorem Exposed.enter (h : Exposed b) (hp : p.form ≠ .annotationTypeDeclaration)
    (h₁ : b.run (opsFor b (.enter p)) = .ok b₁ ()) : Exposed b₁ := by
  refine h.run h₁ ?_
  rw [suppression_run h₁, foldl_suppress_opsFor, Visit.suppress, if_neg hp]

def DeclaratorsNamed (p : Place) : Prop :=
  ∀ visit ∈ p.walk, ∀ c ∈ visit.place.namedChildren, c.Declares → c.fieldText "name" ≠ ""

theorem DeclaratorsNamed.child (h : DeclaratorsNamed p) {c : Place} (hc : c ∈ p.namedChildren) :
    DeclaratorsNamed c :=
  fun visit hv => h visit (mem_walk_of_child hc hv)

theorem pushed_enter_declaration (hb : Exposed b) (ho : (p.opens? none).isSome)
    (h : b.run (opsFor b (.enter p)) = .ok b' ()) :
    b'.scope.pushed = b.scope.pushed + 1 ∧
      (p.form.ownsDeclarators = true → b'.topNamed = false) := by
  have hentry := p.entry_enterOps b.currentKind?
  rw [opsFor] at h
  generalize p.enterOps b.currentKind? = ops at hentry h
  cases hentry with
  | opens _ _ hrest =>
    obtain ⟨b₁, _, h₁, h₂⟩ := Outcome.eq_ok_of_andThen h
    obtain ⟨hpushed, hunnamed⟩ := topNamed_openComponent hb.suppressed_eq h₁
    obtain ⟨hscope, hnamed⟩ := topNamed_run_inert (inert_of_enriches hrest) h₂
    rw [hscope, hnamed]
    refine ⟨hpushed, fun howns => hunnamed ?_⟩
    rw [declaredName?, if_pos howns]
  | package _ hno | suppresses hno | declares hno | imports _ hno | enriches hno =>
    rw [hno] at ho
    cases ho

theorem topNamed_walk (hb : Exposed b) (he : Enclosed p) (hd : ¬ p.Declares)
    (h : follow b p.walk = .ok b' ()) : b'.topNamed = b.topNamed := by
  have hm := moves_walk_of_not_declares hb.ready he hd h
  refine topNamed_congr hm.frames_eq fun top ht => ?_
  have htop : top ∈ b.scope.frames := List.mem_of_mem_head? ht
  refine hm.inner.shortName_eq hb.sound ⟨hb.sound.has top htop, fun f hf _ => ?_⟩
  exact hb.reached.group_lt f hf

/-- Outside annotation types a walk opens what its places declare. -/
theorem grows_walk (hb : Exposed b) (he : Enclosed p) (hn : DeclaratorsNamed p)
    (hd : p.Declares → p.fieldText "name" ≠ "") (h : follow b p.walk = .ok b' ()) :
    Grows p b b' := by
  induction p using Place.induction generalizing b b' with
  | h p ih =>
    obtain ⟨hpackage, hprogram⟩ := he _ p.enter_mem_walk
    by_cases ha : p.form = .annotationTypeDeclaration
    · obtain ⟨r, hmute, -⟩ := mutes_annotationType ha he fun hf =>
        absurd (hb.mode_eq.symm.trans hf) nofun
      obtain ⟨rfl, -⟩ := Outcome.ok_inj (h.symm.trans hmute)
      have hno : ¬ p.Declares := fun hdecl => by simp [hdecl.1] at ha
      constructor
      · simp [yield_of_annotationType ha, hno]
      · rw [decide_eq_false hno, Bool.or_false]
        rfl
    obtain ⟨b₁, b₂, h₁, h₂, h₃, -⟩ := follow_walk h
    obtain ⟨hpushed, hnamed⟩ := grows_siblings
      (fun c hc {_ _} hb => ih c hc hb (he.child hc) (hn.child hc) (hn _ p.enter_mem_walk c hc))
      (hb.enter ha h₁) h₂
    by_cases ho : (p.opens? none).isSome
    · -- The component opened on entry is one of those that the declarators name.
      have hno := not_declares_of_opens ho
      obtain ⟨hopen, hunnamed⟩ := pushed_enter_declaration hb ho h₁
      rw [exitOps_of_opens ho] at h₃
      obtain ⟨b₃, _, hclose, hdone⟩ := Outcome.eq_ok_of_andThen h₃
      obtain ⟨rfl, -⟩ := Outcome.ok_inj hdone
      refine ⟨?_, by simp [hno, topNamed_walk hb he hno h]⟩
      rw [pushed_step_close hclose, hpushed, hopen, yield_eq ha, declared_of_opens ho, if_neg hno]
      by_cases howns : p.form.ownsDeclarators = true
      · simp only [hunnamed howns, Bool.false_eq_true, if_false]
        omega
      · rw [declarators_eq_zero fun c hc => not_declares_of_mem (by simpa using howns) hc]
        simp only [Nat.zero_sub, Nat.max_zero, Nat.add_zero]
        omega
    · have ho : p.opens? none = none := by simpa using ho
      have hnone : declarators p.namedChildren = 0 :=
        declarators_eq_zero fun c hc => not_declares_of_opens_none ho hc
      rw [exitOps_of_plain ho hprogram ha] at h₃
      obtain ⟨rfl, -⟩ := Outcome.ok_inj h₃
      rw [hnone] at hpushed hnamed
      simp only [Nat.zero_sub, Nat.add_zero, lt_irrefl, decide_false, Bool.or_false]
        at hpushed hnamed
      have hyield := yield_eq ha
      rw [declared_of_opens_none ho hpackage, Nat.zero_add] at hyield
      have hplain (hno : ¬ p.Declares) {ops : List Op} (hops : ∀ op ∈ ops, op.Inert)
          (h₁ : b.run ops = .ok b₁ ()) : Grows p b b₂ := by
        obtain ⟨hscope, hsame⟩ := topNamed_run_inert hops h₁
        constructor
        · rw [hpushed, hscope, hyield, if_neg hno, Nat.add_zero]
        · rw [hnamed, hsame]
          simp [hno]
      have hentry := p.entry_enterOps b.currentKind?
      rw [opsFor] at h₁
      generalize p.enterOps b.currentKind? = ops at hentry h₁
      cases hentry with
      | opens hsome =>
        rw [ho] at hsome
        cases hsome
      | package _ _ hf => exact absurd hf hpackage
      | suppresses _ hf => exact absurd hf ha
      | declares _ hdecl hrest =>
        obtain ⟨b₀, _, hname, h₁⟩ := Outcome.eq_ok_of_andThen h₁
        obtain ⟨hpushed₀, hnamed₀⟩ :=
          topNamed_nameDeclarator hb.sound hb.suppressed_eq (hd hdecl) hname
        obtain ⟨hscope, hsame⟩ := topNamed_run_inert (inert_of_enriches hrest) h₁
        constructor
        · rw [hpushed, hscope, hpushed₀, hyield, if_pos hdecl]
          omega
        · rw [hnamed, hsame, hnamed₀]
          simp [hdecl]
      | imports name _ hf =>
        have hno : ¬ p.Declares := fun hdecl => by simp [hdecl.1] at hf
        exact hplain hno (by simp [Op.Inert]) h₁
      | enriches _ _ _ _ hno hops => exact hplain hno (inert_of_enriches hops) h₁

theorem pushed_siblings {ps : List Place}
    (hps : ∀ c ∈ ps, Enclosed c ∧ DeclaratorsNamed c ∧ ¬ c.Declares) (hb : Exposed b)
    (h : follow b (ps.flatMap Place.walk) = .ok b' ()) :
    b'.scope.pushed = b.scope.pushed + (ps.map yield).sum := by
  obtain ⟨hpushed, -⟩ := grows_siblings (fun c hc {_ _} hb =>
    grows_walk hb (hps c hc).1 (hps c hc).2.1 fun hd => absurd hd (hps c hc).2.2) hb h
  rw [hpushed, declarators_eq_zero fun c hc => (hps c hc).2.2, Nat.zero_sub, Nat.add_zero]

theorem exposed_started (policy : CollisionPolicy) (store : Store) (path : String) :
    Exposed (started policy store path .depth) :=
  ⟨sound_started policy store path .depth, .new, rfl, rfl⟩

theorem Exposed.packaged (h : Exposed b) (name : String) (prov : Provenance) :
    Exposed (b.packaged name prov) where
  sound := by
    have hin : Sound (b.inPackage name) := h.sound.of_eq rfl rfl rfl
    exact hin.adding (b.blank_package name prov) (hin.fits_inner _)
  reached := h.reached.push _
  mode_eq := h.mode_eq
  suppressed_eq := h.suppressed_eq

variable {policy : CollisionPolicy} {store : Store} {path : String} {root : Place}

theorem tallied_started (policy : CollisionPolicy) (store : Store) (path : String) :
    Tallied (started policy store path .depth) :=
  rfl

theorem tallied_of_no_package (h : root.OneUnit) (hn : DeclaratorsNamed root)
    (hp : root.preorder.countP (·.form == .packageDeclaration) = 0)
    (hf : follow (started policy store path .depth) root.walk = .ok b' ()) :
    Tallied b' ∧ b'.scope.frames = [] ∧ b'.scope.pushed = (root.namedChildren.map yield).sum := by
  have henclosed := enclosed_of_no_package h.program h.programs hp
  obtain ⟨_, hfollow, hinner, hframes, -⟩ := follow_unit_of_no_package (R := fun _ => True)
    h.program (fun c hc => ⟨henclosed c hc, fun _ _ _ _ _ => trivial⟩)
    (ready_started policy store path) rfl rfl hf
  have htallied := hinner.tallied (sound_started policy store path .depth)
    (lone_started policy store path .depth) (tallied_started policy store path)
  have hroot : root.form.ownsDeclarators = false := by rw [h.program]; rfl
  refine ⟨htallied.2, hframes, ?_⟩
  rw [pushed_siblings (fun c hc => ⟨henclosed c hc, hn.child hc, not_declares_of_mem hroot hc⟩)
    (exposed_started policy store path) hfollow]
  exact Nat.zero_add _

theorem tallied_of_package (h : root.LeadsWithPackage) (hn : DeclaratorsNamed root)
    (hf : follow (started policy store path .depth) root.walk = .ok b' ()) :
    Tallied b' ∧ b'.scope.frames = [] ∧ b'.scope.pushed = (root.namedChildren.map yield).sum := by
  obtain ⟨before, package, after, hsplit, -, hpackage, hbefore, hinside, hafter⟩ := h.split
  have hasks (c : Place) : c.Asks fun _ => True := fun _ _ _ _ _ => trivial
  obtain ⟨prov, _, _, b₁, b₃, hw⟩ := packageWalk h.program hsplit hpackage
    (fun c hc => ⟨hbefore c hc, hasks c⟩) (fun c hc => ⟨hinside c hc, hasks c⟩)
    (fun c hc => ⟨hafter c hc, hasks c⟩) (ready_started policy store path) rfl rfl hf
  have hroot : root.form.ownsDeclarators = false := by rw [h.program]; rfl
  have hmem (c : Place) (hc : c ∈ before ++ package :: after) :
      DeclaratorsNamed c ∧ ¬ c.Declares :=
    ⟨hn.child (hsplit ▸ hc), not_declares_of_mem hroot (hsplit ▸ hc)⟩
  -- What is opened, before the package, with it and inside it.
  have hstart := exposed_started policy store path
  have hexposed₁ := hstart.follow hw.follow_before hw.suppression_before
  have hexposed₂ := hexposed₁.packaged package.dottedName prov
  have hpushed₁ := pushed_siblings
    (fun c hc => ⟨hbefore c hc, hmem c (List.mem_append_left _ hc)⟩) hstart hw.follow_before
  have hfollow := hw.follow_inside
  rw [← List.flatMap_append] at hfollow
  have hpushed₃ := pushed_siblings (fun c hc => by
    rcases List.mem_append.mp hc with hc | hc
    · have hnamed := (hmem package (by simp)).1
      exact ⟨hinside c hc, hnamed.child hc, not_declares_of_mem (by rw [hpackage]; rfl) hc⟩
    · exact ⟨hafter c hc, hmem c (by simp [hc])⟩) hexposed₂ hfollow
  -- What has become of it.
  obtain ⟨hlone₁, htallied₁⟩ := hw.leading.tallied hstart.sound
    (lone_started policy store path .depth) (tallied_started policy store path)
  have hlone₂ := (hlone₁.vacate (emptied_inPackage hw.frames_before
    package.dottedName).toVacated).package (c := b₁.package package.dottedName prov)
    (hexposed₁.sound.of_eq rfl rfl rfl) hw.frames_before
  have htallied₂ : Tallied (b₁.packaged package.dottedName prov) :=
    Tallied.adding (b := b₁.inPackage package.dottedName) htallied₁ _ _
  obtain ⟨hlone₃, htallied₃⟩ := hw.inside.tallied hexposed₂.sound hlone₂ htallied₂
  have hsound₃ := hw.inside.sound hexposed₂.sound
  have hframes₃ := hw.frames_inside.trans (frames_packaged hw.frames_before _ _)
  have hscope := b₃.frames_closeTop
  rw [hw.close, hframes₃] at hscope
  have hscope : b'.scope = ⟨[], b₃.scope.pushed⟩ := hscope
  refine ⟨htallied₃.closeTop hsound₃ hlone₃ hframes₃ hw.close, by rw [hscope], ?_⟩
  have hyield := yield_eq (p := package) (by simp [hpackage])
  have hdeclared : package.declared = 1 := by simp [declared, hpackage]
  have hpushed₂ : (b₁.packaged package.dottedName prov).scope.pushed = b₁.scope.pushed + 1 := rfl
  have hpushed₀ : (started policy store path .depth).scope.pushed = 0 := rfl
  rw [hscope, hsplit]
  simp only [List.map_append, List.map_cons, List.sum_append, List.sum_cons] at hpushed₃ ⊢
  omega

theorem tallied_follow (h : root.OneUnit) (hn : DeclaratorsNamed root)
    (hf : follow (started policy store path .depth) root.walk = .ok b' ()) :
    b'.catalog.size + b'.catalog.collisions = root.yield := by
  have htally : Tallied b' ∧ b'.scope.frames = [] ∧
      b'.scope.pushed = (root.namedChildren.map yield).sum := by
    rcases h.packages with hp | ⟨hp, -⟩
    · exact tallied_of_no_package h hn hp hf
    · exact tallied_of_package hp hn hf
  obtain ⟨htallied, hframes, hpushed⟩ := htally
  have hdeclared : root.declared = 0 := by simp [declared, h.program]
  rw [Tallied, hframes, hpushed] at htallied
  rw [yield_eq (by simp [h.program]), hdeclared, Nat.zero_add]
  exact htallied

/-- No declaration is lost and none is invented: the names of the catalog and the collisions are
as many as the components that the tree declares outside annotation types. -/
theorem size_add_collisions_of_walk {file : SourceFile} {strict : Bool} {catalog : Catalog}
    (h : file.root.OneUnit)
    (hnames : ∀ p ∈ file.root.preorder, ∀ c ∈ p.namedChildren, c.Declares →
      c.fieldText "name" ≠ "")
    (hw : walk (.empty policy {}) file .depth strict = .ok catalog ()) :
    catalog.size + catalog.collisions = (file.root.exposed.map Place.declared).sum := by
  obtain ⟨b, hf, rfl⟩ := follow_of_walk hw
  exact tallied_follow h (fun visit hv => hnames _ (mem_preorder_of_mem_walk hv)) hf

/-- A class with two methods of one name and a field with two declarators, the first of which has a
lambda expression as its value. An annotation type follows. -/
def declaring : SourceFile :=
  .program "C.java" "p C f a b"
    [.package 0,
      .declaration "class_declaration" 2
        [.declaration "method_declaration" 4 [], .declaration "method_declaration" 4 [],
        .mk { type := "field_declaration" }
          [.declaration "variable_declarator" 6 [lambda],
          .declaration "variable_declarator" 8 []]],
      .mk { type := "annotation_type_declaration" } [.mk { type := "class_declaration" } []]]
where
  lambda : Node :=
    .mk { type := "lambda_expression" }
      [.mk { type := "formal_parameters" } [.mk { type := "formal_parameter" } []]]

theorem size_add_collisions_of_walk_declaring :
    declaring.root.OneUnit ∧ ∃ catalog,
      walk (.empty .lastWriteWins {}) declaring .depth true = .ok catalog () ∧ catalog.size = 5 ∧
        catalog.size + catalog.collisions = 6 := by
  have hunit : declaring.root.OneUnit := by decide +kernel
  have hok := Outcome.eq_ok_of_isOk
    (o := walkTree (.empty .lastWriteWins {}) declaring .depth true) (by decide +kernel)
  have hw := (walk_eq_walkTree (.empty .lastWriteWins {}) declaring .depth true).trans hok
  have hcount : (declaring.root.exposed.map Place.declared).sum = 6 := by decide +kernel
  exact ⟨hunit, _, hw, by decide +kernel,
    (size_add_collisions_of_walk hunit (by decide +kernel) hw).trans hcount⟩

end Java

end CodeAtlas
