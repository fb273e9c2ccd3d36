import CodeAtlas.Proofs.Builder.Sound

/-! # Shapes of builders

Where the last write wins, nothing is ever refused. Whether an operation fails then depends only on
how many components are open, in which groups, and which of them have a name. This much of a
builder is its shape, and the builder's work on it does not depend on any catalog.
-/

namespace CodeAtlas

namespace Outcome

variable {σ α β : Type}

def reached? (o : Outcome σ α) : Option σ :=
  match o.result with
  | .ok _ => some o.state
  | .error _ => none

@[simp] theorem reached?_ok (s : σ) (a : α) : (Outcome.ok s a).reached? = some s := rfl

@[simp] theorem reached?_fail (s : σ) (fault : Fault) :
    (Outcome.fail s fault : Outcome σ α).reached? = none :=
  rfl

theorem reached?_andThen (o : Outcome σ α) (next : σ → Outcome σ β) :
    (o.andThen next).reached? = o.reached?.bind fun s => (next s).reached? := by
  obtain ⟨s, result⟩ := o
  cases result <;> rfl

theorem reached?_eq_some_iff {o : Outcome σ α} {s : σ} :
    o.reached? = some s ↔ ∃ a, o = .ok s a := by
  obtain ⟨t, result⟩ := o
  cases result <;> simp [reached?, ok]

end Outcome

structure Shape.Part where
  group : Nat
  kind : Kind
  named : Bool

/-- What is open, innermost first, how many frames there have ever been, and what is suppressed. -/
structure Shape where
  parts : List Shape.Part
  pushed : Nat
  suppression : Suppression

namespace Shape

def suppressed (s : Shape) : Bool := s.suppression.active

def push (s : Shape) (part : Part) : Shape :=
  { s with parts := part :: s.parts, pushed := s.pushed + 1 }

def declare (s : Shape) (named : Bool) : Option Shape :=
  match s.parts with
  | [] => none
  | top :: below =>
    if top.named then some (s.push { top with named })
    else some { s with parts := { top with named } :: below }

def close (s : Shape) : Option Shape :=
  match s.parts with
  | [] => none
  | top :: _ => some { s with parts := s.parts.drop (s.parts.countP (·.group == top.group)) }

def step (s : Shape) : Op → Option Shape
  | .beginPackage name _ => some (push { s with parts := [] } ⟨s.pushed, .package, name != ""⟩)
  | .openComponent kind _ shortName _ =>
    if s.suppressed then some s else some (s.push ⟨s.pushed, kind, shortName.getD "" != ""⟩)
  | .nameDeclarator name => if s.suppressed then some s else s.declare (name != "")
  | .close => if s.suppressed then some s else s.close
  | .endUnit =>
    if s.suppressed && !s.parts.isEmpty then none else some { s with parts := [] }
  | .enterSuppressed => some { s with suppression := s.suppression.enter }
  | .exitSuppressed => some { s with suppression := s.suppression.exit }
  | .enrich _ => if s.suppressed then some s else if s.parts.isEmpty then none else some s
  | .current => if s.parts.isEmpty then none else some s
  | .addImport _ | .resolve _ => some s

end Shape

namespace Builder

variable {a b b' : Builder} {frame : Frame} {below : List Frame} {c : Component}

def part (b : Builder) (f : Frame) : Shape.Part :=
  ⟨f.group, (b.store.get f.component).kind, (b.store.get f.component).hasName⟩

def shape (b : Builder) : Shape := ⟨b.scope.frames.map b.part, b.scope.pushed, b.suppression⟩

@[simp] theorem suppressed_shape (b : Builder) : b.shape.suppressed = b.suppressed := rfl

theorem currentKind?_eq (b : Builder) :
    b.currentKind? = b.shape.parts.head?.map Shape.Part.kind := by
  simp only [currentKind?, Scope.top?, shape, List.head?_map, Option.map_map]
  rfl

theorem hasName_eq (c : Component) : c.hasName = (c.shortName.getD "" != "") := by
  unfold Component.hasName
  cases c.shortName <;> rfl

theorem hasName_congr {c c' : Component} (h : c'.shortName = c.shortName) :
    c'.hasName = c.hasName := by
  rw [hasName_eq, hasName_eq, h]

theorem map_part_congr {frames : List Frame}
    (hk : ∀ f ∈ frames, (b'.store.get f.component).kind = (b.store.get f.component).kind)
    (hn : ∀ f ∈ frames,
      (b'.store.get f.component).shortName = (b.store.get f.component).shortName) :
    frames.map b'.part = frames.map b.part := by
  refine List.map_congr_left fun f hf => ?_
  rw [part, part, hk f hf, hasName_congr (hn f hf)]

/-- A sound builder in whose catalog the last write wins. -/
structure Lenient (b : Builder) : Prop where
  sound : Sound b
  policy_eq : b.catalog.policy = .lastWriteWins

theorem Sound.shape_adding (hs : Sound b) (frame : Frame) (c : Component)
    (hf : frame.component = (b.store.add c).2) :
    (b.adding frame c).shape = b.shape.push ⟨frame.group, c.kind, c.hasName⟩ := by
  have hold : b.scope.frames.map (b.adding frame c).part = b.scope.frames.map b.part := by
    apply map_part_congr
    all_goals intro f hm; rw [store_adding, Store.get_add_of_has (hs.has f hm)]
  have hnew : (b.adding frame c).part frame = ⟨frame.group, c.kind, c.hasName⟩ := by
    rw [part, store_adding, hf, Store.get_add_new]
  simp only [shape, frames_adding, List.map_cons, hold, hnew]
  rfl

theorem Sound.shape_push (hs : Sound b) (c : Component) :
    (b.push c).1.shape = b.shape.push ⟨b.scope.pushed, c.kind, c.hasName⟩ :=
  hs.shape_adding (b.innerFrame c) c rfl

theorem Lenient.closeTop (h : Lenient b) (hf : b.scope.frames = frame :: below) :
    ∃ b', b.closeTop = .ok b' () ∧ Lenient b' ∧
      b'.shape = { b.shape with parts := b.shape.parts.tail } := by
  have hne : b.scope.frames ≠ [] := by simp [hf]
  obtain ⟨name, t, after, placement, hc⟩ := h.sound.closing hf
  have hpolicy := policy_closeTop h.sound hne
  have hsound := h.sound.closeTop hne
  have hresult := hc.result_eq
  rw [if_neg (hc.ne_refused h.policy_eq)] at hresult
  refine ⟨b.closeTop.state, Outcome.eq_ok_of_isOk (by rw [hresult]; rfl),
    ⟨hsound, hpolicy.trans h.policy_eq⟩, ?_⟩
  have hdistinct := h.sound.distinct
  rw [hf, List.map_cons, List.nodup_cons] at hdistinct
  have hparts : below.map b.closeTop.state.part = below.map b.part := by
    apply map_part_congr
    · intro f _
      rw [store, hc.store_eq, hc.alike.kind_eq, hc.attached.kind_eq]
    · intro f hm
      rw [store, hc.store_eq, hc.alike.shortName_eq, hc.attached.shortName_eq, if_neg]
      intro e
      exact hdistinct.1 (e ▸ List.mem_map_of_mem hm)
  simp only [shape, hc.scope_eq, hc.suppression_eq, hf, hparts, List.map_cons, List.tail_cons]

theorem Lenient.closeMany (h : Lenient b) {n : Nat} (hn : n ≤ b.scope.frames.length) :
    ∃ b', closeMany n b = .ok b' () ∧ Lenient b' ∧
      b'.shape = { b.shape with parts := b.shape.parts.drop n } := by
  induction n generalizing b with
  | zero => exact ⟨b, rfl, h, rfl⟩
  | succ n ih =>
    have hpos : 0 < b.scope.frames.length := by omega
    obtain ⟨frame, below, hf⟩ := List.exists_cons_of_length_pos hpos
    obtain ⟨b₁, h₁, hl₁, hs₁⟩ := h.closeTop hf
    have hlength : b₁.scope.frames.length = b.scope.frames.length - 1 := by
      simpa [shape] using congrArg (·.parts.length) hs₁
    obtain ⟨b₂, h₂, hl₂, hs₂⟩ := ih hl₁ (by omega)
    refine ⟨b₂, ?_, hl₂, ?_⟩
    · rw [Builder.closeMany, h₁, Outcome.andThen_ok, h₂]
    · rw [hs₂, hs₁]
      simp

theorem Lenient.step (h : Lenient b) (op : Op) : Lenient (b.step op).state := by
  refine ⟨h.sound.step op, ?_⟩
  have hclose (n : Nat) (hn : n ≤ b.scope.frames.length) :
      (Builder.closeMany n b).state.catalog.policy = .lastWriteWins := by
    obtain ⟨b', hc, hl, -⟩ := h.closeMany hn
    rw [hc]
    exact hl.policy_eq
  have he := b.step_effect op
  generalize b.step op = o at he
  cases he with
  | still ha => exact (congrArg Catalog.policy ha.catalog_eq).trans h.policy_eq
  | began name prov he => exact he.policy_eq.trans h.policy_eq
  | closed =>
    rw [state_andThen_done]
    exact hclose _ (b.countP_le_length _)
  | ended =>
    rw [state_andThen_done]
    exact hclose _ le_rfl
  | underflow | heldOpen | opened | renamed | joined | enriched => exact h.policy_eq

theorem Reachable.lenient (h : Reachable .lastWriteWins b) : Lenient b := by
  refine ⟨h.sound, ?_⟩
  induction h with
  | start => rfl
  | step op hb ih => exact (Lenient.step ⟨hb.sound, ih⟩ op).policy_eq
  | handOver _ _ _ _ ih => exact ih

theorem Lenient.shape_beginPackage (h : Lenient b) (name : String) (prov : Provenance) :
    (b.step (.beginPackage name prov)).state.shape =
      Shape.push { b.shape with parts := [] } ⟨b.scope.pushed, .package, name != ""⟩ := by
  have he := b.emptied_abandonOpen name prov.startLine
  have hkeep : (b.abandonOpen name prov.startLine).scope.pushed = b.scope.pushed ∧
      (b.abandonOpen name prov.startLine).suppression = b.suppression := by
    unfold abandonOpen
    split <;> exact ⟨rfl, rfl⟩
  have hs := h.sound.vacate (he.enterPackage name).toVacated
  refine (hs.shape_push _).trans ?_
  simp [shape, Shape.push, he.frames_eq, hkeep, hasName_eq]

theorem Lenient.shape_nameDeclarator (h : Lenient b) (hf : b.scope.frames = frame :: below)
    (name : String) : some (b.nameDeclarator frame name).shape = b.shape.declare (name != "") := by
  have hparts : b.shape.parts = b.part frame :: below.map b.part := by simp [shape, hf]
  rw [Shape.declare, hparts]
  cases hn : (b.store.get frame.component).hasName with
  | true =>
    rw [nameDeclarator_of_named hn]
    simp only [part, hn, if_true]
    exact congrArg some (h.sound.shape_adding (b.siblingFrame frame _) _ rfl)
  | false =>
    rw [nameDeclarator_of_unnamed hn]
    have hhas := h.sound.has frame (by simp [hf])
    have hdistinct := h.sound.distinct
    rw [hf, List.map_cons, List.nodup_cons] at hdistinct
    have hold : below.map (b.withStore (b.store.modify frame.component
        ({ · with shortName := some name }))).part = below.map b.part := by
      apply map_part_congr
      all_goals
        intro f hm
        rw [store_withStore, Store.get_modify_of_ne]
        intro e
        exact hdistinct.1 (e ▸ List.mem_map_of_mem hm)
    have hnew : (b.withStore (b.store.modify frame.component
        ({ · with shortName := some name }))).part frame =
          { b.part frame with named := name != "" } := by
      rw [part, store_withStore, Store.get_modify_self hhas, hasName_eq]
      rfl
    have hpart : (b.part frame).named = false := hn
    simp only [hpart, Bool.false_eq_true, if_false, shape, scope_withStore, hf, List.map_cons, hold,
      hnew]
    rfl

theorem shape_enrich (b : Builder) (what : Enrichment) (id : ComponentId) :
    (b.withStore (b.store.modify id (what.apply b.resolver))).shape = b.shape := by
  have hw := what.enriched b.resolver
  have hparts : b.scope.frames.map
      (b.withStore (b.store.modify id (what.apply b.resolver))).part =
        b.scope.frames.map b.part := by
    apply map_part_congr
    · exact fun f _ => Store.field_modify Component.kind hw.kind_eq _
    · exact fun f _ => Store.field_modify Component.shortName hw.shortName_eq _
  simp only [shape, scope_withStore, hparts]
  rfl

theorem isEmpty_parts (b : Builder) : b.shape.parts.isEmpty = b.scope.frames.isEmpty := by
  simp [shape]

/-- An operation on a builder does to its shape what the operation on the shape does. -/
theorem Lenient.reached?_step (h : Lenient b) (op : Op) :
    (b.step op).reached?.map shape = b.shape.step op := by
  cases op with
  | beginPackage name prov => exact congrArg some (h.shape_beginPackage name prov)
  | addImport | enterSuppressed | exitSuppressed | resolve => rfl
  | openComponent kind prov shortName withImports =>
    rw [Builder.step, Shape.step, suppressed_shape]
    split
    · rfl
    · have hs := h.sound.shape_push (b.fresh kind prov shortName withImports)
      rw [hasName_eq] at hs
      exact congrArg some hs
  | nameDeclarator name =>
    rw [Builder.step, Shape.step, suppressed_shape]
    split
    · rfl
    · cases ht : b.scope.top? with
      | none => simp [Shape.declare, shape, frames_eq_nil_of_top? ht]
      | some top =>
        obtain ⟨below, hf⟩ := frames_of_top? ht
        exact h.shape_nameDeclarator hf name
  | close =>
    rw [Builder.step, Shape.step, suppressed_shape]
    split
    · rfl
    · rw [Outcome.reached?_andThen]
      cases ht : b.scope.top? with
      | none =>
        simp [Builder.close, Scope.groupSize?, ht, Shape.close, shape, frames_eq_nil_of_top? ht]
      | some top =>
        obtain ⟨below, hf⟩ := frames_of_top? ht
        obtain ⟨b', hc, -, hs⟩ := h.closeMany (b.countP_le_length top)
        have hcount : b.shape.parts.countP (·.group == top.group) =
            b.scope.frames.countP (·.group == top.group) := by
          rw [shape, List.countP_map]
          rfl
        have hparts : b.shape.parts = b.part top :: below.map b.part := by simp [shape, hf]
        simp only [Builder.close, Scope.groupSize?, ht, Option.map_some, hc, Outcome.reached?_ok,
          Option.bind_some, hs, Shape.close]
        rw [hparts]
        simp only [← hparts]
        exact congrArg (fun n => some { b.shape with parts := b.shape.parts.drop n }) hcount.symm
  | endUnit =>
    rw [Builder.step, Shape.step, suppressed_shape, isEmpty_parts, Outcome.reached?_andThen,
      Builder.endUnit]
    split
    · rfl
    · obtain ⟨b', hc, -, hs⟩ := h.closeMany le_rfl
      rw [hc, Outcome.reached?_ok, Option.bind_some, Outcome.reached?_ok, Option.map_some, hs]
      simp [shape]
  | enrich what =>
    rw [Builder.step, Shape.step, suppressed_shape, isEmpty_parts]
    split
    · rfl
    · cases ht : b.scope.top? with
      | none => simp [frames_eq_nil_of_top? ht]
      | some top =>
        obtain ⟨below, hf⟩ := frames_of_top? ht
        simp [hf, shape_enrich]
  | current =>
    rw [Builder.step, Shape.step, isEmpty_parts]
    cases ht : b.scope.top? with
    | none => simp [frames_eq_nil_of_top? ht]
    | some top =>
      obtain ⟨below, hf⟩ := frames_of_top? ht
      simp [hf]

/-- Builders of one shape work alike, whatever is in their catalogs. -/
theorem step_of_shape (ha : Lenient a) (hb : Lenient b) (hab : a.shape = b.shape) {op : Op}
    {reply : Reply} (h : b.step op = .ok b' reply) :
    ∃ a' reply', a.step op = .ok a' reply' ∧ a'.shape = b'.shape := by
  have hstep := ha.reached?_step op
  rw [hab, ← hb.reached?_step op, h, Outcome.reached?_ok, Option.map_some] at hstep
  obtain ⟨a', hreached, hs⟩ := Option.map_eq_some_iff.mp hstep
  obtain ⟨reply', ha'⟩ := Outcome.reached?_eq_some_iff.mp hreached
  exact ⟨a', reply', ha', hs⟩

theorem run_of_shape (ha : Lenient a) (hb : Lenient b) (hab : a.shape = b.shape) {ops : List Op}
    (h : b.run ops = .ok b' ()) :
    ∃ a', a.run ops = .ok a' () ∧ Lenient a' ∧ Lenient b' ∧ a'.shape = b'.shape := by
  induction ops generalizing a b with
  | nil =>
    obtain ⟨rfl, -⟩ := Outcome.ok_inj h
    exact ⟨a, rfl, ha, hb, hab⟩
  | cons op rest ih =>
    obtain ⟨b₁, reply, h₁, h₂⟩ := Outcome.eq_ok_of_andThen h
    obtain ⟨a₁, reply', h₁', hab₁⟩ := step_of_shape ha hb hab h₁
    have ha₁ := ha.step op
    have hb₁ := hb.step op
    rw [h₁'] at ha₁
    rw [h₁] at hb₁
    obtain ⟨a₂, h₂', hrest⟩ := ih ha₁ hb₁ hab₁ h₂
    exact ⟨a₂, (congrArg (Outcome.andThen · _) h₁').trans h₂', hrest⟩

end Builder

end CodeAtlas
