import CodeAtlas.Proofs.Builder.Sound

/-! # Operations within groups

Operations that begin no package, end no unit, and name and close only components of groups from a
given one on. What one of them makes of a builder is said once; runs of them keep what each of them
keeps.
-/

namespace CodeAtlas.Builder

variable {b b₁ b' : Builder} {R : Op → Prop} {k : Nat} {ops ops' : List Op}

theorem reached_closeMany (h : b.scope.Reached) (n : Nat) :
    (closeMany n b).state.scope.Reached := by
  induction n generalizing b with
  | zero => exact h
  | succ n ih =>
    have h' : b.closeTop.state.scope.Reached := by
      rw [frames_closeTop]
      exact h.tail
    unfold closeMany Outcome.andThen
    split
    · exact ih h'
    · exact h'

theorem reached_nameDeclarator (h : b.scope.Reached) {top : Frame} (ht : b.scope.top? = some top)
    (name : String) : (b.nameDeclarator top name).scope.Reached := by
  unfold nameDeclarator
  dsimp only
  split
  · exact h.pushSibling (by rw [Scope.pushSibling?, ht]; rfl)
  · exact h

/-- Every operation leads to a scope that operations on scopes lead to. -/
theorem reached_step (h : b.scope.Reached) (op : Op) : (b.step op).state.scope.Reached := by
  cases op with
  | beginPackage name prov =>
    have hopen : (b.abandonOpen name prov.startLine).scope.Reached := by
      unfold abandonOpen
      split
      · exact h
      · exact h.clear
    exact hopen.push _
  | openComponent =>
    rw [Builder.step]
    split
    · exact h
    · exact h.push _
  | nameDeclarator name =>
    rw [Builder.step]
    split
    · exact h
    · split
      · exact h
      · exact reached_nameDeclarator h ‹_› name
  | close =>
    rw [Builder.step]
    split
    · exact h
    · rw [state_andThen_done, Builder.close]
      split
      · exact h
      · exact reached_closeMany h _
  | endUnit =>
    rw [Builder.step, state_andThen_done, Builder.endUnit]
    split
    · exact h
    · exact reached_closeMany h _
  | enrich =>
    rw [Builder.step]
    split
    · exact h
    · split <;> exact h
  | current =>
    rw [Builder.step]
    split <;> exact h
  | addImport | enterSuppressed | exitSuppressed | resolve => exact h

theorem reached_run (h : b.scope.Reached) (hr : b.run ops = .ok b' ()) :
    b'.scope.Reached := by
  have hs : (b.run ops).state.scope.Reached :=
    run_state (I := fun b => b.scope.Reached) (fun _ op _ h => reached_step h op) h
  rwa [hr] at hs

/-- The operation begins no package, ends no unit, and names and closes only components of groups
from `k` on. -/
def Within (k : Nat) (b : Builder) : Op → Prop
  | .openComponent kind _ _ _ => kind ≠ .package
  | .nameDeclarator _ | .close =>
    b.suppressed = true ∨ ∃ top, b.scope.top? = some top ∧ k ≤ top.group
  | .enrich _ | .addImport _ | .enterSuppressed | .exitSuppressed => True
  | .beginPackage _ _ | .endUnit | .current | .resolve _ => False

/-- Outside suppression, what is named or closed is of a group from `k` on. -/
theorem group_le_of_within
    (h : b.suppressed = true ∨ ∃ top, b.scope.top? = some top ∧ k ≤ top.group)
    (hs : b.suppressed = false) {top : Frame} (ht : b.scope.top? = some top) : k ≤ top.group := by
  rcases h with h | ⟨top', ht', hle⟩
  · rw [hs] at h
    cases h
  · obtain rfl := Option.some.inj (ht.symm.trans ht')
    exact hle

inductive Advance (k : Nat) (b : Builder) : Builder → Prop
  | still {b' : Builder} : Agree b b' → Advance k b b'
  | inside {c : Component} : c.Blank → c.kind ≠ .package →
      Advance k b (b.adding (b.innerFrame c) c)
  | renamed (name : String) {top : Frame} : b.scope.top? = some top → k ≤ top.group →
      Advance k b
        (b.withStore (b.store.modify top.component ({ · with shortName := some name })))
  | beside {top : Frame} {c : Component} : b.scope.top? = some top → k ≤ top.group → c.Blank →
      c.kind = (b.store.get top.component).kind → Advance k b (b.adding (b.siblingFrame top c) c)
  | enriched (id : ComponentId) {f : Component → Component} : Component.Enriched f →
      Advance k b (b.withStore (b.store.modify id f))
  | closed {top : Frame} {b' : Builder} : b.scope.top? = some top → k ≤ top.group →
      closeMany (b.scope.frames.countP (·.group == top.group)) b = .ok b' () → Advance k b b'

theorem Within.advance {op : Op} {reply : Reply} (hw : Within k b op)
    (h : b.step op = .ok b' reply) : Advance k b b' := by
  have he := b.step_effect op
  rw [h] at he
  generalize e : Outcome.ok b' reply = o at he
  cases he with
  | still ha =>
    obtain ⟨rfl, -⟩ := Outcome.ok_inj e
    exact .still ha
  | underflow => exact absurd e.symm Outcome.fail_ne_ok
  | heldOpen => cases hw
  | began => cases hw
  | opened kind prov shortName withImports =>
    obtain ⟨rfl, -⟩ := Outcome.ok_inj e
    exact .inside (b.blank_fresh kind prov shortName withImports) hw
  | renamed name hsup ht =>
    obtain ⟨rfl, -⟩ := Outcome.ok_inj e
    exact .renamed name ht (group_le_of_within hw hsup ht)
  | joined name hsup ht =>
    obtain ⟨rfl, -⟩ := Outcome.ok_inj e
    exact .beside ht (group_le_of_within hw hsup ht) (blank_sibling _ name) rfl
  | enriched what =>
    obtain ⟨rfl, -⟩ := Outcome.ok_inj e
    exact .enriched _ (what.enriched b.resolver)
  | closed hsup ht =>
    obtain ⟨b₁, _, h₁, h₂⟩ := Outcome.eq_ok_of_andThen e.symm
    obtain ⟨rfl, -⟩ := Outcome.ok_inj h₂
    exact .closed ht (group_le_of_within hw hsup ht) h₁
  | ended => cases hw

inductive Inner (R : Op → Prop) (k : Nat) : Builder → List Op → Builder → Prop
  | nil (b : Builder) : Inner R k b [] b
  | cons {b b₁ b' : Builder} {op : Op} {reply : Reply} {ops : List Op} : R op → Within k b op →
      b.step op = .ok b₁ reply → Inner R k b₁ ops b' → Inner R k b (op :: ops) b'

theorem Inner.single {op : Op} {reply : Reply} (hr : R op) (hw : Within k b op)
    (h : b.step op = .ok b' reply) : Inner R k b [op] b' :=
  .cons hr hw h (.nil b')

theorem Inner.append (h : Inner R k b ops b₁) (h' : Inner R k b₁ ops' b') :
    Inner R k b (ops ++ ops') b' := by
  induction h with
  | nil => exact h'
  | cons hr hw hs _ ih => exact .cons hr hw hs (ih h')

theorem Inner.keeps {I : Builder → Prop} (h : Inner R k b ops b')
    (step : ∀ b b' op reply, R op → Within k b op → b.step op = .ok b' reply → I b → I b')
    (hb : I b) : I b' := by
  induction h with
  | nil => exact hb
  | cons hr hw hs _ ih => exact ih (step _ _ _ _ hr hw hs hb)

theorem Inner.sound (h : Inner R k b ops b') (hs : Sound b) : Sound b' :=
  h.keeps (fun b b' op reply _ _ hstep hs => by
    have hs' := hs.step op
    rwa [hstep] at hs') hs

structure Moves (R : Op → Prop) (k : Nat) (b : Builder) (ops : List Op) (b' : Builder)
    (more : List Frame) : Prop where
  inner : Inner R k b ops b'
  frames_eq : b'.scope.frames = more ++ b.scope.frames
  pushed_le : b.scope.pushed ≤ b'.scope.pushed

theorem Moves.nil (b : Builder) : Moves R k b [] b [] := ⟨.nil b, rfl, le_rfl⟩

theorem Moves.append {more more' : List Frame} (h : Moves R k b ops b₁ more)
    (h' : Moves R k b₁ ops' b' more') : Moves R k b (ops ++ ops') b' (more' ++ more) :=
  ⟨h.inner.append h'.inner, by rw [h'.frames_eq, h.frames_eq, List.append_assoc],
    h.pushed_le.trans h'.pushed_le⟩

theorem moves_of_scope {op : Op} {reply : Reply} (h : b.step op = .ok b' reply) (hr : R op)
    (hw : Within k b op) (hs : b'.scope = b.scope) : Moves R k b [op] b' [] :=
  ⟨.single hr hw h, by rw [hs]; rfl, by rw [hs]⟩

theorem moves_openComponent {kind : Kind} {prov : Provenance} {shortName : Option String}
    {withImports : Bool} {reply : Reply}
    (h : b.step (.openComponent kind prov shortName withImports) = .ok b' reply)
    (hr : R (.openComponent kind prov shortName withImports)) (hk : kind ≠ .package) :
    ∃ more, Moves R k b [.openComponent kind prov shortName withImports] b' more ∧
      (b.suppressed = true → more = []) ∧
      (b.suppressed = false → ∃ frame, more = [frame] ∧ frame.group = b.scope.pushed) := by
  have hi : Inner R k b [.openComponent kind prov shortName withImports] b' := .single hr hk h
  cases hs : b.suppressed with
  | true =>
    rw [Builder.step, hs] at h
    obtain ⟨rfl, -⟩ := Outcome.ok_inj h
    exact ⟨[], ⟨hi, rfl, le_rfl⟩, fun _ => rfl, by simp⟩
  | false =>
    rw [Builder.step, hs] at h
    obtain ⟨rfl, -⟩ := Outcome.ok_inj h
    exact ⟨_, ⟨hi, rfl, Nat.le_succ _⟩, by simp, fun _ => ⟨_, rfl, rfl⟩⟩

theorem moves_nameDeclarator {name : String} {reply : Reply}
    (h : b.step (.nameDeclarator name) = .ok b' reply) (hr : R (.nameDeclarator name))
    (hw : Within k b (.nameDeclarator name)) :
    ∃ more, Moves R k b [.nameDeclarator name] b' more ∧ (more ≠ [] → b.suppressed = false ∧
      ∃ top, b.scope.top? = some top ∧ ∀ f ∈ more, f.group = top.group) := by
  have hi : Inner R k b [.nameDeclarator name] b' := .single hr hw h
  have he := b.step_effect (.nameDeclarator name)
  rw [h] at he
  generalize e : Outcome.ok b' reply = o at he
  cases he with
  | still ha =>
    obtain ⟨rfl, -⟩ := Outcome.ok_inj e
    exact ⟨[], ⟨hi, by rw [ha.scope_eq]; rfl, by rw [ha.scope_eq]⟩, fun h => absurd rfl h⟩
  | underflow => exact absurd e.symm Outcome.fail_ne_ok
  | renamed =>
    obtain ⟨rfl, -⟩ := Outcome.ok_inj e
    exact ⟨[], ⟨hi, rfl, le_rfl⟩, fun h => absurd rfl h⟩
  | @joined _ top hsup ht =>
    obtain ⟨rfl, -⟩ := Outcome.ok_inj e
    refine ⟨[_], ⟨hi, rfl, Nat.le_succ _⟩, fun _ => ⟨hsup, top, ht, ?_⟩⟩
    simp

theorem frames_step_close {reply : Reply} (h : b.step .close = .ok b' reply)
    (hs : b.suppressed = false) {top : Frame} {more below : List Frame}
    (hf : b.scope.frames = top :: more ++ below) (hm : ∀ f ∈ more, f.group = top.group)
    (hb : ∀ f ∈ below, f.group ≠ top.group) :
    b'.scope = ⟨below, b.scope.pushed⟩ := by
  have htop : b.scope.top? = some top := by rw [Scope.top?, hf]; rfl
  have hcount : b.scope.frames.countP (·.group == top.group) = (top :: more).length := by
    rw [hf, List.countP_append, List.countP_eq_length.mpr, List.countP_eq_zero.mpr, Nat.add_zero]
    · simpa using hb
    · simpa using hm
  simp only [Builder.step, hs, Builder.close, Scope.groupSize?, htop, Option.map_some,
    Bool.false_eq_true, if_false] at h
  obtain ⟨b₁, _, h₁, h₂⟩ := Outcome.eq_ok_of_andThen h
  obtain ⟨rfl, -⟩ := Outcome.ok_inj h₂
  rw [frames_of_closeMany h₁, hcount, hf, List.drop_left]

end CodeAtlas.Builder
