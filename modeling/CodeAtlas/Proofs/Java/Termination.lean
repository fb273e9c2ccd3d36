import Mathlib.Data.Prod.Lex
import Mathlib.Logic.Function.Iterate
import CodeAtlas.Proofs.Build.Containment
import CodeAtlas.Proofs.Builder.Endings
import CodeAtlas.Proofs.Java.Discipline

/-! # Walks come to an end

A walk is a loop that makes one visit in each round. Where it leaves a program, it closes the
components that are open, one group in each round. These rounds change nothing while suppression is
active, but outside of annotation types it never is when a program is left. So the visits that are
left and the components that are open make a measure that every round lowers.
-/

namespace CodeAtlas

namespace Builder

variable {b b' : Builder} {ops : List Op}

theorem step_avoids_heldOpen {op : Op} (ho : op ≠ .endUnit) :
    (b.step op).result ≠ .error .unitHeldOpen := by
  have he := b.step_effect op
  generalize b.step op = o at he
  cases he with
  | heldOpen | ended => exact absurd rfl ho
  | @closed top => exact fun e => fault_closeMany (b.countP_le_length top) (result_andThen_done _ e)
  | _ => simp [Outcome.ok, Outcome.fail]

theorem run_avoids_heldOpen (ho : .endUnit ∉ ops) :
    (b.run ops).result ≠ .error .unitHeldOpen := by
  induction ops generalizing b with
  | nil => simp [run, Outcome.ok]
  | cons op rest ih =>
    obtain ⟨hop, hrest⟩ := not_or.mp (List.mem_cons.not.mp ho)
    unfold Builder.run Outcome.andThen
    split
    · exact ih hrest
    · rintro ⟨⟩
      exact step_avoids_heldOpen (Ne.symm hop) ‹_›

end Builder

namespace Java

/-- Where a walk stands: visits are pending, or first what is open has to be closed, or the walk
has ended. -/
inductive Progress where
  | visiting (b : Builder) (pending : List Visit)
  | closing (b : Builder) (pending : List Visit)
  | ended (outcome : Outcome Builder Unit)

namespace Progress

def resume {α : Type} (o : Outcome Builder α) (next : Builder → Progress) : Progress :=
  match o.result with
  | .ok _ => next o.state
  | .error fault => ended (.fail o.state fault)

def round : Progress → Progress
  | visiting b [] => ended (.ok b ())
  | visiting b (.enter p :: rest) =>
    resume (b.run (opsFor b (.enter p)))
      (visiting · (p.namedChildren.map .enter ++ .exit p :: rest))
  | visiting b (.exit p :: rest) =>
    if p.form = .program then closing b rest
    else resume (b.run (opsFor b (.exit p))) (visiting · rest)
  | closing b rest =>
    if b.scope.frames = [] then visiting b rest else resume (b.step .close) (closing · rest)
  | ended outcome => ended outcome

def builder? : Progress → Option Builder
  | visiting b _ | closing b _ => some b
  | ended _ => none

def outcome : Progress → Outcome Builder Unit
  | visiting b pending => follow b (visitsFrom pending)
  | closing b pending => b.endUnit.andThen (follow · (visitsFrom pending))
  | ended outcome => outcome

/-- The visits that are left, and then the components that are open. -/
def rank : Progress → Nat ×ₗ Nat
  | visiting _ pending => toLex ((visitsFrom pending).length + 1, 0)
  | closing b pending => toLex ((visitsFrom pending).length + 1, b.scope.frames.length + 1)
  | ended _ => toLex (0, 0)

/-- Suppression is inactive wherever a program is left and while components are closed then. -/
def OnCourse : Progress → Prop
  | visiting b pending => b.scope.Reached ∧ UnitsAwake b.suppression (visitsFrom pending)
  | closing b pending =>
    b.scope.Reached ∧ b.suppressed = false ∧ UnitsAwake b.suppression (visitsFrom pending)
  | ended outcome => outcome.result ≠ .error .unitHeldOpen

variable {α : Type} {o : Outcome Builder α} {next : Builder → Progress} {s : Progress}
  {b : Builder} {rest : List Visit}

theorem outcome_resume (o : Outcome Builder α) (next : Builder → Progress) :
    (resume o next).outcome = o.andThen fun b => (next b).outcome := by
  obtain ⟨b, result⟩ := o
  cases result <;> rfl

theorem onCourse_resume (ho : o.result ≠ .error .unitHeldOpen)
    (h : ∀ b a, o = .ok b a → (next b).OnCourse) : (resume o next).OnCourse := by
  obtain ⟨b, result⟩ := o
  cases result with
  | ok a => exact h b a rfl
  | error fault =>
    intro e
    exact ho (congrArg Except.error (Except.error.inj e))

theorem rank_resume {r : Nat ×ₗ Nat} (hpos : toLex (0, 0) < r)
    (h : ∀ b a, o = .ok b a → (next b).rank < r) : (resume o next).rank < r := by
  obtain ⟨b, result⟩ := o
  cases result with
  | ok a => exact h b a rfl
  | error fault => exact hpos

theorem onCourse_visit {visit : Visit} (hno : .endUnit ∉ opsFor b visit) (hb : b.scope.Reached)
    (ha : UnitsAwake b.suppression (visit :: visitsFrom rest)) :
    (resume (b.run (opsFor b visit)) (visiting · rest)).OnCourse := by
  apply onCourse_resume (Builder.run_avoids_heldOpen hno)
  rintro b' ⟨⟩ hrun
  refine ⟨Builder.reached_run hb hrun, ?_⟩
  rw [Builder.suppression_run hrun, foldl_suppress_opsFor]
  exact ha.2

theorem onCourse_round (h : s.OnCourse) : s.round.OnCourse := by
  fun_cases round s with
  | case1 b => simp [OnCourse, Outcome.ok]
  | case2 b p rest =>
    obtain ⟨hb, ha⟩ := h
    rw [visitsFrom] at ha
    exact onCourse_visit (endUnit_notMem_enterOps p _) hb ha
  | case3 b p rest hp =>
    obtain ⟨hb, ha⟩ := h
    rw [visitsFrom] at ha
    refine ⟨hb, ha.1 p rfl hp, ?_⟩
    have hsuppress : Visit.suppress b.suppression (.exit p) = b.suppression := by
      simp [Visit.suppress, hp]
    exact hsuppress ▸ ha.2
  | case4 b p rest hp =>
    obtain ⟨hb, ha⟩ := h
    rw [visitsFrom] at ha
    exact onCourse_visit (endUnit_notMem_exitOps hp) hb ha
  | case5 b rest hnil => exact ⟨h.1, h.2.2⟩
  | case6 b rest hne =>
    obtain ⟨hb, hs, ha⟩ := h
    apply onCourse_resume (Builder.step_avoids_heldOpen (by simp))
    intro b' reply hstep
    have hreached := Builder.reached_step hb .close
    have hsup := b.suppression_step .close
    rw [hstep] at hreached hsup
    have hsup : b'.suppression = b.suppression := hsup
    refine ⟨hreached, ?_, hsup ▸ ha⟩
    rw [Builder.suppressed, hsup]
    exact hs
  | case7 => exact h

/-- No round changes how the walk will end. -/
theorem outcome_round (h : s.OnCourse) : s.round.outcome = s.outcome := by
  fun_cases round s with
  | case1 b => rw [outcome, outcome, visitsFrom, follow]
  | case2 b p rest =>
    rw [outcome_resume, outcome, visitsFrom]
    rfl
  | case3 b p rest hp =>
    rw [outcome, outcome, visitsFrom, follow, opsFor, Place.exitOps_of_program hp, Builder.run,
      Builder.step, Outcome.andThen_assoc, Outcome.andThen_assoc]
    rfl
  | case4 b p rest hp =>
    rw [outcome_resume, outcome, visitsFrom]
    rfl
  | case5 b rest hnil =>
    rw [outcome, outcome, Builder.endUnit_of_awake h.2.1, hnil]
    rfl
  | case6 b rest hne =>
    rw [outcome_resume, outcome, Builder.endUnit_eq_step_close h.2.1 hne, Outcome.andThen_assoc]
    rfl
  | case7 => rfl

/-- Every round lowers the rank, until the walk has ended. -/
theorem rank_round (h : s.OnCourse) (hs : s.builder?.isSome) : s.round.rank < s.rank := by
  fun_cases round s with
  | case1 b => simp [rank, Prod.Lex.toLex_lt_toLex]
  | case2 b p rest =>
    apply rank_resume (by simp [rank, Prod.Lex.toLex_lt_toLex])
    intro b' _ _
    simp [rank, visitsFrom, Prod.Lex.toLex_lt_toLex]
  | case3 b p rest hp => simp [rank, visitsFrom, Prod.Lex.toLex_lt_toLex]
  | case4 b p rest hp =>
    apply rank_resume (by simp [rank, Prod.Lex.toLex_lt_toLex])
    intro b' _ _
    simp [rank, visitsFrom, Prod.Lex.toLex_lt_toLex]
  | case5 b rest hnil => simp [rank, Prod.Lex.toLex_lt_toLex]
  | case6 b rest hne =>
    apply rank_resume (by simp [rank, Prod.Lex.toLex_lt_toLex])
    intro b' _ hstep
    have hlt := Builder.length_frames_step_close h.2.1 hne hstep
    simpa [rank, Prod.Lex.toLex_lt_toLex] using hlt
  | case7 => cases hs

theorem onCourse_iterate (h : s.OnCourse) (n : Nat) : (round^[n] s).OnCourse := by
  induction n with
  | zero => exact h
  | succ n ih =>
    rw [Function.iterate_succ_apply']
    exact onCourse_round ih

theorem ends (h : s.OnCourse) : ∃ n, round^[n] s = ended s.outcome := by
  induction e : s.rank using WellFoundedLT.induction generalizing s with
  | ind r ih =>
    by_cases hs : s.builder?.isSome
    · obtain ⟨n, hn⟩ := ih _ (e ▸ rank_round h hs) (onCourse_round h) rfl
      refine ⟨n + 1, ?_⟩
      rw [Function.iterate_succ_apply, hn, outcome_round h]
    · cases s with
      | ended o => exact ⟨0, rfl⟩
      | visiting | closing => simp [builder?] at hs

/-- Where components are closed, the next round finds none open, or closes some, or fails. -/
theorem round_closing (h : (closing b rest).OnCourse) :
    (b.scope.frames = [] ∧ round (closing b rest) = visiting b rest) ∨
      (∃ b', round (closing b rest) = closing b' rest ∧
        b'.scope.frames.length < b.scope.frames.length) ∨
      ∃ b' fault, round (closing b rest) = ended (.fail b' fault) := by
  rw [round]
  split
  · exact .inl ⟨‹_›, rfl⟩
  · rename_i hne
    cases hstep : b.step .close with
    | mk b' result =>
      cases result with
      | ok reply => exact .inr (.inl ⟨b', rfl, Builder.length_frames_step_close h.2.1 hne hstep⟩)
      | error fault => exact .inr (.inr ⟨b', fault, rfl⟩)

theorem reached_of_builder? (h : s.OnCourse) (hb : s.builder? = some b) : b.scope.Reached := by
  cases s with
  | visiting | closing =>
    cases hb
    exact h.1
  | ended => cases hb

def start (catalog : Catalog) (file : SourceFile) (mode : Suppression.Mode) : Progress :=
  visiting (startedIn catalog file.path mode) [.enter file.root]

theorem onCourse_start (catalog : Catalog) {file : SourceFile} (h : file.root.UnitsOutside)
    (mode : Suppression.Mode) : (start catalog file mode).OnCourse :=
  ⟨.new, Place.unitsAwake_walk h (s := { mode }) rfl⟩

theorem walk_of_outcome {file : SourceFile} {strict : Bool} (h : parse file strict = .ok file.root)
    (catalog : Catalog) (mode : Suppression.Mode) : walk catalog file mode strict =
      ((start catalog file mode).outcome.mapState Builder.catalog).andThen fun catalog =>
        .ok (catalog.note (.walkFinished file.path catalog.size)) () :=
  walk_of_parse h catalog mode

end Progress

theorem frames_of_program {b b' : Builder} {p : Place} (hp : p.form = .program)
    (h : follow b p.walk = .ok b' ()) : b'.scope.frames = [] := by
  rw [follow_walk_eq] at h
  obtain ⟨b₁, _, -, h₁⟩ := Outcome.eq_ok_of_andThen h
  obtain ⟨b₂, _, -, hexit⟩ := Outcome.eq_ok_of_andThen h₁
  rw [Place.exitOps_of_program hp] at hexit
  obtain ⟨b₃, reply, hstep, hnil⟩ := Outcome.eq_ok_of_andThen hexit
  obtain ⟨rfl, -⟩ := Outcome.ok_inj hnil
  exact Builder.frames_of_step_endUnit hstep

/-- The walk of a file without a program in an annotation type comes to an end. While components are
closed where a program is left, suppression is inactive, and each round closes some or fails, until
none is open. So nothing is open in the end if the root is a program and the walk does not fail. The
way outwards from an open component is finite at all times. -/
theorem walk_comes_to_end (catalog : Catalog) (file : SourceFile) (mode : Suppression.Mode)
    (strict : Bool) (h : file.root.UnitsOutside) :
    (parse file strict = .ok file.root →
      ∃ n done, Progress.round^[n] (.start catalog file mode) = .ended done ∧
        (walk catalog file mode strict = (done.mapState Builder.catalog).andThen fun catalog =>
          .ok (catalog.note (.walkFinished file.path catalog.size)) ()) ∧
        (file.root.form = .program → done.result.isOk = true → done.state.scope.frames = [])) ∧
    (walk catalog file mode strict).result ≠ .error .unitHeldOpen ∧
    ∀ n,
      (∀ b rest, Progress.round^[n] (.start catalog file mode) = .closing b rest →
        b.suppressed = false ∧
          ((b.scope.frames = [] ∧ Progress.round (.closing b rest) = .visiting b rest) ∨
            (∃ b', Progress.round (.closing b rest) = .closing b' rest ∧
              b'.scope.frames.length < b.scope.frames.length) ∨
            ∃ b' fault, Progress.round (.closing b rest) = .ended (.fail b' fault))) ∧
      ∀ b, (Progress.round^[n] (.start catalog file mode)).builder? = some b →
        ∀ inner f outer, b.scope.frames = inner ++ f :: outer →
          Scope.Climbs (f :: outer) (some f.slot)
            (f.component :: Scope.lineage outer f.parent) := by
  have hstart := Progress.onCourse_start catalog h mode
  obtain ⟨n, hn⟩ := Progress.ends hstart
  refine ⟨fun hp => ⟨n, _, hn, Progress.walk_of_outcome hp catalog mode, fun hroot hok => ?_⟩, ?_,
    fun n => ⟨?_, ?_⟩⟩
  · apply frames_of_program (p := file.root) hroot
    exact Outcome.eq_ok_of_isOk hok
  · have hend := Progress.onCourse_iterate hstart n
    rw [hn] at hend
    rcases parse_cases file strict with ⟨path, cause, line, hp⟩ | hp
    · simp [walk, hp, Outcome.fail]
    · rw [Progress.walk_of_outcome hp]
      generalize (Progress.start catalog file mode).outcome = done at hend
      obtain ⟨b, result⟩ := done
      cases result with
      | ok => simp [Outcome.mapState, Outcome.andThen, Outcome.ok]
      | error fault => exact hend
  · intro b rest hclosing
    have hcourse := Progress.onCourse_iterate hstart n
    rw [hclosing] at hcourse
    exact ⟨hcourse.2.1, Progress.round_closing hcourse⟩
  · intro b hb inner f outer hf
    have hreached := Progress.reached_of_builder? (Progress.onCourse_iterate hstart n) hb
    have hnested := hreached.nested.1
    rw [hf] at hnested
    exact hnested.of_append.climbs

/-- A program with a program of its own in the package `p`, and annotation types one in another. -/
def nestedUnits : SourceFile :=
  .program "A.java" "package p; class A {}"
    [.mk { type := "annotation_type_declaration" }
      [.mk { type := "annotation_type_declaration" } [], type],
    .mk { type := "program" } [.package 8, type], .package 8, type]
where
  type : Node := .declaration "class_declaration" 17 []

theorem walk_comes_to_end_nested :
    nestedUnits.root.UnitsOutside ∧ ∃ n b,
      Progress.round^[n] (.start (.empty .lastWriteWins {}) nestedUnits .flag) =
        .ended (.ok b ()) ∧ b.scope.frames = [] := by
  have hunits : nestedUnits.root.UnitsOutside := by decide +kernel
  have hok : (walk (.empty .lastWriteWins {}) nestedUnits .flag true).result.isOk = true := by
    rw [walk_eq_walkTree]
    decide +kernel
  obtain ⟨hend, -, -⟩ := walk_comes_to_end (.empty .lastWriteWins {}) nestedUnits .flag true hunits
  obtain ⟨n, done, hn, hwalk, hframes⟩ := hend rfl
  refine ⟨hunits, n, done.state, ?_⟩
  rw [hn]
  obtain ⟨b, result⟩ := done
  cases result with
  | ok => exact ⟨rfl, hframes rfl rfl⟩
  | error fault =>
    rw [hwalk] at hok
    cases hok

end Java

end CodeAtlas
