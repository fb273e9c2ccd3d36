import CodeAtlas.Proofs.Builder.Endings
import CodeAtlas.Proofs.Builder.Frozen

/-! # Underflow

An operation underflows if it needs an open component and there is none. It then has done nothing.
Closing several components looks at the scope before each of them, and finds all of them open.
-/

namespace CodeAtlas

/-- Outside suppression, the operation works on the innermost open component. -/
def Op.NeedsOpen : Op → Prop
  | .nameDeclarator _ | .close | .enrich _ => True
  | _ => False

namespace Builder

variable {b b' : Builder} {op : Op}

/-- An underflow is that of a builder with nothing open, which stays as it is. -/
theorem step_eq_of_underflow (h : (b.step op).result = .error .scopeUnderflow) :
    b.scope.frames = [] ∧ b.step op = .fail b .scopeUnderflow := by
  have hnil : b.scope.frames = [] := by
    by_contra hne
    exact step_avoids_underflow hne op h
  have he := b.step_effect op
  generalize b.step op = o at he h
  -- All other effects that can fail close components, and not for want of one.
  cases he with
  | underflow => exact ⟨hnil, rfl⟩
  | closed _ ht =>
    obtain ⟨below, hf⟩ := frames_of_top? ht
    rw [hnil] at hf
    cases hf
  | ended => exact absurd (result_andThen_done _ h) (fault_closeMany le_rfl)
  | _ => cases h

theorem underflow_iff_of_nil (h : b.scope.frames = []) :
    (b.step op).result = .error .scopeUnderflow ↔
      op = .current ∨ b.suppressed = false ∧ op.NeedsOpen := by
  have ht : b.scope.top? = none := by rw [Scope.top?, h]; rfl
  cases op with
  | current => simp [step, ht, Outcome.fail]
  | nameDeclarator | enrich =>
    cases hs : b.suppressed <;> simp [step, hs, ht, Op.NeedsOpen, Outcome.ok, Outcome.fail]
  | close =>
    cases hs : b.suppressed <;>
      simp [step, hs, ht, close, Scope.groupSize?, Op.NeedsOpen, Outcome.andThen, Outcome.ok,
        Outcome.fail]
  | endUnit => simp [step, endUnit, h, closeMany, Op.NeedsOpen, Outcome.andThen, Outcome.ok]
  | openComponent => cases hs : b.suppressed <;> simp [step, hs, Op.NeedsOpen, Outcome.ok]
  | beginPackage | addImport | enterSuppressed | exitSuppressed | resolve =>
    simp [step, Op.NeedsOpen, Outcome.ok]

theorem closeCount_le (b : Builder) (op : Op) : b.closeCount op ≤ b.scope.frames.length := by
  cases op with
  | close =>
    rw [closeCount]
    split
    · exact Nat.zero_le _
    · cases ht : b.scope.top? with
      | none => simp [Scope.groupSize?, ht]
      | some top => simpa [Scope.groupSize?, ht] using b.countP_le_length top
  | endUnit =>
    rw [closeCount]
    split
    · exact Nat.zero_le _
    · exact le_rfl
  | _ => exact Nat.zero_le _

theorem step_eq_closeMany (hop : op.Closes) (hs : b.suppressed = false)
    (hne : b.scope.frames ≠ []) :
    b.step op = (closeMany (b.closeCount op) b).andThen (.ok · .done) := by
  obtain ⟨top, below, hf⟩ := List.exists_cons_of_ne_nil hne
  cases op with
  | close => simp [step, closeCount, hs, close, Scope.groupSize?, Scope.top?, hf]
  | endUnit => simp [step, closeCount, hs, endUnit]
  | _ => cases hop

theorem closeTop_avoids_underflow {k : Nat} (hk : k < b.scope.frames.length)
    (h : closeMany k b = .ok b' ()) : b'.closeTop.result ≠ .error .scopeUnderflow := by
  have hne : b'.scope.frames ≠ [] := by
    rw [frames_of_closeMany h]
    exact List.ne_nil_of_length_pos (by rw [List.length_drop]; omega)
  exact fun e => fault_closeTop hne e

theorem queries_of_nil (h : b.scope.frames = []) :
    b.currentKind? = none ∧ b.completionCount = 1 := by
  simp [currentKind?, completionCount, Scope.groupSize?, Scope.top?, h]

theorem queries_of_ne_nil (h : b.scope.frames ≠ []) :
    b.currentKind?.isSome = true ∧ b.scope.groupSize? = some b.completionCount := by
  obtain ⟨top, below, hf⟩ := List.exists_cons_of_ne_nil h
  simp [currentKind?, completionCount, Scope.groupSize?, Scope.top?, hf]

/-- An operation underflows exactly if nothing is open and it asks for what is current, or is not
suppressed and works on an open component. It then leaves the builder as it was. Closing a group or
all that is open, group after group, never underflows at a component, whichever have been closed
before. The queries have an answer whether something is open or not. -/
theorem step_underflows_iff (b : Builder) (op : Op) :
    ((b.step op).result = .error .scopeUnderflow ↔
      b.scope.frames = [] ∧ (op = .current ∨ b.suppressed = false ∧ op.NeedsOpen)) ∧
    ((b.step op).result = .error .scopeUnderflow → (b.step op).state = b) ∧
    (op.Closes → b.suppressed = false → b.scope.frames ≠ [] →
      b.step op = (closeMany (b.closeCount op) b).andThen (.ok · .done) ∧
      ∀ k < b.closeCount op, ∀ b', closeMany k b = .ok b' () →
        b'.closeTop.result ≠ .error .scopeUnderflow) ∧
    (b.suppressed = false → b.scope.frames ≠ [] →
      b.step .endUnit = (b.step .close).andThen (·.step .endUnit)) ∧
    (b.scope.frames = [] → b.currentKind? = none ∧ b.completionCount = 1) ∧
    (b.scope.frames ≠ [] →
      b.currentKind?.isSome = true ∧ b.scope.groupSize? = some b.completionCount) := by
  refine ⟨⟨fun h => ?_, fun h => ?_⟩, fun h => ?_, fun hop hs hne => ⟨?_, ?_⟩, fun hs hne => ?_,
    queries_of_nil, queries_of_ne_nil⟩
  · obtain ⟨hnil, -⟩ := step_eq_of_underflow h
    exact ⟨hnil, (underflow_iff_of_nil hnil).mp h⟩
  · exact (underflow_iff_of_nil h.1).mpr h.2
  · rw [(step_eq_of_underflow h).2]
    rfl
  · exact step_eq_closeMany hop hs hne
  · exact fun k hk b' => closeTop_avoids_underflow (hk.trans_le (b.closeCount_le op))
  · have hstep (b : Builder) : b.step .endUnit = b.endUnit.andThen (.ok · .done) := rfl
    simp only [hstep]
    rw [endUnit_eq_step_close hs hne, Outcome.andThen_assoc]

def idle : Builder := .start (.empty .lastWriteWins {}) none .flag []

def twoFields : Builder :=
  idle.perform
    [.beginPackage "p" ⟨1, 1, "", none⟩, .openComponent .field ⟨2, 2, "", none⟩ none false,
      .nameDeclarator "a", .nameDeclarator "b"]

/-- A modifier has nowhere to go without an open component. Where two fields are declared together,
the first one is still open when the second has been closed. -/
theorem step_underflows_iff_twoFields :
    ((idle.step (.enrich (.modifier "final"))).result = .error .scopeUnderflow ∧
      (idle.step (.enrich (.modifier "final"))).state = idle) ∧
    twoFields.closeCount .close = 2 ∧ ∃ b', closeMany 1 twoFields = .ok b' () ∧
      b'.closeTop.result ≠ .error .scopeUnderflow := by
  obtain ⟨hiff, hstate, -⟩ := step_underflows_iff idle (.enrich (.modifier "final"))
  have hunderflow := hiff.mpr ⟨rfl, .inr ⟨rfl, trivial⟩⟩
  have hcount : twoFields.closeCount .close = 2 := by decide +kernel
  have hclosed := Outcome.eq_ok_of_isOk (o := closeMany 1 twoFields) (by decide +kernel)
  obtain ⟨-, -, hcloses, -⟩ := step_underflows_iff twoFields .close
  obtain ⟨-, hnext⟩ := hcloses trivial (by decide +kernel) (by decide +kernel)
  exact ⟨⟨hunderflow, hstate hunderflow⟩, hcount, _, hclosed,
    hnext 1 (by rw [hcount]; decide) _ hclosed⟩

end Builder

end CodeAtlas
