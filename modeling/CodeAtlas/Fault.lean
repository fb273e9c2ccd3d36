import CodeAtlas.Text.Quoted
import CodeAtlas.Text.Utf8

/-! # Faults

Why an operation stops. An outcome keeps the state that was reached when it did.
-/

namespace CodeAtlas

/-- Why a source text gives no usable tree. -/
inductive Malformation where
  | notUtf8 (detail : Utf8.Malformed)
  | syntaxErrors
deriving DecidableEq, Repr

inductive Fault where
  | malformedInput (path : String) (cause : Malformation) (line : Option Int)
  | scopeUnderflow
  | nameCollision (name : String) (path : Option String)
  | alreadyFinal (current requested : String)
  | notFinal
  /-- A compilation unit cannot end while its open components are suppressed. -/
  | unitHeldOpen
deriving DecidableEq, Repr

def Malformation.message : Malformation → String
  | .notUtf8 m => "source is not valid UTF-8: " ++ m.message
  | .syntaxErrors => "source contains syntax errors"

def Fault.message : Fault → String
  | .malformedInput path cause _ => path ++ ": " ++ cause.message
  | .scopeUnderflow => "No open component on the scope stack"
  | .nameCollision name _ => "Duplicate component name: " ++ name
  | .alreadyFinal current requested =>
    "Component " ++ quoted current ++ " is already finalized; refusing to rename it to " ++
      quoted requested
  | .notFinal => "Only finalized components can be inserted into a source model"
  | .unitHeldOpen => "The compilation unit cannot end while it is suppressed"

/-- The state an operation leaves, with its answer or the fault that stopped it. -/
structure Outcome (σ α : Type) where
  state : σ
  result : Except Fault α

namespace Outcome

variable {σ τ α : Type}

def ok (state : σ) (answer : α) : Outcome σ α := ⟨state, .ok answer⟩

def fail (state : σ) (fault : Fault) : Outcome σ α := ⟨state, .error fault⟩

def mapState (f : σ → τ) (outcome : Outcome σ α) : Outcome τ α := ⟨f outcome.state, outcome.result⟩

/-- Go on from the state reached, unless a fault stopped the work. -/
def andThen {β : Type} (outcome : Outcome σ α) (next : σ → Outcome σ β) : Outcome σ β :=
  match outcome.result with
  | .ok _ => next outcome.state
  | .error fault => ⟨outcome.state, .error fault⟩

end Outcome

end CodeAtlas
