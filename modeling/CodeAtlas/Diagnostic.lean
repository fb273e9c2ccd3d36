/-! # Diagnostics

Problems met while a source model is built, kept apart as errors and warnings.
-/

namespace CodeAtlas

inductive DiagnosticKind where
  | malformedInput
  | scopeUnderflow
  | nameCollision
  | anomalousScopeReentry
deriving DecidableEq, Repr

namespace DiagnosticKind

def all : List DiagnosticKind :=
  [malformedInput, scopeUnderflow, nameCollision, anomalousScopeReentry]

def name : DiagnosticKind → String
  | malformedInput => "malformed_input"
  | scopeUnderflow => "scope_underflow"
  | nameCollision => "name_collision"
  | anomalousScopeReentry => "anomalous_scope_reentry"

def ofName? (text : String) : Option DiagnosticKind := all.find? (·.name == text)

end DiagnosticKind

/-- A severity other than the two usual ones keeps its text and counts as a warning. -/
inductive Severity where
  | error
  | warning
  | custom (text : String)
deriving DecidableEq, Repr

namespace Severity

def name : Severity → String
  | error => "error"
  | warning => "warning"
  | custom text => text

def ofName (text : String) : Severity :=
  if text = "error" then error else if text = "warning" then warning else custom text

end Severity

structure Diagnostic where
  kind : DiagnosticKind
  severity : Severity := .warning
  message : String
  path : Option String := none
  line : Option Int := none
  names : List String := []
deriving DecidableEq, Repr

/-- Where the problem lies: a line of a file, a file, or the model as a whole. -/
def Diagnostic.location (d : Diagnostic) : String :=
  match d.path, d.line with
  | none, _ => "<model>"
  | some path, none => path
  | some path, some line => path ++ ":" ++ toString line

structure Diagnostics where
  errors : List Diagnostic := []
  warnings : List Diagnostic := []
deriving DecidableEq, Repr

namespace Diagnostics

instance : Inhabited Diagnostics := ⟨⟨[], []⟩⟩

def ok (ds : Diagnostics) : Bool := ds.errors.isEmpty

def record (ds : Diagnostics) (d : Diagnostic) : Diagnostics :=
  if d.severity = .error then { ds with errors := ds.errors ++ [d] }
  else { ds with warnings := ds.warnings ++ [d] }

def extend (ds other : Diagnostics) : Diagnostics :=
  ⟨ds.errors ++ other.errors, ds.warnings ++ other.warnings⟩

/-- The diagnostics of one kind, errors before warnings. -/
def ofKind (ds : Diagnostics) (kind : DiagnosticKind) : List Diagnostic :=
  (ds.errors ++ ds.warnings).filter (·.kind = kind)

end Diagnostics

end CodeAtlas
