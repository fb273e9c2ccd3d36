import CodeAtlas.Component.Kind
import CodeAtlas.Diagnostic

/-! # Journals

A journal is what a build reports: the diagnostics it collects and the events it logs. Recording
a diagnostic always logs it as well.
-/

namespace CodeAtlas

namespace Log

inductive Level where
  | debug
  | info
  | warning
  | error
deriving DecidableEq, Repr

namespace Level

def name : Level → String
  | debug => "debug"
  | info => "info"
  | warning => "warning"
  | error => "error"

def rank : Level → Nat
  | debug => 0
  | info => 1
  | warning => 2
  | error => 3

/-- The upper case of the letters that level names are made of. The dotless `ı` has the upper case
of `i`. -/
def upper (c : Char) : Char := if c == 'ı' then 'I' else c.toUpper

/-- The level a name asks for, whatever its case. Any other name asks for warnings. -/
def ofName (text : String) : Level :=
  let word := String.ofList (text.toList.map upper)
  if word = "DEBUG" then debug
  else if word = "INFO" then info
  else if word = "ERROR" then error
  else warning

end Level

/-- A logged event. -/
inductive Event where
  | walkStarted (path language : String)
  | walkFinished (path : String) (components : Nat)
  | componentFinalized (name : String) (kind : Kind) (path : Option String)
  | diagnosed (d : Diagnostic)
  | modelBuilt (language : String) (files failed components : Nat)
deriving DecidableEq, Repr

/-- A value carried by an event. -/
inductive Value where
  | text (value : Option String)
  | number (value : Option Int)
deriving DecidableEq, Repr

namespace Event

def level : Event → Level
  | walkStarted .. | walkFinished .. | componentFinalized .. => .debug
  | modelBuilt .. => .info
  | diagnosed d => if d.severity = .error then .error else .warning

def name : Event → String
  | walkStarted .. => "walk_started"
  | walkFinished .. => "walk_finished"
  | componentFinalized .. => "component_finalized"
  | diagnosed d => d.kind.name
  | modelBuilt .. => "model_built"

def fields : Event → List (String × Value)
  | walkStarted path language => [("path", .text path), ("language", .text language)]
  | walkFinished path components =>
    [("path", .text path), ("components", .number (some components))]
  | componentFinalized name kind path =>
    [("name", .text name), ("kind", .text kind.name), ("path", .text path)]
  | diagnosed d => [("message", .text d.message), ("path", .text d.path), ("line", .number d.line)]
  | modelBuilt language files failed components =>
    [("language", .text language), ("files", .number (some files)),
      ("failed", .number (some failed)), ("components", .number (some components))]

end Event

/-- The events at a level or above it. -/
def visible (level : Level) (events : List Event) : List Event :=
  events.filter fun event => level.rank ≤ event.level.rank

end Log

structure Journal where
  diagnostics : Diagnostics := {}
  log : List Log.Event := []
deriving DecidableEq, Repr

namespace Journal

instance : Inhabited Journal := ⟨⟨{}, []⟩⟩

def note (journal : Journal) (event : Log.Event) : Journal :=
  { journal with log := journal.log ++ [event] }

def record (journal : Journal) (d : Diagnostic) : Journal :=
  { diagnostics := journal.diagnostics.record d, log := journal.log ++ [.diagnosed d] }

/-- Take over diagnostics that have been logged before. -/
def absorb (journal : Journal) (ds : Diagnostics) : Journal :=
  { journal with diagnostics := journal.diagnostics.extend ds }

end Journal

end CodeAtlas
