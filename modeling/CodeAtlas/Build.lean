import CodeAtlas.Config
import CodeAtlas.Java.CompilationUnit

/-! # Builds

Each file is walked into a catalog of its own. A walk that fails is reported, and its file
contributes nothing. The catalogs are then merged in the order of the files.
-/

namespace CodeAtlas

/-- The languages that can be walked. -/
inductive Language where
  | java
deriving DecidableEq, Repr

namespace Language

def all : List Language := [java]

def name : Language → String
  | java => "java"

/-- The language of a tag. Blanks around it and the case of its letters do not matter; no letter
outside ASCII has a lower case that occurs in a language's name. -/
def ofTag? (tag : String) : Option Language :=
  all.find? (·.name.toList == (strip tag).toList.map Char.toLower)

def unsupported (tag : String) : String := "No walker registered for language: " ++ tag

def walk : Language → Catalog → SourceFile → Suppression.Mode → Bool → Outcome Catalog Unit
  | java => Java.walk

end Language

/-- What came of walking one file: the catalog with what was gathered and reported, and whether
the walk got to its end. -/
structure FileReport where
  path : String
  catalog : Catalog
  complete : Bool

def FileReport.diagnostics (report : FileReport) : Diagnostics := report.catalog.journal.diagnostics

/-- The diagnostic of a walk that a fault ended. Faults that no walk can meet have none. -/
def Fault.diagnostic? (path : String) (fault : Fault) : Option Diagnostic :=
  match fault with
  | .malformedInput _ _ line =>
    some { kind := .malformedInput, severity := .error, message := fault.message, path, line }
  | .scopeUnderflow =>
    some { kind := .scopeUnderflow, severity := .error,
           message := "walk aborted: " ++ fault.message, path }
  | .nameCollision name _ =>
    some { kind := .nameCollision, severity := .error,
           message := "walk aborted: " ++ fault.message, path, names := [name] }
  | _ => none

/-- Walk one file into a catalog of its own. A fault that cannot be reported is handed on. -/
def buildFile (language : Language) (store : Store) (file : SourceFile) (config : Config) :
    Except Fault FileReport :=
  let start := Catalog.empty config.nameCollisions store
  let walked := language.walk start file config.suppression config.failOnSyntaxErrors
  match walked.result with
  | .ok _ => .ok ⟨file.path, walked.state, true⟩
  | .error fault =>
    match fault.diagnostic? file.path with
    | some d => .ok ⟨file.path, walked.state.record d, false⟩
    | none => .error fault

/-- Walk files one after the other, over one store. -/
def buildFiles (language : Language) (config : Config) :
    Store → List SourceFile → Except Fault (List FileReport × Store)
  | store, [] => .ok ([], store)
  | store, file :: rest => do
    let report ← buildFile language store file config
    let (reports, store) ← buildFiles language config report.catalog.store rest
    return (report :: reports, store)

/-- Take over a file's diagnostics, and its components if its walk was complete. -/
def Catalog.addReport (catalog : Catalog) (report : FileReport) : Catalog :=
  let catalog := { catalog with journal := catalog.journal.absorb report.diagnostics }
  if report.complete then catalog.merge report.catalog.table.entries else catalog

/-- Build one catalog from files, reporting to the given diagnostics. The tag is the language as
the caller named it. -/
def buildModel (language : Language) (tag : String) (files : List SourceFile) (config : Config)
    (diagnostics : Diagnostics) : Except Fault Catalog := do
  let (reports, store) ← buildFiles language config {} files
  let start : Catalog :=
    { policy := config.nameCollisions, store, table := .empty,
      journal := ⟨diagnostics, reports.flatMap (·.catalog.journal.log)⟩ }
  let merged := reports.foldl Catalog.addReport start
  return merged.note
    (.modelBuilt tag files.length (reports.filter (!·.complete)).length merged.size)

end CodeAtlas
