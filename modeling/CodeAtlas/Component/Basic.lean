import CodeAtlas.Component.Kind
import CodeAtlas.Component.Invocation

/-! # Components

A component is a declared construct of a source text. It is gathered while the construct is open,
named once when the construct closes, and lists its members by their ids.
-/

namespace CodeAtlas

/-- The identity of a component. Equal contents do not make two components one. -/
structure ComponentId where
  index : Nat
deriving DecidableEq, Repr

/-- The short name shown for a component that has none. -/
def anonymousName : String := "<anonymous>"

structure Component where
  kind : Kind
  shortName : Option String := none
  qualifiedName : Option String := none
  packageName : Option String := none
  sourceFile : Option String := none
  code : String := ""
  comment : Option String := none
  startLine : Int := 0
  endLine : Int := 0
  /-- In ascending order, each once. -/
  modifiers : List String := []
  imports : List String := []
  superTypes : List String := []
  implementedTypes : List String := []
  thrownExceptions : List String := []
  invocations : List Invocation := []
  typeReferences : List TypeReference := []
  typeSnippet : Option String := none
  value : Option String := none
  parentName : Option String := none
  children : List ComponentId := []

namespace Component

instance : Inhabited Component := ⟨⟨.package, none, none, none, none, "", none, 0, 0, [], [], [], [],
  [], [], [], none, none, none, []⟩⟩

/-- Insert a word into an ascending list, unless it is there. -/
def insertWord (word : String) : List String → List String
  | [] => [word]
  | other :: rest =>
    if word = other then other :: rest
    else if word < other then word :: other :: rest
    else other :: insertWord word rest

def addModifier (c : Component) (word : String) : Component :=
  { c with modifiers := insertWord word c.modifiers }

/-- A component counts as named if its short name has a character. -/
def hasName (c : Component) : Bool :=
  match c.shortName with
  | some name => name != ""
  | none => false

/-- The short name, or the anonymous name for a component without one. -/
def label (c : Component) : String :=
  match c.shortName with
  | some name => if name = "" then anonymousName else name
  | none => anonymousName

def isFinal (c : Component) : Bool := c.qualifiedName.isSome

/-- Fix the qualified name of a component that has none yet. -/
def withName (c : Component) (name : String) : Component :=
  { c with shortName := some c.label, qualifiedName := some name }

/-- Keep the first text given for the declared type. -/
def withTypeSnippet (c : Component) (text : String) : Component :=
  match c.typeSnippet with
  | some _ => c
  | none => { c with typeSnippet := some text }

/-- A copy of what has been gathered so far, without names, value and children. It starts the
next component of a declaration that names several. -/
def sibling (c : Component) : Component :=
  { c with shortName := none, qualifiedName := none, parentName := none, value := none,
           children := [] }

/-- Where the component is declared, as shown in messages. -/
def origin (c : Component) : String :=
  let file := match c.sourceFile with
    | some path => if path = "" then "<unknown>" else path
    | none => "<unknown>"
  file ++ ":" ++ toString c.startLine

/-- Equality of all fields but the children. -/
def sameFields (a b : Component) : Bool :=
  a.kind == b.kind && a.shortName == b.shortName && a.qualifiedName == b.qualifiedName &&
    a.packageName == b.packageName && a.sourceFile == b.sourceFile && a.code == b.code &&
    a.comment == b.comment && a.startLine == b.startLine && a.endLine == b.endLine &&
    a.modifiers == b.modifiers && a.imports == b.imports && a.superTypes == b.superTypes &&
    a.implementedTypes == b.implementedTypes && a.thrownExceptions == b.thrownExceptions &&
    sameLists Invocation.same a.invocations b.invocations &&
    a.typeReferences == b.typeReferences && a.typeSnippet == b.typeSnippet &&
    a.value == b.value && a.parentName == b.parentName

end Component

end CodeAtlas
