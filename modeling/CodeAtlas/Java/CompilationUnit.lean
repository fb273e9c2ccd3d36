import CodeAtlas.Java.BuiltinTypes
import CodeAtlas.Java.Rules

/-! # Compilation units

A source file with its parse tree, and the walk that gathers its components into a catalog. A
file is refused if its bytes are no UTF-8 or, in strict mode, if its tree has errors.
-/

namespace CodeAtlas

/-- The text of a file, given as characters or as bytes. -/
inductive Source where
  | text (characters : String)
  | bytes (encoded : List UInt8)

def Source.encoding : Source → List UInt8
  | text characters => Utf8.encode characters
  | bytes encoded => encoded

/-- What makes a source unreadable. Characters are always readable. -/
def Source.malformed? : Source → Option Utf8.Malformed
  | text _ => none
  | bytes encoded => Utf8.malformed? encoded

/-- A file and the tree that its grammar makes of it. -/
structure SourceFile where
  path : String
  source : Source
  tree : Node

def SourceFile.program (path text : String) (declarations : List Node) : SourceFile where
  path
  source := .text text
  tree := .mk { type := "program" } declarations

namespace Java

/-- The root of a file's tree, unless the file is refused. -/
def parse (file : SourceFile) (strict : Bool) : Except Fault Place :=
  match file.source.malformed? with
  | some detail => .error (.malformedInput file.path (.notUtf8 detail) none)
  | none =>
    let root : Place := { source := file.source.encoding, node := file.tree }
    if strict && file.tree.label.hasError then
      .error (.malformedInput file.path .syntaxErrors (root.firstError?.map Place.startLine))
    else .ok root

/-- The builder that a file's walk starts with. -/
def builder (catalog : Catalog) (path : String) (mode : Suppression.Mode) : Builder :=
  .start catalog path mode builtinTypes

/-- Gather the components of a file into a catalog. -/
def walk (catalog : Catalog) (file : SourceFile) (mode : Suppression.Mode) (strict : Bool) :
    Outcome Catalog Unit :=
  match parse file strict with
  | .error fault => .fail catalog fault
  | .ok root =>
    let started := catalog.note (.walkStarted file.path "java")
    let done := follow (builder started file.path mode) root.walk
    (done.mapState Builder.catalog).andThen fun catalog =>
      .ok (catalog.note (.walkFinished file.path catalog.size)) ()

end Java

end CodeAtlas
