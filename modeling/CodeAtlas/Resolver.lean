import CodeAtlas.Table
import CodeAtlas.Text.Dotted

/-! # Name resolution

A type name is resolved by what has been seen of its file so far: an import of that last segment
comes first, a dotted name stands for itself, then come the built-in names, and any other name is
taken to be one of the current package.
-/

namespace CodeAtlas

structure Resolver where
  /-- The names known without an import. -/
  builtin : List (String × String)
  package : Option String := none
  imports : List String := []
  /-- The last segment of each single import, with the full name imported last. -/
  aliases : Table String := .empty

namespace Resolver

/-- Start a compilation unit of a package. Its imports start empty. -/
def enterPackage (r : Resolver) (name : String) : Resolver :=
  { r with package := some name, imports := [], aliases := .empty }

def addImport (r : Resolver) (name : String) : Resolver :=
  { r with
    imports := r.imports ++ [name]
    aliases := if Dotted.isWildcard name then r.aliases
      else r.aliases.put (Dotted.lastSegment name) name }

def qualify (r : Resolver) (token : String) : String :=
  match r.package with
  | some package => if package = "" then token else package ++ "." ++ token
  | none => token

def resolve (r : Resolver) (token : String) : String :=
  match r.aliases.get? token with
  | some name => name
  | none =>
    if Dotted.hasDot token then token
    else match r.builtin.lookup token with
      | some name => name
      | none => r.qualify token

/-- Inside a suppressed construct every name is one of the package. -/
def resolveIn (r : Resolver) (suppressed : Bool) (token : String) : String :=
  if suppressed then r.qualify token else r.resolve token

end Resolver

end CodeAtlas
