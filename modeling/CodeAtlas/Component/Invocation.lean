import CodeAtlas.Table
import CodeAtlas.Text.Blank

/-! # Invocations and type references

An invocation says why a component refers to a type. Each plays exactly one role, and only an
annotation carries element values.
-/

namespace CodeAtlas

/-- One use of an annotation with its element values. -/
structure AnnotationUse where
  name : String
  values : Table String

/-- Why a type is invoked. -/
inductive Role where
  | declaration
  | extension
  | implementation
  | exception
  | typeParameter
  | annotated (uses : List AnnotationUse)
  | empty

structure Invocation where
  role : Role
  target : String
  line : Option Int

/-- One use of a type under its resolved name. -/
structure TypeReference where
  name : String
  line : Int
deriving DecidableEq, Repr

/-- Compare two lists element by element. -/
def sameLists {α : Type} (same : α → α → Bool) : List α → List α → Bool
  | [], [] => true
  | a :: as, b :: bs => same a b && sameLists same as bs
  | _, _ => false

def AnnotationUse.same (a b : AnnotationUse) : Bool := a.name == b.name && a.values.same b.values

namespace Role

def name : Role → String
  | declaration => "declaration"
  | extension => "extension"
  | implementation => "implementation"
  | exception => "exception"
  | typeParameter => "typeparameter"
  | annotated _ => "annotation"
  | empty => "empty"

def uses : Role → List AnnotationUse
  | annotated uses => uses
  | _ => []

def same (a b : Role) : Bool := a.name == b.name && sameLists AnnotationUse.same a.uses b.uses

end Role

namespace Invocation

/-- The same role with the same values. -/
def same (a b : Invocation) : Bool :=
  a.target == b.target && a.line == b.line && a.role.same b.role

/-- An invocation of nothing: its target is blank and no annotation is used. -/
def isEmpty (invocation : Invocation) : Bool :=
  strip invocation.target == "" && invocation.role.uses.isEmpty

end Invocation

end CodeAtlas
