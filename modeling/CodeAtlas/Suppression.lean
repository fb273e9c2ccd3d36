/-! # Suppression

Whether a walk is inside a construct that the model ignores. In flag mode any exit ends
suppression; in depth mode each exit ends the innermost enter.
-/

namespace CodeAtlas

namespace Suppression

inductive Mode where
  | flag
  | depth
deriving DecidableEq, Repr

def Mode.name : Mode → String
  | .flag => "flag"
  | .depth => "depth"

/-- Any name but that of depth mode means flag mode. -/
def Mode.ofName (text : String) : Mode := if text = "depth" then .depth else .flag

end Suppression

structure Suppression where
  mode : Suppression.Mode
  depth : Nat := 0
deriving DecidableEq, Repr

namespace Suppression

def active (s : Suppression) : Bool := 0 < s.depth

def enter (s : Suppression) : Suppression :=
  match s.mode with
  | .flag => { s with depth := 1 }
  | .depth => { s with depth := s.depth + 1 }

def exit (s : Suppression) : Suppression :=
  match s.mode with
  | .flag => { s with depth := 0 }
  | .depth => { s with depth := s.depth - 1 }

end Suppression

end CodeAtlas
