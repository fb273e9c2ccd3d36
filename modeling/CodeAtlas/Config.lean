import CodeAtlas.Catalog
import CodeAtlas.Suppression

/-! # Configuration of builds -/

namespace CodeAtlas

structure Config where
  /-- How many files may be walked at a time. It never changes a result. -/
  maxWorkers : Nat := 4
  failOnSyntaxErrors : Bool := true
  nameCollisions : CollisionPolicy := .lastWriteWins
  suppression : Suppression.Mode := .flag
  logLevel : Log.Level := .warning
deriving DecidableEq, Repr

end CodeAtlas
