/-! # Dotted names

Names are segments with dots between them. The last dot divides a name into its qualifier and
its last segment.
-/

namespace CodeAtlas.Dotted

/-- The segments in order, with a dot between neighbours. -/
def join : List String → String
  | [] => ""
  | [segment] => segment
  | segment :: next :: rest => segment ++ "." ++ join (next :: rest)

def hasDot (name : String) : Bool := name.toList.contains '.'

/-- What stands before the last dot, and nothing if there is no dot. -/
def qualifier (name : String) : String :=
  String.ofList ((name.toList.reverse.dropWhile (· != '.')).drop 1).reverse

/-- What stands after the last dot, and the whole name if there is no dot. -/
def lastSegment (name : String) : String :=
  String.ofList (name.toList.reverse.takeWhile (· != '.')).reverse

/-- A name ending in a dot and an asterisk stands for all names of its qualifier. -/
def isWildcard (name : String) : Bool := ['.', '*'].isSuffixOf name.toList

end CodeAtlas.Dotted
