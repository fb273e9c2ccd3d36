/-! # Untyped data

Values as they come from a data format, before anything is known about their shape.
-/

namespace CodeAtlas

inductive Data where
  | null
  | bool (value : Bool)
  | int (value : Int)
  | real (value : Float)
  | text (value : String)
  | list (items : List Data)
  | record (fields : List (String × Data))
  /-- A date, a time of day or both. -/
  | moment

instance : Inhabited Data := ⟨.null⟩

end CodeAtlas
