import CodeAtlas.Text.Utf8

/-! # Parse trees

A node of a parse tree has a type, the field it fills in its parent, the span of the source it
covers, its rows, and its children. Named nodes are those the grammar gives a rule of their own.
-/

namespace CodeAtlas

/-- What a node says of itself, its children apart. -/
structure Label where
  type : String
  field : Option String := none
  /-- First byte and byte after the last one, or nothing for a node without text. -/
  span : Option (Nat × Nat) := none
  startRow : Nat := 0
  endRow : Nat := 0
  named : Bool := true
  missing : Bool := false
  hasError : Bool := false
deriving DecidableEq, Repr

inductive Node where
  | mk (label : Label) (children : List Node)

namespace Node

def label : Node → Label
  | mk label _ => label

def children : Node → List Node
  | mk _ children => children

instance : Inhabited Node := ⟨mk { type := "" } []⟩

def type (n : Node) : String := n.label.type

def named (n : Node) : Bool := n.label.named

def field (n : Node) : Option String := n.label.field

/-- An error node stands for text the grammar has no rule for, a missing one for text that the
grammar asked for in vain. -/
def isError (n : Node) : Bool := n.type == "ERROR" || n.label.missing

mutual

/-- The number of nodes of a tree. -/
def size : Node → Nat
  | mk _ children => sizes children + 1

def sizes : List Node → Nat
  | [] => 0
  | child :: rest => size child + sizes rest

end

theorem sizes_append (first second : List Node) :
    sizes (first ++ second) = sizes first + sizes second := by
  induction first with
  | nil => simp [sizes]
  | cons child rest ih => simp [sizes, ih, Nat.add_assoc]

def namedChildren (n : Node) : List Node := n.children.filter named

/-- The first child that fills a field. -/
def childInField? (n : Node) (field : String) : Option Node :=
  n.children.find? (·.field == some field)

/-- The bytes of the source that a node covers. -/
def bytes (source : List UInt8) (n : Node) : List UInt8 :=
  match n.label.span with
  | none => []
  | some (first, last) => (source.drop first).take (last - first)

/-- The text of a node. A span that cuts a character shows a replacement character there. -/
def text (source : List UInt8) (n : Node) : String := Utf8.decodeReplacing (n.bytes source)

/-- Lines are counted from one. -/
def startLine (n : Node) : Int := n.label.startRow + 1

def endLine (n : Node) : Int := n.label.endRow + 1

/-- A name of one letter. -/
def identifier (field : Option String) (first : Nat) : Node :=
  mk { type := "identifier", field, span := (first, first + 1) } []

/-- A node with a name of one letter, and with members. -/
def declaration (type : String) (name : Nat) (members : List Node) : Node :=
  mk { type } (identifier "name" name :: members)

def package (name : Nat) : Node := mk { type := "package_declaration" } [identifier none name]

end Node

/-- The text of a node that may be absent. -/
def textOf (source : List UInt8) : Option Node → String
  | none => ""
  | some n => n.text source

end CodeAtlas
