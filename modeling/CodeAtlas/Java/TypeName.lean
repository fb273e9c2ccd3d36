import CodeAtlas.Java.Form
import CodeAtlas.Text.Dotted

/-! # Names of Java types

The bare name of a type, without type arguments, array dimensions and annotations, and the places
where a declaration shows its type.
-/

namespace CodeAtlas.Java

variable (source : List UInt8)

mutual

/-- The bare name of a type node. Other nodes have none. -/
def typeName? : Node → Option String
  | .mk label children =>
    match Form.ofType label.type with
    | .typeIdentifier | .primitiveType => some (Node.text source (.mk label children))
    | .voidType => some "void"
    | .scopedTypeIdentifier => some (Dotted.join (segments children))
    | .genericType => firstName? children
    | .arrayType => elementName? children
    | .annotatedType => lastName? children
    | _ => none

/-- The names that the named children have, without empty ones. -/
def segments : List Node → List String
  | [] => []
  | child :: rest =>
    if child.named then
      match typeName? child with
      | some name => if name = "" then segments rest else name :: segments rest
      | none => segments rest
    else segments rest

/-- The name of the first named child. -/
def firstName? : List Node → Option String
  | [] => none
  | child :: rest => if child.named then typeName? child else firstName? rest

/-- The name of the last named child. -/
def lastName? : List Node → Option String
  | [] => none
  | child :: rest =>
    if child.named && !rest.any Node.named then typeName? child else lastName? rest

/-- The name of the first child that fills the field of an array's element type. -/
def elementName? : List Node → Option String
  | [] => none
  | child :: rest => if child.field == some "element" then typeName? child else elementName? rest

end

end CodeAtlas.Java

namespace CodeAtlas.Place

open Java

def typeName? (p : Place) : Option String := Java.typeName? p.source p.node

/-- The named children that name a type. -/
def typeChildren (p : Place) : List Place := p.namedChildren.filter (·.typeName?.isSome)

/-- The child that shows the declared type: the one in the field for it, or else the first one
that names a type. -/
def declaredType? (p : Place) : Option Place :=
  match p.childInField? "type" with
  | some type => some type
  | none => p.typeChildren.head?

/-- Whether a node is the `var` that stands for an inferred type. -/
def isInferredType (p : Place) : Bool :=
  p.form == .typeIdentifier && p.text == "var" &&
    (match p.parent? with
      | some parent => parent.form.mayInferType
      | none => false) &&
    p.fills "type"

/-- The block comment right above a node. Other comments may stand between. -/
def precedingComment? (p : Place) : Option String :=
  ((p.earlierNamed.takeWhile (·.form == .comment)).map (·.text p.source)).find?
    fun text => ['/', '*'].isPrefixOf text.toList

/-- Whether a node is in the position of a parameter of a lambda expression. -/
def isLambdaParameter (p : Place) : Bool :=
  match p.grandparent? with
  | some outer => outer.form == .lambdaExpression
  | none => false

end CodeAtlas.Place
