import CodeAtlas.Builder
import CodeAtlas.Java.TypeName
import CodeAtlas.Tree.Traversal

/-! # Rules for Java

What entering and leaving a node of a Java tree means to a builder. Declarations open a component
on entry and close it on exit; all other nodes add to the component that is open.
-/

namespace CodeAtlas.Java

/-- Parameters of a record are fields of its class. -/
def parameterKind : Option Kind → Kind
  | some .constructor => .constructorParameter
  | some .classType => .field
  | _ => .methodParameter

def fieldKind : Option Kind → Kind
  | some .interfaceType => .interfaceConstant
  | _ => .field

/-- The kind of component that a declaration opens inside one of the given kind. -/
def Form.opens? (enclosing : Option Kind) : Form → Option Kind
  | classDeclaration | recordDeclaration => some .classType
  | interfaceDeclaration => some .interfaceType
  | enumDeclaration => some .enumType
  | enumConstant => some .enumConstant
  | methodDeclaration => some .method
  | constructorDeclaration | compactConstructorDeclaration => some .constructor
  | formalParameter | spreadParameter => some (parameterKind enclosing)
  | fieldDeclaration => some (fieldKind enclosing)
  | constantDeclaration => some .interfaceConstant
  | localVariableDeclaration => some .localVariable
  | _ => none

end CodeAtlas.Java

namespace CodeAtlas.Place

open Java

/-- The kind of component that a node opens. A formal parameter of a lambda expression opens
none. -/
def opens? (enclosing : Option Kind) (p : Place) : Option Kind :=
  if p.form = .formalParameter && p.isLambdaParameter then none else p.form.opens? enclosing

def fieldText (p : Place) (field : String) : String :=
  textOf p.source (p.node.childInField? field)

def provenance (p : Place) : Provenance where
  startLine := p.startLine
  endLine := p.endLine
  code := p.text
  comment := p.precedingComment?

/-- The short name that a declaration opens with. Declarators come later. -/
def declaredName? (p : Place) : Option String :=
  if p.form.ownsDeclarators then none
  else
    let name := p.fieldText "name"
    if name = "" then none else some name

/-- The name that a package or import declaration gives. -/
def dottedName (p : Place) : String :=
  textOf p.source (p.node.namedChildren.find? fun child =>
    child.form == .identifier || child.form == .scopedIdentifier)

/-- The enrichments for the type that a declaration shows. -/
def declaredTypeOps (p : Place) : List Op :=
  match p.declaredType? with
  | none => []
  | some type =>
    .enrich (.typeSnippet type.text) ::
      if type.isInferredType then []
      else match type.typeName? with
        | none => []
        | some name =>
          if name = "" || name = "void" then []
          else [.enrich (.declaredType name type.startLine)]

/-- One enrichment for each type in a list of places. -/
def typeOps (make : String → Int → Enrichment) (types : List Place) : List Op :=
  types.filterMap fun type => type.typeName?.map fun name => .enrich (make name type.startLine)

/-- The operations of a variable declarator: it names a component and may give it a value. -/
def declaratorOps (p : Place) : List Op :=
  match p.parent? with
  | some parent =>
    if parent.form.ownsDeclarators then
      .nameDeclarator (p.fieldText "name") ::
        match p.node.childInField? "value" with
        | some value => [.enrich (.value (value.text p.source))]
        | none => []
    else []
  | none => []

/-- The element values of an annotation. An argument that is no pair stands for its own key. -/
def elementValues (p : Place) : Table String :=
  match p.childInField? "arguments" with
  | none => .empty
  | some arguments =>
    arguments.namedChildren.foldl (fun values argument =>
      match argument.form with
      | .elementValuePair => values.put (argument.fieldText "key") (argument.fieldText "value")
      | .comment => values
      | _ => values.put argument.text "") .empty

/-- The type that an argument binds: a wildcard stands for its first bound. -/
def boundType? (p : Place) : Option Place :=
  if p.form = .wildcard then p.typeChildren.head? else some p

def typeArgumentOps (p : Place) : List Op :=
  p.namedChildren.filterMap fun argument =>
    match argument.boundType? with
    | none => none
    | some type =>
      match type.typeName? with
      | none => none
      | some name =>
        if name = "" then none else some (.enrich (.typeParameter name type.startLine))

/-- A receiver that is a plain identifier may name a type. -/
def receiverOps (p : Place) : List Op :=
  match p.childInField? "object" with
  | some receiver =>
    if receiver.form = .identifier then
      [.enrich (.typeReference receiver.text receiver.startLine)]
    else []
  | none => []

def parentForm? (p : Place) : Option Form := p.parent?.map Node.form

/-- The operations for a node that opens no component. -/
def usageOps (enclosing : Option Kind) (p : Place) : List Op :=
  match p.form with
  | .packageDeclaration =>
    let whole := p.parent?.getD p.node
    [.beginPackage p.dottedName { p.provenance with endLine := whole.endLine }]
  | .importDeclaration =>
    let all := p.node.namedChildren.any (·.form == .asterisk)
    [.addImport (if all then p.dottedName ++ ".*" else p.dottedName)]
  | .annotationTypeDeclaration => [.enterSuppressed]
  | .superclass => typeOps .superType p.typeChildren
  | .superInterfaces => typeOps .implementedType (p.namedChildren.flatMap typeChildren)
  | .extendsInterfaces => typeOps .superType (p.namedChildren.flatMap typeChildren)
  | .throwsClause => typeOps .thrownException p.typeChildren
  | .typeBound => typeOps .typeParameter p.typeChildren
  | .typeArguments => p.typeArgumentOps
  | .typeParameters =>
    match enclosing with
    | some kind => if kind.isBase then [.enrich (.typeSnippet p.text)] else []
    | none => []
  | .variableDeclarator => p.declaratorOps
  | .modifiers =>
    (p.node.children.filter (!·.named)).map fun word => .enrich (.modifier (word.text p.source))
  | .markerUse => [.enrich (.annotationUse (p.fieldText "name") .empty p.startLine)]
  | .annotationUse => [.enrich (.annotationUse (p.fieldText "name") p.elementValues p.startLine)]
  | .typeIdentifier =>
    if p.parentForm? = some .scopedTypeIdentifier || p.parentForm? = some .typeParameter ||
        p.isInferredType then []
    else [.enrich (.typeReference p.text p.startLine)]
  | .scopedTypeIdentifier =>
    if p.parentForm? = some .scopedTypeIdentifier then []
    else
      let name := p.typeName?.getD ""
      [.enrich (.typeReference (if name = "" then p.text else name) p.startLine)]
  | .primitiveType => [.enrich (.typeReference p.text p.startLine)]
  | .methodInvocation | .fieldAccess => p.receiverOps
  | _ => []

/-- The operations for entering a node, inside a component of the given kind. -/
def enterOps (enclosing : Option Kind) (p : Place) : List Op :=
  match p.opens? enclosing with
  | some kind =>
    .openComponent kind p.provenance p.declaredName? p.form.declaresType ::
      if p.form.hasDeclaredType then p.declaredTypeOps else []
  | none => p.usageOps enclosing

/-- The operations for leaving a node. -/
def exitOps (p : Place) : List Op :=
  match p.opens? none with
  | some _ => [.close]
  | none =>
    match p.form with
    | .program => [.endUnit]
    | .annotationTypeDeclaration => [.exitSuppressed]
    | _ => []

end CodeAtlas.Place

namespace CodeAtlas.Java

/-- The operations a visit asks of a builder. -/
def opsFor (b : Builder) : Visit → List Op
  | .enter p => p.enterOps b.currentKind?
  | .exit p => p.exitOps

/-- Follow visits in order until an operation fails. -/
def follow (b : Builder) : List Visit → Outcome Builder Unit
  | [] => .ok b ()
  | visit :: rest => (b.run (opsFor b visit)).andThen (follow · rest)

end CodeAtlas.Java
