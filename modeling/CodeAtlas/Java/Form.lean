import CodeAtlas.Component.Kind
import CodeAtlas.Tree.Place

/-! # Forms of Java nodes

The node types of the Java grammar that matter to the model. All others are of the form `other`.
-/

namespace CodeAtlas.Java

inductive Form where
  | program
  | packageDeclaration
  | importDeclaration
  | annotationTypeDeclaration
  | classDeclaration
  | recordDeclaration
  | interfaceDeclaration
  | enumDeclaration
  | enumConstant
  | methodDeclaration
  | constructorDeclaration
  | compactConstructorDeclaration
  | formalParameter
  | spreadParameter
  | fieldDeclaration
  | constantDeclaration
  | localVariableDeclaration
  | variableDeclarator
  | superclass
  | superInterfaces
  | extendsInterfaces
  | throwsClause
  | typeParameters
  | typeParameter
  | typeArguments
  | typeBound
  | wildcard
  | modifiers
  | markerUse
  | annotationUse
  | elementValuePair
  | typeIdentifier
  | scopedTypeIdentifier
  | primitiveType
  | voidType
  | genericType
  | arrayType
  | annotatedType
  | identifier
  | scopedIdentifier
  | asterisk
  | methodInvocation
  | fieldAccess
  | lambdaExpression
  | enhancedForStatement
  | resource
  | comment
  | other
deriving DecidableEq, Repr

namespace Form

/-- The node types with their forms. Three types are primitive and three are comments. -/
def types : List (String × Form) :=
  [("program", program), ("package_declaration", packageDeclaration),
    ("import_declaration", importDeclaration),
    ("annotation_type_declaration", annotationTypeDeclaration),
    ("class_declaration", classDeclaration), ("record_declaration", recordDeclaration),
    ("interface_declaration", interfaceDeclaration), ("enum_declaration", enumDeclaration),
    ("enum_constant", enumConstant), ("method_declaration", methodDeclaration),
    ("constructor_declaration", constructorDeclaration),
    ("compact_constructor_declaration", compactConstructorDeclaration),
    ("formal_parameter", formalParameter), ("spread_parameter", spreadParameter),
    ("field_declaration", fieldDeclaration), ("constant_declaration", constantDeclaration),
    ("local_variable_declaration", localVariableDeclaration),
    ("variable_declarator", variableDeclarator), ("superclass", superclass),
    ("super_interfaces", superInterfaces), ("extends_interfaces", extendsInterfaces),
    ("throws", throwsClause), ("type_parameters", typeParameters),
    ("type_parameter", typeParameter), ("type_arguments", typeArguments),
    ("type_bound", typeBound), ("wildcard", wildcard), ("modifiers", modifiers),
    ("marker_annotation", markerUse), ("annotation", annotationUse),
    ("element_value_pair", elementValuePair), ("type_identifier", typeIdentifier),
    ("scoped_type_identifier", scopedTypeIdentifier), ("integral_type", primitiveType),
    ("floating_point_type", primitiveType), ("boolean_type", primitiveType),
    ("void_type", voidType), ("generic_type", genericType), ("array_type", arrayType),
    ("annotated_type", annotatedType), ("identifier", identifier),
    ("scoped_identifier", scopedIdentifier), ("asterisk", asterisk),
    ("method_invocation", methodInvocation), ("field_access", fieldAccess),
    ("lambda_expression", lambdaExpression), ("enhanced_for_statement", enhancedForStatement),
    ("resource", resource), ("block_comment", comment), ("line_comment", comment),
    ("comment", comment)]

def ofType (type : String) : Form := (types.lookup type).getD other

/-- The declarations that are named by their declarators. -/
def ownsDeclarators : Form → Bool
  | fieldDeclaration | constantDeclaration | localVariableDeclaration | spreadParameter => true
  | _ => false

/-- The statements in which a type may be left to inference. -/
def mayInferType : Form → Bool
  | localVariableDeclaration | enhancedForStatement | resource => true
  | _ => false

/-- The declarations of types, whose components keep the imports of their file. -/
def declaresType : Form → Bool
  | classDeclaration | recordDeclaration | interfaceDeclaration | enumDeclaration => true
  | _ => false

/-- The declarations that name the type of what they declare. -/
def hasDeclaredType : Form → Bool
  | methodDeclaration | formalParameter => true
  | form => form.ownsDeclarators

end Form

end CodeAtlas.Java

namespace CodeAtlas

def Node.form (n : Node) : Java.Form := .ofType n.type

def Place.form (p : Place) : Java.Form := p.node.form

end CodeAtlas
