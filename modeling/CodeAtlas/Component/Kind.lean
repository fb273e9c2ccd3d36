/-! # Kinds of components -/

namespace CodeAtlas

/-- What a component of a source model stands for. -/
inductive Kind where
  | package
  | classType
  | interfaceType
  | enumType
  | enumConstant
  | method
  | constructor
  | field
  | interfaceConstant
  | methodParameter
  | constructorParameter
  | localVariable
deriving DecidableEq, Repr

namespace Kind

def all : List Kind :=
  [package, classType, interfaceType, enumType, enumConstant, method, constructor, field,
    interfaceConstant, methodParameter, constructorParameter, localVariable]

def name : Kind → String
  | package => "package"
  | classType => "class"
  | interfaceType => "interface"
  | enumType => "enum"
  | enumConstant => "enum_constant"
  | method => "method"
  | constructor => "constructor"
  | field => "field"
  | interfaceConstant => "interface_constant"
  | methodParameter => "method_parameter"
  | constructorParameter => "constructor_parameter"
  | localVariable => "local_variable"

def ofName? (text : String) : Option Kind := all.find? (·.name == text)

/-- The kinds at the level of types, which own members. -/
def isBase : Kind → Bool
  | package | classType | interfaceType | enumType => true
  | _ => false

end Kind

end CodeAtlas
