/-! # Built-in types of Java

Primitive types stand for themselves, and the types of `java.lang` are known without an import.
-/

namespace CodeAtlas.Java

def primitiveTypes : List String :=
  ["boolean", "byte", "char", "short", "int", "long", "float", "double"]

def langTypes : List String :=
  ["AbstractMethodError", "Appendable", "ArithmeticException", "ArrayIndexOutOfBoundsException",
    "ArrayStoreException", "AssertionError", "AutoCloseable", "Boolean", "Byte", "CharSequence",
    "Character", "Class", "ClassCastException", "ClassLoader", "ClassNotFoundException",
    "CloneNotSupportedException", "Cloneable", "Comparable", "Deprecated", "Double", "Enum",
    "Error", "Exception", "ExceptionInInitializerError", "Float", "FunctionalInterface",
    "IllegalAccessException", "IllegalArgumentException", "IllegalMonitorStateException",
    "IllegalStateException", "IndexOutOfBoundsException", "InstantiationException", "Integer",
    "InterruptedException", "Iterable", "LinkageError", "Long", "Math",
    "NegativeArraySizeException", "NoSuchFieldException", "NoSuchMethodException",
    "NullPointerException", "Number", "NumberFormatException", "Object", "OutOfMemoryError",
    "Override", "Process", "Readable", "Record", "ReflectiveOperationException", "Runnable",
    "Runtime", "RuntimeException", "SafeVarargs", "SecurityException", "Short",
    "StackOverflowError", "StrictMath", "String", "StringBuffer", "StringBuilder",
    "StringIndexOutOfBoundsException", "SuppressWarnings", "System", "Thread", "ThreadLocal",
    "Throwable", "UnsupportedOperationException", "Void"]

/-- Short names with the full names they stand for. -/
def builtinTypes : List (String × String) :=
  primitiveTypes.map (fun name => (name, name)) ++
    langTypes.map fun name => (name, "java.lang." ++ name)

end CodeAtlas.Java
