/-
Descriptors: the spelling of types that the virtual machine knows. A type variable erases to its
first bound; a name that is not in the index is spelled as the file most likely means it.
-/
import InjectionPoints.ClassIndex.Hierarchy

namespace InjectionPoints.ClassIndex

open Java

/-- The descriptor of `java.lang.Object`. -/
def objectDescriptor : String := "Ljava/lang/Object;"

/-- Classes of `java.lang` that are known without an import. -/
def langClasses : List String :=
  ["Object", "String", "CharSequence", "Comparable", "Class", "Boolean", "Byte", "Character",
    "Short", "Integer", "Long", "Float", "Double", "Number", "Void", "Math", "System", "Thread",
    "Runnable", "Iterable", "Enum", "Record", "StringBuilder", "Throwable", "Exception",
    "RuntimeException", "Error", "IllegalArgumentException", "IllegalStateException",
    "NullPointerException", "UnsupportedOperationException"]

variable (ix : ClassIndex)

/-- The full name of a class that is not in the index, as far as a file tells. -/
def assumedName (file : FileId) (name : String) : String :=
  if name.toList.contains '.' then name
  else
    match (ix.scope? file).bind fun scope => scope.singleImport? name with
    | some imported => imported
    | none =>
      if langClasses.contains name then "java.lang." ++ name
      else qualify ((ix.scope? file).bind FileScope.package) name

/-- The internal name of the class that a name stands for in a file. -/
def internalTypeName (file : FileId) (name : String) : String :=
  match ix.resolve? file name with
  | some c => (ix.decl c).internalName
  | none => internalForm (ix.assumedName file name)

/-- The descriptor of a type without type variables and dimensions. -/
def baseDescriptor (file : FileId) (base : String) : String :=
  match TypeText.primitive? base with
  | some descriptor => descriptor
  | none => "L" ++ ix.internalTypeName file base ++ ";"

/-- A descriptor behind the brackets of `n` dimensions. -/
def arrayOf (n : Nat) (descriptor : String) : String :=
  String.ofList (List.replicate n '[') ++ descriptor

/-- The descriptor of a type that a file writes where `vars` are in scope. The bound of a variable
is read without that variable, so the recursion ends after as many steps as there are variables. -/
def descriptorWithin (file : FileId) : Nat → List TypeParam → String → String
  | 0, _, type =>
    let (base, dimensions) := TypeText.erasure type
    arrayOf dimensions (ix.baseDescriptor file base)
  | n + 1, vars, type =>
    let (base, dimensions) := TypeText.erasure type
    arrayOf dimensions <|
      match vars.findIdx? fun var => var.name == base with
      | none => ix.baseDescriptor file base
      | some i =>
        match (vars[i]?).bind TypeParam.bound with
        | some bound => descriptorWithin file n (vars.eraseIdx i) bound
        | none => objectDescriptor

/-- The descriptor of a type with its variables erased. -/
def erasedDescriptor (file : FileId) (vars : List TypeParam) (type : String) : String :=
  ix.descriptorWithin file vars.length vars type

/-- The descriptor of a type that a file writes outside all type variables. -/
def typeDescriptor (file : FileId) (type : String) : String := ix.erasedDescriptor file [] type

/-- The type variables of a class and of the classes around it, the nearest first. -/
def classVariables (c : ix.ClassId) : List TypeParam :=
  (ix.enclosing c).flatMap ClassDecl.typeParams

/-- The type variables in scope in a method: its own, then those of its class. -/
def methodVariables (m : ix.MethodId) : List TypeParam :=
  (ix.method m).typeParams ++ ix.classVariables m.owner

/-- The descriptor of a type written inside a method. -/
def methodTypeDescriptor (m : ix.MethodId) (type : String) : String :=
  ix.erasedDescriptor (ix.decl m.owner).file (ix.methodVariables m) type

/-- The descriptors of the parameters of a method. -/
def parameterDescriptors (m : ix.MethodId) : List String :=
  (ix.method m).params.map (ix.methodTypeDescriptor m)

/-- The descriptor of what a method returns; constructors return nothing. -/
def returnDescriptor (m : ix.MethodId) : String :=
  match (ix.method m).returnType with
  | some type => ix.methodTypeDescriptor m type
  | none => "V"

def methodDescriptor (m : ix.MethodId) : String :=
  "(" ++ String.join (ix.parameterDescriptors m) ++ ")" ++ ix.returnDescriptor m

def fieldDescriptor (f : ix.FieldId) : String :=
  ix.erasedDescriptor (ix.decl f.owner).file (ix.classVariables f.owner) (ix.field f).type

end InjectionPoints.ClassIndex
