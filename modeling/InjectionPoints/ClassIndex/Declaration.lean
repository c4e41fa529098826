/-
What a class index keeps of the declarations of a program: names, type variables, supertypes, fields
and methods. Types are kept as they are written; they mean something only together with the file
that holds them.
-/
import InjectionPoints.Selector
import InjectionPoints.Span

namespace InjectionPoints

/-- The number of a file in the order in which files were added. -/
abbrev FileId := Nat

inductive ClassKind where
  | plain | interface | enum | record | annotationType
deriving DecidableEq

/-- A type variable and the first of its bounds. -/
structure TypeParam where
  name : String
  bound : Option String
deriving DecidableEq

structure FieldDecl where
  name : String
  type : String
  nameSpan : Span
deriving DecidableEq

/-- A method, or a constructor when the name is `constructorName`. -/
structure MethodDecl where
  name : String
  typeParams : List TypeParam
  /-- Types of the parameters; that of a variable-arity parameter is an array. -/
  params : List String
  /-- Whether the last parameter takes any number of arguments. -/
  varargs : Bool
  /-- None for a constructor. -/
  returnType : Option String
  nameSpan : Span
  declSpan : Span
  hasBody : Bool
  /-- Whether the declaration is not in the text: a class without constructors has this one. -/
  implicit : Bool
deriving DecidableEq

structure ClassDecl where
  file : FileId
  /-- Simple name, `Inner`. -/
  name : String
  /-- `com.example.Outer.Inner`. -/
  sourceName : String
  /-- `com.example.Outer$Inner`. -/
  binaryName : String
  kind : ClassKind
  nameSpan : Span
  /-- The number of the class around this one. -/
  outer : Option Nat
  typeParams : List TypeParam
  superclass : Option String
  interfaces : List String
  fields : List FieldDecl
  /-- Methods and constructors in the order of the text. -/
  methods : List MethodDecl
deriving DecidableEq

/-- Internal names have slashes where other names have dots. -/
def internalForm (name : String) : String := String.ofList (Selector.internalChars name.toList)

/-- The name by which the virtual machine knows a class, `com/example/Outer$Inner`. -/
def ClassDecl.internalName (c : ClassDecl) : String := internalForm c.binaryName

/-- The supertypes that a class declares: its superclass, then its interfaces. -/
def ClassDecl.supers (c : ClassDecl) : List String := c.superclass.toList ++ c.interfaces

namespace MethodDecl

def isConstructor (m : MethodDecl) : Bool := m.name == constructorName

/-- Whether a call with `n` arguments may be a call of this method. -/
def acceptsArity (m : MethodDecl) (n : Nat) : Bool :=
  m.params.length == n || (m.varargs && decide (m.params.length ≤ n + 1))

end MethodDecl

/-- What a file says about names of other files. -/
structure FileScope where
  package : Option String
  /-- Simple names with the classes imported under them, in the order of the text. -/
  singleImports : List (String × String)
  /-- Packages, or classes, all of whose classes are imported. -/
  onDemandImports : List String
  /-- Names of members with the classes that they are imported from. -/
  staticImports : List (String × String)
  /-- Classes all of whose static members are imported. -/
  staticOnDemandImports : List String
deriving DecidableEq

namespace FileScope

def empty : FileScope := ⟨none, [], [], [], []⟩

/-- The class imported under a simple name; of several the last. -/
def singleImport? (scope : FileScope) (name : String) : Option String :=
  scope.singleImports.reverse.lookup name

end FileScope

/-- The declarations of a program, and the scopes of its files. Classes are numbered in the order in
which they were declared, files in the order in which they were added. -/
structure ClassIndex where
  classes : List ClassDecl
  scopes : List FileScope

namespace ClassIndex

def empty : ClassIndex := ⟨[], []⟩

/-- A class of the index. -/
abbrev ClassId (ix : ClassIndex) : Type := Fin ix.classes.length

/-- The declaration of a class. -/
def decl (ix : ClassIndex) (c : ix.ClassId) : ClassDecl := ix.classes[c]

/-- A method or a constructor of the index: its class and its position there. -/
structure MethodId (ix : ClassIndex) where
  owner : ix.ClassId
  slot : Fin (ix.decl owner).methods.length
deriving DecidableEq

/-- A field of the index: its class and its position there. -/
structure FieldId (ix : ClassIndex) where
  owner : ix.ClassId
  slot : Fin (ix.decl owner).fields.length
deriving DecidableEq

variable (ix : ClassIndex)

/-- The declaration of a method. -/
def method (m : ix.MethodId) : MethodDecl := (ix.decl m.owner).methods[m.slot]

/-- The declaration of a field. -/
def field (f : ix.FieldId) : FieldDecl := (ix.decl f.owner).fields[f.slot]

/-- All classes in the order of their declarations. -/
def classIds : List ix.ClassId := List.finRange ix.classes.length

/-- The methods and constructors of a class in the order of their declarations. -/
def methodsOf (c : ix.ClassId) : List ix.MethodId :=
  (List.finRange (ix.decl c).methods.length).map fun slot => ⟨c, slot⟩

/-- The scope of a file. -/
def scope? (file : FileId) : Option FileScope := ix.scopes[file]?

end ClassIndex

end InjectionPoints
