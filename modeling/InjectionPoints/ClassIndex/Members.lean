/-
Members of a class by name. Methods and fields are inherited, constructors are not; an inherited
method is hidden by a nearer one with the same descriptor.
-/
import InjectionPoints.ClassIndex.Descriptor

namespace InjectionPoints.ClassIndex

variable (ix : ClassIndex)

/-- The methods of a name that may take so many arguments, the nearest first, hidden ones left
out. -/
def methodsNamed (c : ix.ClassId) (name : String) (arity : Nat) : List ix.MethodId :=
  firstsBy ix.methodDescriptor []
    (((ix.supertypes c).flatMap ix.methodsOf).filter fun m =>
      (ix.method m).name == name && !(ix.method m).isConstructor &&
        (ix.method m).acceptsArity arity)

/-- The constructors of a class that may take so many arguments. -/
def constructorsOf (c : ix.ClassId) (arity : Nat) : List ix.MethodId :=
  (ix.methodsOf c).filter fun m =>
    (ix.method m).isConstructor && (ix.method m).acceptsArity arity

/-- The nearest method of a name that may take so many arguments. -/
def findMethod? (c : ix.ClassId) (name : String) (arity : Nat) : Option ix.MethodId :=
  (ix.methodsNamed c name arity).head?

/-- The first constructor of a class that may take so many arguments. -/
def findConstructor? (c : ix.ClassId) (arity : Nat) : Option ix.MethodId :=
  (ix.constructorsOf c arity).head?

/-- The first field of a name that a class itself declares. -/
def fieldOf? (name : String) (c : ix.ClassId) : Option ix.FieldId :=
  (findFirst? (fun f => f.name == name) (ix.decl c).fields).map fun slot => ⟨c, slot⟩

/-- The nearest field of a name. -/
def findField? (c : ix.ClassId) (name : String) : Option ix.FieldId :=
  (ix.supertypes c).findSome? (ix.fieldOf? name)

end InjectionPoints.ClassIndex
