/-
Superclasses and supertypes. Each name of a supertype is resolved in the file of the class that
writes it; supertypes outside the index are left out.
-/
import InjectionPoints.BreadthFirst
import InjectionPoints.ClassIndex.Resolve

namespace InjectionPoints.ClassIndex

variable (ix : ClassIndex)

/-- The superclass of a class. -/
def superclass? (c : ix.ClassId) : Option ix.ClassId :=
  (ix.decl c).superclass.bind fun type => ix.resolve? (ix.decl c).file type

/-- The supertypes that a class declares: its superclass, then its interfaces. -/
def parents (c : ix.ClassId) : List ix.ClassId :=
  (ix.decl c).supers.filterMap fun type => ix.resolve? (ix.decl c).file type

/-- How many supertypes are declared at all, and the start of a walk. -/
def hierarchySize : Nat := (ix.classes.flatMap ClassDecl.supers).length + 1

/-- A class, and then its supertypes, the nearest first. -/
def supertypes (c : ix.ClassId) : List ix.ClassId :=
  breadthFirst ix.parents ix.hierarchySize [c] []

/-- The classes around a class, the nearest first, when that one is `outer`. The fuel bounds how
deep classes are nested. -/
def around (outer : Option Nat) : Nat → List ClassDecl
  | 0 => []
  | fuel + 1 =>
    match outer.bind fun n => ix.classes[n]? with
    | some c => c :: around c.outer fuel
    | none => []

/-- A class and the classes around it, the nearest first. -/
def enclosing (c : ix.ClassId) : List ClassDecl :=
  ix.decl c :: ix.around (ix.decl c).outer ix.classes.length

end InjectionPoints.ClassIndex
