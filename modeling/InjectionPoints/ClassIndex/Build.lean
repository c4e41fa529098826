/-
How a class index grows: a file adds its scope and its classes, a class before the ones inside it.
What was there before stays as it was, so numbers of classes and files keep their meaning.
-/
import InjectionPoints.ClassIndex.Reading

namespace InjectionPoints

open Java

namespace ClassIndex

variable (source : String) (file : FileId) (package : Option String)

mutual

/-- Adds the class that a node declares, and then the classes inside it. -/
def addType (outer : Option (Nat × ClassDecl)) (classes : List ClassDecl) : Tree → List ClassDecl
  | .node k f s cs =>
    match ClassDecl.ofTree? source file package outer (.node k f s cs) with
    | none => classes
    | some c => addBody (some (classes.length, c)) (classes ++ [c]) cs

/-- Adds the classes inside a body, which is the first of the nodes in that role. -/
def addBody (outer : Option (Nat × ClassDecl)) (classes : List ClassDecl) :
    List Tree → List ClassDecl
  | [] => classes
  | .node _ f _ cs :: ts =>
    if f = some .body then addMembers outer classes cs else addBody outer classes ts

/-- Adds the classes among the members of a body. -/
def addMembers (outer : Option (Nat × ClassDecl)) (classes : List ClassDecl) :
    List Tree → List ClassDecl
  | [] => classes
  | .node k f s cs :: ts =>
    let classes :=
      if k = .enumBodyDeclarations then addMembers outer classes cs
      else if Kind.typeDeclarations.contains k then addType outer classes (.node k f s cs)
      else classes
    addMembers outer classes ts

end

/-- Adds the classes among the nodes at the top of a file. -/
def addTypes (classes : List ClassDecl) (nodes : List Tree) : List ClassDecl :=
  nodes.foldl
    (fun classes t =>
      if Kind.typeDeclarations.contains t.kind then addType source file package none classes t
      else classes)
    classes

/-- The index with one more file. -/
def addFile (ix : ClassIndex) (source : String) (root : Tree) : ClassIndex :=
  let scope := FileScope.ofTree source root
  { classes := addTypes source ix.scopes.length scope.package ix.classes root.children
    scopes := ix.scopes ++ [scope] }

end ClassIndex

end InjectionPoints
