/-
From names to classes. `byName?` takes the full name of a class in any of its spellings; `resolve?`
takes a type as a file writes it, and looks where the file could have meant it: among its own
classes, then at its imports, its package and `java.lang`.
-/
import InjectionPoints.ClassIndex.Declaration
import InjectionPoints.FirstAndLast
import InjectionPoints.Java.TypeText

namespace InjectionPoints.ClassIndex

open Java Text

variable (ix : ClassIndex)

/-- The class with a source name; of several the one declared last. -/
def bySourceName? (name : String) : Option ix.ClassId :=
  findLast? (fun c => c.sourceName == name) ix.classes

/-- Full names separate their parts by dots, slashes or dollar signs. -/
def sourceForm (name : String) : String :=
  String.ofList ((trimChars name.toList).map fun c => if c == '/' || c == '$' then '.' else c)

/-- The class with a full name, be it its source name, its binary name or its internal name. -/
def byName? (name : String) : Option ix.ClassId := ix.bySourceName? (sourceForm name)

/-- The first class of a file with a simple name, at any depth. -/
def inFile? (file : FileId) (name : String) : Option ix.ClassId :=
  findFirst? (fun c => c.file == file && c.name == name) ix.classes

/-- A name inside a package. -/
def qualify (package : Option String) (name : String) : String :=
  match package with
  | some package => package ++ "." ++ name
  | none => name

/-- The source names that a simple name without an import of its own can stand for. -/
def candidates (scope : FileScope) (name : String) : List String :=
  qualify scope.package name :: scope.onDemandImports.map (fun p => p ++ "." ++ name) ++
    ["java.lang." ++ name]

/-- The class that a simple name stands for in a file. An import of the name settles the matter,
even when the imported class is unknown. -/
def resolveSimple? (file : FileId) (name : String) : Option ix.ClassId :=
  match ix.inFile? file name with
  | some c => some c
  | none =>
    match ix.scope? file with
    | none => none
    | some scope =>
      match scope.singleImport? name with
      | some imported => ix.bySourceName? imported
      | none => (candidates scope name).findSome? ix.bySourceName?

/-- The class that an erased name stands for in a file. A name with dots is a full name, or else
begins with the simple name of a class around the one meant. -/
def resolveName? (file : FileId) (name : String) : Option ix.ClassId :=
  match cutFirst (· == '.') name.toList with
  | some (head, rest) =>
    ix.bySourceName? name <|> do
      let outer ← ix.resolveSimple? file (String.ofList head)
      ix.bySourceName? ((ix.decl outer).sourceName ++ "." ++ String.ofList rest)
  | none => ix.resolveSimple? file name

/-- The class that a type mentions, as it is written in a file; primitive types mention none. -/
def resolve? (file : FileId) (type : String) : Option ix.ClassId :=
  let name := TypeText.erasedName type
  if name.isEmpty || (TypeText.primitive? name).isSome then none else ix.resolveName? file name

/-- The classes whose static member `name` a file imports, by its name or with all others. -/
def staticOwners (file : FileId) (name : String) : List ix.ClassId :=
  match ix.scope? file with
  | none => []
  | some scope =>
    let owners := (scope.staticImports.filter fun i => i.1 == name).map Prod.snd ++
      scope.staticOnDemandImports
    firstsBy id [] (owners.filterMap ix.byName?)

end InjectionPoints.ClassIndex
