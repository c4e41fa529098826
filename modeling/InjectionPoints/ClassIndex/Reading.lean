/-
Declarations read off a syntax tree: fields, methods, classes, and what a file imports. Types are
kept without white space. A class without constructors gets one: it takes no arguments, or, in a
record, one for each field.
-/
import InjectionPoints.ClassIndex.Declaration
import InjectionPoints.Java.Annotations
import InjectionPoints.Java.TypeText

namespace InjectionPoints

open Java Text

variable (source : String)

/-- The text of a node without white space. -/
def Java.Tree.compactText (t : Tree) : String := TypeText.compact (t.text source)

/-- The dimensions written behind the name of a declaration. -/
def Java.Tree.dimensionsText (t : Tree) : String :=
  ((t.child? .dimensions).map (Tree.compactText source)).getD ""

namespace FieldDecl

/-- The fields of a declaration of variables. -/
def ofTree (t : Tree) : List FieldDecl :=
  match t.child? .type with
  | none => []
  | some type =>
    (t.childrenIn .declarator).filterMap fun declarator =>
      (declarator.child? .name).map fun name =>
        ⟨name.text source, type.compactText source ++ declarator.dimensionsText source, name.span⟩

end FieldDecl

/-- The type variables that a declaration introduces. -/
def TypeParam.ofTree (t : Tree) : List TypeParam :=
  match t.child? .typeParameters <|> t.named? .typeParameters with
  | none => []
  | some params =>
    (params.namedChildren.filter fun c => c.kind == .typeParameter).filterMap fun param =>
      (param.named? .typeIdentifier <|> param.named? .identifier).map fun name =>
        ⟨name.text source,
          ((param.named? .typeBound).bind fun bound => bound.namedChildren.head?).map
            (Tree.compactText source)⟩

/-- A parameter of a method, or a component of a record. -/
structure Parameter where
  field : FieldDecl
  varargs : Bool

namespace Parameter

/-- A parameter that takes one argument. -/
def single? (t : Tree) : Option Parameter := do
  let type ← t.child? .type
  let name ← t.child? .name
  return ⟨⟨name.text source, type.compactText source ++ t.dimensionsText source, name.span⟩, false⟩

/-- A parameter that takes any number of arguments. Its type is the first thing that is neither a
modifier nor its name. -/
def spread? (t : Tree) : Option Parameter := do
  let type ← t.namedChildren.find? fun c => c.kind != .modifiers && c.kind != .variableDeclarator
  let name ← (t.named? .variableDeclarator).bind (Tree.child? .name)
  return ⟨⟨name.text source, type.compactText source ++ "[]", name.span⟩, true⟩

/-- The parameters in a list of parameters. -/
def ofTree (params : Tree) : List Parameter :=
  params.namedChildren.filterMap fun t =>
    match t.kind with
    | .formalParameter => single? source t
    | .spreadParameter => spread? source t
    | _ => none

/-- The parameters of a declaration. -/
def ofDeclaration (t : Tree) : List Parameter :=
  ((t.child? .parameters).map (ofTree source)).getD []

end Parameter

namespace MethodDecl

/-- The method or constructor that a node declares. -/
def ofTree? (t : Tree) : Option MethodDecl := do
  let name ← t.child? .name
  let params := Parameter.ofDeclaration source t
  let isConstructor := t.kind == .constructorDeclaration
  let returnType ←
    if isConstructor then some none
    else (t.child? .type).map fun type =>
      some (type.compactText source ++ t.dimensionsText source)
  return {
    name := if isConstructor then constructorName else name.text source
    typeParams := TypeParam.ofTree source t
    params := params.map fun p => p.field.type
    varargs := params.getLast?.any Parameter.varargs
    returnType
    nameSpan := name.span
    declSpan := t.span
    hasBody := (t.child? .body).isSome
    implicit := false }

/-- The constructor of a class that declares none. -/
def implicitConstructor (nameSpan : Span) (params : List String) : MethodDecl :=
  { name := constructorName, typeParams := [], params, varargs := false, returnType := none,
    nameSpan, declSpan := nameSpan, hasBody := false, implicit := true }

end MethodDecl

/-- The kind of class that a declaration introduces. -/
def ClassKind.ofKind : Kind → ClassKind
  | .interfaceDeclaration => .interface
  | .enumDeclaration => .enum
  | .recordDeclaration => .record
  | .annotationTypeDeclaration => .annotationType
  | _ => .plain

/-- Whether a class of this kind always has a constructor. -/
def ClassKind.isConstructed : ClassKind → Bool
  | .plain | .enum | .record => true
  | .interface | .annotationType => false

/-- The members in the body of a class; those of an enum stand behind its constants. -/
def Java.Tree.members (body : Tree) : List Tree :=
  body.namedChildren.flatMap fun c =>
    if c.kind == .enumBodyDeclarations then c.namedChildren else [c]

/-- The types in the clause that names the interfaces of a class. -/
def Java.Tree.interfaceTexts (t : Tree) : List String :=
  let clause := t.child? .interfaces <|> t.named? .superInterfaces <|> t.named? .extendsInterfaces
  match clause.bind (Tree.named? .typeList) with
  | some types => types.namedChildren.map (Tree.compactText source)
  | none => []

namespace ClassDecl

/-- The class that a node declares. Its names grow from those of the class around it, or else from
the package. -/
def ofTree? (file : FileId) (package : Option String) (outer : Option (Nat × ClassDecl))
    (t : Tree) : Option ClassDecl := do
  let nameNode ← t.child? .name
  let name := nameNode.text source
  let kind := ClassKind.ofKind t.kind
  let members := ((t.child? .body).map Tree.members).getD []
  let components := if kind = .record then (Parameter.ofDeclaration source t).map (·.field) else []
  let declared := members.flatMap fun m =>
    if m.kind == .fieldDeclaration || m.kind == .constantDeclaration then
      FieldDecl.ofTree source m
    else []
  let fields := components ++ declared
  let methods := members.filterMap fun m =>
    if m.kind == .methodDeclaration || m.kind == .constructorDeclaration then
      MethodDecl.ofTree? source m
    else none
  let implicitly :=
    if kind.isConstructed && !methods.any MethodDecl.isConstructor then
      [MethodDecl.implicitConstructor nameNode.span
        (if kind = .record then fields.map (·.type) else [])]
    else []
  return {
    file, name
    sourceName := match outer with
      | some (_, around) => around.sourceName ++ "." ++ name
      | none => (package.map (· ++ ".")).getD "" ++ name
    binaryName := match outer with
      | some (_, around) => around.binaryName ++ "$" ++ name
      | none => (package.map (· ++ ".")).getD "" ++ name
    kind
    nameSpan := nameNode.span
    outer := outer.map Prod.fst
    typeParams := TypeParam.ofTree source t
    superclass := ((t.child? .superclass).bind fun clause => clause.namedChildren.head?).map
      (Tree.compactText source)
    interfaces := t.interfaceTexts source
    fields
    methods := methods ++ implicitly }

end ClassDecl

namespace FileScope

/-- The name in a declaration of a package or an import. -/
def nameNode? (t : Tree) : Option Tree := t.named? .scopedIdentifier <|> t.named? .identifier

/-- What the scope becomes behind an import. -/
def addImport (scope : FileScope) (t : Tree) : FileScope :=
  match nameNode? t with
  | none => scope
  | some nameNode =>
    let name := nameNode.compactText source
    let onDemand := (t.named? .asterisk).isSome
    let last := String.ofList (Annotations.lastPart name.toList)
    if t.children.any fun c => c.kind == .token "static" then
      if onDemand then
        { scope with staticOnDemandImports := scope.staticOnDemandImports ++ [name] }
      else
        match cutLast (· == '.') name.toList with
        | some (owner, _) =>
          { scope with staticImports := scope.staticImports ++ [(last, String.ofList owner)] }
        | none => scope
    else if onDemand then { scope with onDemandImports := scope.onDemandImports ++ [name] }
    else { scope with singleImports := scope.singleImports ++ [(last, name)] }

/-- What the scope becomes behind something at the top of a file. -/
def add (scope : FileScope) (t : Tree) : FileScope :=
  match t.kind with
  | .packageDeclaration => { scope with package := (nameNode? t).map (Tree.text source) }
  | .importDeclaration => scope.addImport source t
  | _ => scope

/-- The scope of a file. -/
def ofTree (root : Tree) : FileScope := root.namedChildren.foldl (add source) empty

end FileScope

end InjectionPoints
