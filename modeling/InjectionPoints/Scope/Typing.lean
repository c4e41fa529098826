/-
Names and types inside the body of a method.

Types of expressions are found by recursion into qualifiers, arguments and first values of
variables, which could go on without end; so `Scope.typing depth` goes that deep and no deeper. One
level is written over any typing of the expressions below it.
-/
import InjectionPoints.ClassIndex.Overload
import InjectionPoints.Scope.Local
import InjectionPoints.Text.Letter

namespace InjectionPoints

open Java Text

/-- A method whose body is scanned: its file's text, its declaration, and the local variables that
are declared there. -/
structure Scope (ix : ClassIndex) where
  source : String
  method : ix.MethodId
  declaration : Place
  locals : List (List LocalVariable)

/-- What is known of the types of expressions: their class, when it is in the index, and their type
as an argument. -/
structure Typing (ix : ClassIndex) where
  classOf : Place → Option ix.ClassId
  typeOf : Place → ArgumentType

/-- Nothing is known. -/
def Typing.none (ix : ClassIndex) : Typing ix := ⟨fun _ => .none, fun _ => .unknown⟩

namespace Scope

variable {ix : ClassIndex}

/-- The scope of a method that is declared at a node. -/
def ofMethod (source : String) (method : ix.MethodId) (declaration : Place) : Scope ix :=
  { source, method, declaration, locals := LocalVariable.declaredIn source declaration }

variable (s : Scope ix)

/-- The class whose body is scanned. -/
def owner : ix.ClassId := s.method.owner

def file : FileId := (ix.decl s.owner).file

def text (p : Place) : String := p.text s.source

/-! ## Names -/

/-- The local variable that a name means at a use. -/
def local? (name : String) (use : Place) : Option LocalVariable :=
  LocalVariable.lookup s.locals name use

def isLocal (name : String) (use : Place) : Bool := (s.local? name use).isSome

/-- The field that a name means: one of the class, or else an imported one. -/
def fieldNamed? (name : String) : Option ix.FieldId :=
  ix.findField? s.owner name <|>
    (ix.staticOwners s.file name).findSome? fun c => ix.findField? c name

def isVariable (name : String) (use : Place) : Bool :=
  s.isLocal name use || (s.fieldNamed? name).isSome

/-- The kinds of nodes that can be the name of a class. -/
def isNameKind : Kind → Bool
  | .identifier | .typeIdentifier | .scopedIdentifier | .scopedTypeIdentifier | .fieldAccess => true
  | _ => false

/-- A character of a name, or a dot between names. -/
def isNameChar (c : Char) : Bool := c == '.' || c == '_' || c == '$' || isAlphanumeric c

/-- The class that an expression names, unless its first name is a variable. -/
def namedClass? (p : Place) : Option ix.ClassId :=
  let name := TypeText.compact (s.text p)
  let head := String.ofList (name.toList.takeWhile (· != '.'))
  if isNameKind p.kind && name.toList.all isNameChar && !s.isVariable head p then
    ix.resolve? s.file name
  else none

/-! ## Members -/

/-- The class that a qualifier stands for: the one it names, or else its type. The qualifier `this`
stands for none, like no qualifier at all. -/
def qualifier? (t : Typing ix) : Option Place → Option ix.ClassId
  | none => none
  | some q => if q.kind == .this then none else s.namedClass? q <|> t.classOf q

/-- The class in which the member behind a qualifier is looked up. -/
def receiver? (t : Typing ix) (object : Option Place) : Option ix.ClassId :=
  match object with
  | none => some s.owner
  | some q =>
    if q.kind == .this then some s.owner
    else if q.kind == .super then ix.superclass? s.owner
    else s.qualifier? t object

/-- The arguments of a call or a creation. -/
def arguments (p : Place) : List Place :=
  match p.child? .arguments with
  | some args => args.namedChildren.filter fun a => !a.kind.isComment
  | none => []

/-- The candidates that fit the arguments of a call best. -/
def selectOverloads (t : Typing ix) (p : Place) (candidates : List ix.MethodId) :
    List ix.MethodId :=
  if candidates.length < 2 then candidates
  else ix.bestOverloads candidates ((arguments p).map t.typeOf)

/-- The methods that a call may mean. Methods of the class come first; without any, a call without
qualifier may mean an imported one. -/
def callCandidates (t : Typing ix) (call : Place) : List ix.MethodId :=
  let object := call.child? .object
  match call.child? .name with
  | none => []
  | some nameNode =>
    let name := s.text nameNode
    let arity := (arguments call).length
    let own := ((s.receiver? t object).map fun c => ix.methodsNamed c name arity).getD []
    let candidates :=
      if own.isEmpty && object.isNone then
        (ix.staticOwners s.file name).flatMap fun c => ix.methodsNamed c name arity
      else own
    selectOverloads t call candidates

/-- The method that a call means most likely. -/
def calledMethod? (t : Typing ix) (call : Place) : Option ix.MethodId :=
  (s.callCandidates t call).head?

/-- The field that an access behind a dot means. -/
def accessedField? (t : Typing ix) (access : Place) : Option ix.FieldId := do
  let receiver ← s.receiver? t (access.child? .object)
  let name ← access.child? .field
  ix.findField? receiver (s.text name)

/-- The constructors that a creation may mean. -/
def constructionCandidates (t : Typing ix) (creation : Place) : List ix.MethodId :=
  match (creation.child? .type).bind fun type => ix.resolve? s.file (s.text type) with
  | none => []
  | some c =>
    selectOverloads t creation (ix.constructorsOf c (arguments creation).length)

/-! ## Types of expressions -/

/-- The class of a field's type, which is written in the file that declares the field. -/
def fieldClass? (f : ix.FieldId) : Option ix.ClassId :=
  ix.resolve? (ix.decl f.owner).file (ix.field f).type

/-- The type that has a variable take its type from its first value. -/
def inferredType : String := "var"

/-- The class of an expression, given the types of those below it. -/
def expressionClass? (t : Typing ix) (e : Place) : Option ix.ClassId :=
  match e.kind with
  | .this => some s.owner
  | .super => ix.superclass? s.owner
  | .identifier =>
    match s.local? (s.text e) e with
    | some v =>
      v.type.bind fun type =>
        if type == inferredType then v.init.bind t.classOf else ix.resolve? s.file type
    | none => (s.fieldNamed? (s.text e)).bind fieldClass?
  | .fieldAccess => (s.accessedField? t e).bind fieldClass?
  | .methodInvocation =>
    (s.calledMethod? t e).bind fun m =>
      (ix.method m).returnType.bind fun type => ix.resolve? (ix.decl m.owner).file type
  | .objectCreationExpression | .castExpression =>
    (e.child? .type).bind fun type => ix.resolve? s.file (s.text type)
  | .parenthesizedExpression => e.namedChildren.head?.bind t.classOf
  | .stringLiteral => ix.byName? "java.lang.String"
  | _ => none

def stringDescriptor : String := "Ljava/lang/String;"

/-- The type of a numeral by its last letter, if that is one of the given. -/
def numeralType (text : String) (letters : List Char) (marked plain : String) : ArgumentType :=
  .known (if text.toList.getLast?.any letters.contains then marked else plain)

/-- The argument type of a variable. -/
def variableType (t : Typing ix) (v : LocalVariable) : ArgumentType :=
  match v.type with
  | none => .unknown
  | some type =>
    if type == inferredType then (v.init.map t.typeOf).getD .unknown
    else .known (ix.methodTypeDescriptor s.method type)

/-- The operators whose result is a truth value. -/
def isComparison (operator : String) : Bool :=
  ["==", "!=", "<", ">", "<=", ">=", "&&", "||"].contains operator

/-- The argument type of two operands and an operator: text, when one of them is added to text. -/
def binaryType (t : Typing ix) (e : Place) : ArgumentType :=
  match (e.child? .operator).map s.text with
  | none => .unknown
  | some operator =>
    if isComparison operator then .known "Z"
    else if operator == "+" &&
        [Field.left, .right].any fun side =>
          (e.child? side).any fun operand => t.typeOf operand == .known stringDescriptor then
      .known stringDescriptor
    else .unknown

/-- The type of an expression as an argument, given the types of those below it. -/
def expressionType (t : Typing ix) (e : Place) : ArgumentType :=
  match e.kind with
  | .stringLiteral => .known stringDescriptor
  | .characterLiteral => .known "C"
  | .trueLiteral | .falseLiteral | .instanceofExpression => .known "Z"
  | .nullLiteral => .null
  | .decimalIntegerLiteral | .hexIntegerLiteral | .octalIntegerLiteral | .binaryIntegerLiteral =>
    numeralType (s.text e) ['l', 'L'] "J" "I"
  | .decimalFloatingPointLiteral | .hexFloatingPointLiteral =>
    numeralType (s.text e) ['f', 'F'] "F" "D"
  | .classLiteral => .known "Ljava/lang/Class;"
  | .this => .known ("L" ++ (ix.decl s.owner).internalName ++ ";")
  | .identifier =>
    match s.local? (s.text e) e with
    | some v => s.variableType t v
    | none => ((s.fieldNamed? (s.text e)).map fun f => .known (ix.fieldDescriptor f)).getD .unknown
  | .fieldAccess =>
    ((s.accessedField? t e).map fun f => .known (ix.fieldDescriptor f)).getD .unknown
  | .methodInvocation =>
    ((s.calledMethod? t e).map fun m => .known (ix.returnDescriptor m)).getD .unknown
  | .objectCreationExpression | .castExpression =>
    ((e.child? .type).map fun type =>
      .known (ix.methodTypeDescriptor s.method (s.text type))).getD .unknown
  | .parenthesizedExpression => (e.namedChildren.head?.map t.typeOf).getD .unknown
  | .binaryExpression => s.binaryType t e
  | _ => .unknown

/-- The types of expressions, found by going at most so deep. -/
def typing : Nat → Typing ix
  | 0 => Typing.none ix
  | depth + 1 => ⟨s.expressionClass? (typing depth), s.expressionType (typing depth)⟩

/-- How deep types are looked for. -/
def maxDepth : Nat := 16

/-- The types of expressions as deep as they are looked for. -/
def fullTyping : Typing ix := s.typing maxDepth

end Scope

end InjectionPoints
