/-
Elements of a method body that a selector can name: which nodes they are, the selectors that name
them (`find?`), and the selectors offered for completion (`variants`).
-/
import InjectionPoints.InjectionPoint
import InjectionPoints.Member
import InjectionPoints.Scope.Typing
import InjectionPoints.Walk

namespace InjectionPoints

open Java

/-- A selector that is offered for completion. -/
structure Variant where
  /-- The selector. -/
  insertText : String
  /-- What is shown: the member's name, behind its class when that is not the scanned one. -/
  label : String
  /-- Texts by which the variant is looked up. -/
  lookupStrings : List String
  detail : Option String
  /-- Whether the scanned class itself declares the member. -/
  bold : Bool
deriving DecidableEq

/-- Kinds of nodes below which a name alone is an expression. -/
def expressionParents : List Kind :=
  [.assignmentExpression, .binaryExpression, .unaryExpression, .updateExpression,
    .parenthesizedExpression, .argumentList, .returnStatement, .ternaryExpression, .arrayAccess,
    .arrayInitializer, .throwStatement, .dimensionsExpr, .yieldStatement, .assertStatement]

/-- Whether a name alone is read as an expression at its place. -/
def isExpressionName (p : Place) : Bool :=
  match p.parent? with
  | none => false
  | some parent =>
    match parent.kind with
    | .fieldAccess | .methodInvocation => parent.hasChildIn .object p
    | .variableDeclarator | .castExpression | .enhancedForStatement => parent.hasChildIn .value p
    | .instanceofExpression => parent.hasChildIn .left p
    | .forStatement => parent.hasChildIn .condition p
    | kind => expressionParents.contains kind

namespace Usage

variable {ix : ClassIndex} (s : Scope ix)

/-- The methods that a call may mean, the best first; several only when the arguments cannot tell
them apart. -/
def calls (p : Place) : List (QualifiedMember ix) :=
  if p.kind == .methodInvocation then
    let qualifier := s.qualifier? s.fullTyping (p.child? .object)
    (s.callCandidates s.fullTyping p).map fun m => ⟨.method m, qualifier⟩
  else []

/-- The constructors that a creation may mean, the best first. -/
def constructions (p : Place) : List (QualifiedMember ix) :=
  if p.kind == .objectCreationExpression then
    (s.constructionCandidates s.fullTyping p).map fun m => ⟨.method m, none⟩
  else []

/-- The field that is read or written. -/
def fieldAccess? (p : Place) : Option (QualifiedMember ix) :=
  if p.kind == .fieldAccess then
    (s.accessedField? s.fullTyping p).map fun f =>
      ⟨.field f, s.qualifier? s.fullTyping (p.child? .object)⟩
  else if p.kind == .identifier && isExpressionName p && !s.isLocal (s.text p) p then
    (s.fieldNamed? (s.text p)).map fun f => ⟨.field f, none⟩
  else none

/-- The value of a string literal that is an argument of a call. -/
def stringArgument? (p : Place) : Option String :=
  if p.kind == .stringLiteral then do
    let args ← p.parent?
    let call ← args.parent?
    if args.kind == .argumentList && call.kind == .methodInvocation then
      some (Annotations.stringAt s.source p)
    else none
  else none

/-- The members that a node may stand for as an element of a kind, the best first. -/
def members : Element → Place → List (QualifiedMember ix)
  | .call, p => calls s p
  | .fieldAccess, p => (fieldAccess? s p).toList
  | .construction, p => constructions s p
  | .stringArgument, _ => []

/-- The elements of a body that a text selects, all of them or the first only. Strings are selected
by their value, members by a selector; a text that is no selector selects nothing at all. -/
def find? (element : Element) (body : Place) (text : String) (firstOnly : Bool) :
    Option (List Place) :=
  if element.isMember then
    (Selector.parse? text).map fun selector =>
      collect firstOnly
        (fun p => if (members s element p).any (·.isSelectedBy selector) then some p else none) body
  else
    some (collect firstOnly
      (fun p => if stringArgument? s p = some text then some p else none) body)

/-! ## Completion -/

/-- The variant that names a member. -/
def memberVariant (m : QualifiedMember ix) : Variant :=
  let declaring := m.member.declaringClass
  let own := declaring == s.owner
  let shown := if own then m.member.name else (ix.decl declaring).name ++ "." ++ m.member.name
  { insertText := m.literal, label := shown, lookupStrings := [shown],
    detail := some m.member.descriptor, bold := own }

/-- The variant that names a string; its detail is the method that takes the string. -/
def stringVariant (literal : Place) (value : String) : Variant :=
  let call := literal.parent?.bind Place.parent?
  { insertText := value, label := value, lookupStrings := [value],
    detail := (call.bind (Place.child? .name)).map fun name => s.text name ++ "(...)",
    bold := false }

/-- The variant that names a node as an element of a kind. -/
def variant? (element : Element) (p : Place) : Option Variant :=
  if element.isMember then (members s element p).head?.map (memberVariant s)
  else (stringArgument? s p).map (stringVariant s p)

/-- The variants of a body, each selector once, in the order of the text. -/
def variants (element : Element) (body : Place) : List Variant :=
  firstsBy Variant.insertText [] (collect false (variant? s element) body)

end Usage

end InjectionPoints
