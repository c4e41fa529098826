/-
What an editor asks about the `target` text of an injection point, given a file and a cursor: what
the text selects, whether it selects nothing, and what could stand there instead. A question that
does not apply has an empty answer; the log says why.
-/
import InjectionPoints.Target
import InjectionPoints.Usage

namespace InjectionPoints

open Java

/-- A string literal that is the `target` of an injection point. -/
structure Reference where
  file : FileId
  source : String
  /-- The annotation of the injection point. -/
  point : Place
  literal : Place

namespace Reference

variable (ws : Workspace)

/-- A string literal as a reference, if it is one. -/
def ofLiteral? (file : FileId) (literal : Place) : Option Reference := do
  let source := ws.text file
  let point ← Annotations.enclosing? literal
  if Annotations.simpleName? source point == some "At" then
    let target ← Annotations.attribute? source "target" point
    if target.same literal then some { file, source, point, literal } else none
  else none

/-- The reference at a cursor: the literal around it, unless an attribute is nearer. -/
def at? (path : String) (offset : Nat) : Option Reference := do
  let file ← ws.fileId? path
  let root ← ws.root? file
  let p := root.descend offset offset
  let near ← (p :: p.ancestors).find? fun a =>
    a.kind == .stringLiteral || a.kind == .elementValuePair
  if near.kind == .stringLiteral then ofLiteral? ws file near else none

/-- The text of the reference. -/
def text (r : Reference) : String := Annotations.stringAt r.source r.literal

/-- Where the text stands. -/
def contentSpan (r : Reference) : Span :=
  StringLiteral.contentSpan r.literal.span (r.literal.text r.source)

/-- What the injection point selects. -/
def element (r : Reference) : Except Obstacle Element :=
  let value := Annotations.stringAttribute? r.source "value" r.point
  match value.bind InjectionPoint.ofName? with
  | some point => .ok point.element
  | none => .error (.unsupportedPoint (value.getD ""))

/-- The scope of a method that an injector changes. -/
def scope (m : TargetMethod ws.index) : Scope ws.index :=
  .ofMethod (ws.text (ws.index.decl m.method.owner).file) m.method m.declaration

/-- The elements that the reference selects, all of them or the first only, in their file. -/
def elements (r : Reference) (firstOnly : Bool) : Except Obstacle (FileId × List Place) := do
  let element ← r.element
  let m ← Target.resolve ws r.file r.point
  let found ← orObstacle .unreadableTarget
    (Usage.find? (scope ws m) element m.body r.text firstOnly)
  return ((ws.index.decl m.method.owner).file, found)

/-- The variants that could stand in place of the reference. -/
def variants (r : Reference) : Except Obstacle (List Variant) := do
  let element ← r.element
  let m ← Target.resolve ws r.file r.point
  return Usage.variants (scope ws m) element m.body

/-- Whether the reference applies and selects nothing. -/
def isUnresolved (r : Reference) : Except Obstacle Bool :=
  (r.elements ws true).map fun (_, found) => found.isEmpty

end Reference

/-- A place to which an editor can go. -/
structure Location where
  file : String
  span : Span
deriving DecidableEq

/-- A variant together with the text that it replaces. -/
structure Completion where
  variant : Variant
  replaceSpan : Span

inductive Severity where
  | error | warning
deriving DecidableEq

structure Diagnostic where
  severity : Severity
  code : String
  message : String
  span : Span
deriving DecidableEq

/-- The diagnostic for a reference that selects nothing. -/
def Diagnostic.unresolved (r : Reference) : Diagnostic :=
  { severity := .error
    code := "MIXIN_UNRESOLVED_TARGET"
    message := "Cannot resolve target reference '" ++ r.text ++ "'"
    span := r.contentSpan }

namespace Query

variable (ws : Workspace)

/-- Asks about the reference at a cursor; without one the answer is the default. -/
def ask {α : Type} (default : α) (question : Reference → Except Obstacle α) (path : String)
    (offset : Nat) : Logged α :=
  match Reference.at? ws path offset with
  | some r => .ofExcept default (question r)
  | none => ⟨default, []⟩

/-- Whether the reference at a cursor applies and selects nothing. -/
def isUnresolved : String → Nat → Logged Bool := ask ws false (Reference.isUnresolved ws)

/-- The elements that the reference at a cursor selects. -/
def resolveReference : String → Nat → Logged (List Location) :=
  ask ws [] fun r =>
    (r.elements ws false).map fun (file, found) => found.map fun p => ⟨ws.path file, p.span⟩

/-- The element that the reference at a cursor selects, when there is exactly one. -/
def resolveTarget (path : String) (offset : Nat) : Logged (Option Location) :=
  let all := resolveReference ws path offset
  { value := match all.value with
      | [location] => some location
      | _ => none
    log := all.log }

/-- What could stand in place of the reference at a cursor. -/
def completions : String → Nat → Logged (List Completion) :=
  ask ws [] fun r => (r.variants ws).map fun variants => variants.map fun v => ⟨v, r.contentSpan⟩

/-- Whether the reference at a cursor names a member of a class. -/
def usesMember : String → Nat → Logged (Option Bool) :=
  ask ws none fun r => r.element.map fun element => some element.isMember

/-- The references of a file in the order of the text. -/
def references (path : String) : List Reference :=
  match ws.fileId? path with
  | none => []
  | some file =>
    match ws.root? file with
    | none => []
    | some root =>
      (root.preorder.filter fun p => p.kind == .stringLiteral).filterMap
        (Reference.ofLiteral? ws file)

/-- Every reference of a file that applies and selects nothing. -/
def diagnostics (path : String) : Logged (List Diagnostic) :=
  let asked := (references ws path).map fun r =>
    (r, Logged.ofExcept false (Reference.isUnresolved ws r))
  { value := (asked.filter fun a => a.2.value).map fun a => .unresolved a.1
    log := asked.flatMap fun a => a.2.log }

end Query

end InjectionPoints
