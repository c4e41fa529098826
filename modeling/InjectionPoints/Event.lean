/-
Why a query has no answer, and what is written to the log about it.

A query that does not apply ends with an `Obstacle`, the first one that it meets. Most obstacles are
worth an event in the log; the others are plain absences.
-/
import InjectionPoints.FileTree

namespace InjectionPoints

/-- Why the elements that an annotation selects cannot be told. -/
inductive Obstacle where
  /-- The injection point, empty when there is none, selects nothing. -/
  | unsupportedPoint (value : String)
  /-- No annotation is around the injection point. -/
  | noInjector
  /-- The injector names no method, or several. -/
  | methodCount (injector : String) (selectors : Nat)
  /-- The class around is not declared to change other classes. -/
  | noMixin
  /-- The class around changes no class of the index, or several. -/
  | classCount (targets : Nat)
  /-- The text that names the method is no selector. -/
  | unreadableMethod
  /-- The selector names no method of the class, or several. -/
  | methodNotUnique (selector : String)
  /-- The method has no body. -/
  | noBody (method : String)
  /-- The declaration of the method is not found in its file. -/
  | noDeclaration
  /-- The text that selects elements is no selector. -/
  | unreadableTarget
deriving DecidableEq

/-- Something that is written to the log. -/
inductive Event where
  | unsupportedPoint (value : String)
  | methodCount (injector : String) (selectors : Nat)
  | classCount (targets : Nat)
  | methodNotUnique (selector : String)
  | noBody (method : String)
  | unreadableFile (path : String) (error : FileError)
deriving DecidableEq

/-- The event that reports an obstacle, if one does. -/
def Obstacle.event? : Obstacle → Option Event
  | unsupportedPoint value => some (.unsupportedPoint value)
  | methodCount injector selectors => some (.methodCount injector selectors)
  | classCount targets => some (.classCount targets)
  | methodNotUnique selector => some (.methodNotUnique selector)
  | noBody method => some (.noBody method)
  | noInjector | noMixin | unreadableMethod | noDeclaration | unreadableTarget => none

/-- The value of a field of an event. -/
inductive EventValue where
  | text (value : String)
  | number (value : Nat)

namespace Event

/-- The message of an event. -/
def message : Event → String
  | unsupportedPoint _ => "@At injection point has no target selector support"
  | methodCount _ _ => "mixin injector does not name exactly one target method"
  | classCount _ => "mixin does not resolve to exactly one indexed target class"
  | methodNotUnique _ => "mixin target method selector is not unique"
  | noBody _ => "mixin target method has no body"
  | unreadableFile _ _ => "failed to read Java source while loading mixin workspace"

/-- The fields of an event, by their names. -/
def fields : Event → List (String × EventValue)
  | unsupportedPoint value => [("value", .text value)]
  | methodCount injector selectors =>
    [("injector", .text injector), ("selectors", .number selectors)]
  | classCount targets => [("targets", .number targets)]
  | methodNotUnique selector => [("selector", .text selector)]
  | noBody method => [("method", .text method)]
  | unreadableFile path error => [("path", .text path), ("err", .text error.message)]

end Event

/-- A value and what was written to the log on the way to it. -/
structure Logged (α : Type) where
  value : α
  log : List Event

/-- An answer, or the default where there is an obstacle, which is reported. -/
def Logged.ofExcept {α : Type} (default : α) : Except Obstacle α → Logged α
  | .ok a => ⟨a, []⟩
  | .error o => ⟨default, o.event?.toList⟩

/-- An answer, or the cause why there is none. -/
def orObstacle {α : Type} (o : Obstacle) : Option α → Except Obstacle α
  | some a => .ok a
  | none => .error o

end InjectionPoints
