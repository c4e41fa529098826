/-
Injection points: where inside a method an injector attaches. Only those that select an element of
the body have a kind here; `HEAD`, `RETURN` and the like select nothing.
-/
namespace InjectionPoints

/-- An injection point that selects elements of a body. -/
inductive InjectionPoint where
  | invoke | invokeAssign | invokeString | field | new
deriving DecidableEq

/-- What an injection point selects. -/
inductive Element where
  /-- Calls of methods. -/
  | call
  /-- String literals that are arguments of calls. -/
  | stringArgument
  /-- Reads and writes of fields. -/
  | fieldAccess
  /-- Creations of objects. -/
  | construction
deriving DecidableEq

namespace InjectionPoint

def all : List InjectionPoint := [invoke, invokeAssign, invokeString, field, new]

/-- The name that an annotation gives to an injection point. -/
def name : InjectionPoint → String
  | invoke => "INVOKE"
  | invokeAssign => "INVOKE_ASSIGN"
  | invokeString => "INVOKE_STRING"
  | field => "FIELD"
  | new => "NEW"

/-- The injection point of a name. -/
def ofName? (name : String) : Option InjectionPoint := all.find? fun p => p.name == name

def element : InjectionPoint → Element
  | invoke | invokeAssign => .call
  | invokeString => .stringArgument
  | field => .fieldAccess
  | new => .construction

theorem ofName?_name (p : InjectionPoint) : ofName? p.name = some p := by
  cases p <;> decide

end InjectionPoint

/-- Whether elements of the kind are selected by naming a member of a class. -/
def Element.isMember : Element → Bool
  | .stringArgument => false
  | _ => true

end InjectionPoints
