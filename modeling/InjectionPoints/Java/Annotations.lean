/-
Annotations in a syntax tree: their simple names, their attributes, and the strings and classes that
an attribute holds. An attribute holds one value or several in braces; a value without a name is the
attribute `value`.
-/
import InjectionPoints.Java.Place
import InjectionPoints.Java.StringLiteral

namespace InjectionPoints.Java

open Text

/-- Whether the kind is an annotation, with or without arguments. -/
def Kind.annotates (k : Kind) : Bool := k == .annotationWithArguments || k == .annotationMarker

namespace Annotations

/-- What stands behind the last dot of a name. -/
def lastPart (name : List Char) : List Char :=
  ((cutLast (· == '.') name).map Prod.snd).getD name

/-- The simple name of an annotation: `@a.b.At` is `At`. -/
def simpleName? (source : String) (p : Place) : Option String :=
  if p.kind.annotates then
    (p.child? .name).map fun name => trim (String.ofList (lastPart (name.text source).toList))
  else none

/-- The nearest annotation around a node. -/
def enclosing? (p : Place) : Option Place := p.ancestors.find? fun a => a.kind.annotates

/-- The annotations among modifiers. -/
def among (modifiers : Place) : List Place :=
  modifiers.namedChildren.filter fun c => c.kind.annotates

/-- The modifiers of a declaration. -/
def modifiers? (p : Place) : Option Place := p.child? .modifiers <|> p.named? .modifiers

/-- The value of the attribute `name` among the arguments of an annotation. -/
def attributeAmong (source name : String) : List Place → Option Place
  | [] => none
  | c :: cs =>
    if c.kind.isComment then attributeAmong source name cs
    else if c.kind == .elementValuePair then
      if (c.child? .key).any fun key => key.text source == name then c.child? .value
      else attributeAmong source name cs
    else if name == "value" then some c
    else attributeAmong source name cs

/-- The value of the attribute `name` of an annotation. -/
def attribute? (source name : String) (a : Place) : Option Place :=
  (a.child? .arguments).bind fun arguments =>
    attributeAmong source name arguments.namedChildren

/-- The string that a string literal denotes. -/
def stringAt (source : String) (literal : Place) : String :=
  StringLiteral.value (literal.text source)

/-- The attribute `name` when it is one string literal. -/
def stringAttribute? (source name : String) (a : Place) : Option String :=
  (attribute? source name a).bind fun value =>
    if value.kind == .stringLiteral then some (stringAt source value) else none

/-- The values that an attribute holds. -/
def values (value : Place) : List Place :=
  if value.kind == .elementValueArrayInitializer then value.namedChildren else [value]

/-- The strings among the values of an attribute. -/
def strings (source : String) (value : Place) : List String :=
  ((values value).filter fun v => v.kind == .stringLiteral).map (stringAt source)

/-- The strings that the attribute `name` of an annotation holds. -/
def stringsOf (source name : String) (a : Place) : List String :=
  ((attribute? source name a).map (strings source)).getD []

/-- The types of the class literals among the values of an attribute, as they are written. -/
def classes (source : String) (value : Place) : List String :=
  ((values value).filter fun v => v.kind == .classLiteral).filterMap fun v =>
    v.namedChildren.head?.map (Place.text source)

/-- The types of the class literals that the attribute `name` of an annotation holds. -/
def classesOf (source name : String) (a : Place) : List String :=
  ((attribute? source name a).map (classes source)).getD []

end Annotations

end InjectionPoints.Java
