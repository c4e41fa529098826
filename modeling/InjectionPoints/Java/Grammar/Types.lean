/-
Rules for types and annotations.
-/
import InjectionPoints.Java.Grammar.Words

namespace InjectionPoints.Java.Grammar

open Rule

def expression : Rule := ref (.expression true)

/-- Whether a node is of one of the kinds. -/
def isOne (kinds : List Kind) (t : Tree) : Bool := kinds.contains t.kind

/-! ## Types -/

def primitiveType : Rule :=
  oneOf [
    node .integralType (anyTok ["byte", "short", "int", "long", "char"]),
    node .floatingPointType (anyTok ["float", "double"]),
    leaf "boolean" .booleanType,
    leaf "void" .voidType]

/-- A primitive type, or a name with type arguments and inner types. -/
def simpleType : Rule :=
  alt primitiveType
    (word primitiveWords .typeIdentifier ++
      many (alt
        (given (isOne [.typeIdentifier, .scopedTypeIdentifier]) ++
          onto none .genericType (ref .typeArguments))
        (given (isOne [.typeIdentifier, .scopedTypeIdentifier, .genericType]) ++
          onto none .scopedTypeIdentifier
            (tok "." ++ many (ref .annotationUse) ++ word memberWords .typeIdentifier))))

/-- A type without annotations in front. -/
def plainType : Rule :=
  ref .simpleType ++ opt (onto (some .element) .arrayType (field .dimensions (ref .dimensions)))

def type : Rule :=
  alt (node .annotatedType (plus (ref .annotationUse) ++ ref .plainType)) (ref .plainType)

def wildcard : Rule :=
  node .wildcard
    (many (ref .annotationUse) ++ tok "?" ++
      opt (alt (tok "extends" ++ ref .type) (leaf "super" .super ++ ref .type)))

def typeArguments : Rule :=
  node .typeArguments (tok "<" ++ commas (alt (ref .type) wildcard) ++ tok ">")

def dimensions : Rule :=
  node .dimensions (plus (many (ref .annotationUse) ++ tok "[" ++ tok "]"))

def typeList : Rule := node .typeList (sep "," (ref .type))

def typeParameters : Rule :=
  node .typeParameters
    (tok "<" ++
      sep "," (node .typeParameter
        (many (ref .annotationUse) ++ word [] .typeIdentifier ++
          opt (node .typeBound (tok "extends" ++ sep "&" (ref .type))))) ++
      tok ">")

/-! ## Annotations -/

def elementValue : Rule :=
  oneOf [
    ref .annotationUse,
    node .elementValueArrayInitializer (braced (commasOpen (ref .elementValue))),
    expression]

/-- The attributes of an annotation: a single value, or values behind their names. -/
def annotationArguments : Rule :=
  node .annotationArgumentList
    (tok "(" ++
      alt
        (commas (node .elementValuePair
            (field .key (word (expressionWords ++ contextualWords) .identifier) ++ tok "=" ++
              field .value (ref .elementValue))) ++
          tok ")")
        (ref .elementValue ++ tok ")"))

def annotationUse : Rule :=
  let name := tok "@" ++ field .name (qualifiedName [])
  alt (node .annotationWithArguments (name ++ field .arguments annotationArguments))
    (node .annotationMarker name)

def modifiers : Rule :=
  node .modifiers (plus (oneOf [
    ref .annotationUse,
    anyTok ["public", "protected", "private", "abstract", "static", "final", "strictfp",
      "default", "synchronized", "native", "transient", "volatile", "sealed"],
    joined ["non", "-", "sealed"] [] (.token "non-sealed")]))

/-- Several constructs that may begin with modifiers. -/
def headed (alternatives : List (Kind × Rule)) : Rule :=
  alt (ref .modifiers ++ oneOf (alternatives.map fun (kind, a) => onto none kind a))
    (oneOf (alternatives.map fun (kind, a) => node kind a))

end InjectionPoints.Java.Grammar
