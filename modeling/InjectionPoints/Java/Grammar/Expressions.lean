/-
Rules for expressions. Operators bind by levels: `joined level` reads an operand and then any number
of operators of at least that level, each with an operand that holds only tighter ones, so that
operators of one level lean to the left.
-/
import InjectionPoints.Java.Grammar.Types

namespace InjectionPoints.Java.Grammar

open Rule

/-- The level of the conditional operator. -/
def conditionalLevel : Nat := 3

/-- The level of comparisons, at which a type test binds too. -/
def comparisonLevel : Nat := 10

/-- The binary operators with their levels. -/
def binaryOperators : List (Rule × Nat) :=
  [(tok "||", 4), (tok "&&", 5), (tok "|", 6), (tok "^", 7), (tok "&", 8), (tok "==", 9),
    (tok "!=", 9), (tok "<", comparisonLevel), (tok "<=", comparisonLevel),
    (operator [">"], comparisonLevel), (operator [">", "="], comparisonLevel), (tok "<<", 11),
    (operator [">", ">"], 11), (operator [">", ">", ">"], 11), (tok "+", 12), (tok "-", 12),
    (tok "*", 13), (tok "/", 13), (tok "%", 13)]

def assignmentOperators : Rule :=
  alt (anyTok ["=", "+=", "-=", "*=", "/=", "&=", "|=", "^=", "%=", "<<="])
    (alt (operator [">", ">", "="]) (operator [">", ">", ">", "="]))

/-- An operator behind its left operand, with the right one. -/
def binaryStep (arrows : Bool) (op : Rule) (level : Nat) : Rule :=
  onto (some .left) .binaryExpression
    (field .operator op ++ field .right (ref (.joined (level + 1) arrows)))

def conditionalStep (arrows : Bool) : Rule :=
  onto (some .condition) .ternaryExpression
    (tok "?" ++ field .consequence expression ++ tok ":" ++
      field .alternative (ref (.joined conditionalLevel arrows)))

def typeTestStep : Rule :=
  onto (some .left) .instanceofExpression
    (tok "instanceof" ++ opt (tok "final") ++
      alt (field .pattern (ref .recordPattern))
        (field .right (ref .type) ++ opt (field .name (word ["instanceof"] .identifier))))

/-- What may follow an operand at a level. -/
def steps (level : Nat) (arrows : Bool) : Rule :=
  oneOf
    ((binaryOperators.filter fun (_, l) => decide (level ≤ l)).map
        (fun (op, l) => binaryStep arrows op l) ++
      (if level ≤ comparisonLevel then [typeTestStep] else []) ++
      if level ≤ conditionalLevel then [conditionalStep arrows] else [])

def joinedOperands (level : Nat) (arrows : Bool) : Rule :=
  ref (.operand arrows) ++ many (steps level arrows)

def operand (arrows : Bool) : Rule :=
  ref (.signed arrows) ++ many (onto none .updateExpression (anyTok ["++", "--"]))

/-! ## Lambdas, casts and signs -/

def lambda : Rule :=
  let body := tok "->" ++ field .body (alt (ref .block) expression)
  let name := word expressionWords .identifier
  oneOf [
    node .lambdaExpression (field .parameters name ++ body),
    node .lambdaExpression
      (field .parameters (node .inferredParameters (inParentheses (sep "," name))) ++ body),
    node .lambdaExpression (field .parameters (ref .formalParameters) ++ body)]

/-- A cast. Behind one to a class a sign is an operator between two operands. -/
def cast (arrows : Bool) : Rule :=
  let value := field .value (ref (.operand arrows))
  alt
    (node .castExpression (inParentheses (field .type primitiveType) ++ value))
    (node .castExpression
      (inParentheses (sep "&" (field .type (ref .type))) ++ avoid ["+", "-", "++", "--"] ++ value))

def signed (arrows : Bool) : Rule :=
  oneOf ([
    node .unaryExpression
      (field .operator (anyTok ["+", "-", "!", "~"]) ++ field .operand (ref (.signed arrows))),
    node .updateExpression (anyTok ["++", "--"] ++ ref (.signed arrows))] ++
    (if arrows then [lambda] else []) ++
    [cast arrows, ref .switch, ref (.primary arrows)])

/-! ## Primary expressions -/

/-- Literals that are one token. -/
def numeralOrCharacter : List Kind :=
  [.decimalIntegerLiteral, .hexIntegerLiteral, .octalIntegerLiteral, .binaryIntegerLiteral,
    .decimalFloatingPointLiteral, .hexFloatingPointLiteral, .characterLiteral]

def stringLiteral : Rule :=
  let embedded := node .stringInterpolation (tok "\\\x7b" ++ expression ++ closeBrace)
  let pieces := oneOf [
    piece [.stringFragment, .multilineStringFragment, .escapeSequence],
    silent,
    embedded]
  node .stringLiteral
    (alt (tok "\"" ++ many pieces ++ tok "\"") (tok "\"\"\"" ++ many pieces ++ tok "\"\"\""))

def parenthesized : Rule := node .parenthesizedExpression (inParentheses expression)

def arguments : Rule := node .argumentList (inParentheses (commas expression))

def arrayInitializer : Rule :=
  node .arrayInitializer (braced (commasOpen (alt (ref .arrayInitializer) expression)))

/-- The creation of an object, from its keyword on. -/
def creation : Rule :=
  tok "new" ++ many (ref .annotationUse) ++
    opt (field .typeArguments (ref .typeArguments) ++ many (ref .annotationUse)) ++
    field .type (ref .simpleType) ++ field .arguments (ref .arguments) ++ opt (ref .classBody)

def arrayCreation : Rule :=
  node .arrayCreationExpression
    (tok "new" ++ many (ref .annotationUse) ++ field .type (ref .simpleType) ++
      alt
        (field .dimensions
            (plus (node .dimensionsExpr
              (many (ref .annotationUse) ++ tok "[" ++ expression ++ tok "]"))) ++
          opt (field .dimensions (ref .dimensions)))
        (field .dimensions (ref .dimensions) ++ field .value (ref .arrayInitializer)))

/-- A reference to a method or a constructor, behind what it is taken from. -/
def methodReference : Rule :=
  onto none .methodReference
    (tok "::" ++ opt (ref .typeArguments) ++ alt (tok "new") anyName)

/-- Whether a type could as well be read as the names of an expression. -/
def isPlainName (t : Tree) : Bool :=
  isOne [.typeIdentifier, .scopedTypeIdentifier] t &&
    t.preorder.all fun u => !isOne [.genericType, .annotationWithArguments, .annotationMarker] u

/-- An expression that begins with a type: a class literal, or a reference to a method of a type
that is no mere name. -/
def typeHeaded : Rule :=
  ref .type ++
    alt
      (given (fun t => t.kind != .annotatedType) ++
        onto none .classLiteral (tok "." ++ tok "class"))
      (given (fun t => !isPlainName t) ++ methodReference)

/-- A call of a member. -/
def memberCall : Rule :=
  onto (some .object) .methodInvocation
    (tok "." ++ opt (leaf "super" .super ++ tok ".") ++
      opt (field .typeArguments (ref .typeArguments)) ++
      field .name (word memberWords .identifier) ++ field .arguments (ref .arguments))

/-- An access to a field. -/
def memberAccess : Rule :=
  onto (some .object) .fieldAccess
    (tok "." ++ opt (leaf "super" .super ++ tok ".") ++
      field .field (alt (leaf "this" .this) (word memberWords .identifier)))

/-- What may follow a primary expression. -/
def primarySuffix (arrows : Bool) : Rule :=
  oneOf [
    given (isOne [.identifier]) ++
      onto (some .name) .methodInvocation (field .arguments (ref .arguments)),
    memberCall,
    memberAccess,
    onto (some .array) .arrayAccess (tok "[" ++ field .index expression ++ tok "]"),
    given (isOne [.identifier, .fieldAccess, .arrayAccess]) ++
      onto (some .left) .assignmentExpression
        (field .operator assignmentOperators ++ field .right (ref (.expression arrows))),
    methodReference,
    onto none .objectCreationExpression (tok "." ++ creation),
    onto (some .templateProcessor) .templateExpression
      (tok "." ++ field .templateArgument (ref .stringLiteral))]

def primary (arrows : Bool) : Rule :=
  oneOf [
    piece numeralOrCharacter,
    ref .stringLiteral,
    leaf "true" .trueLiteral,
    leaf "false" .falseLiteral,
    leaf "null" .nullLiteral,
    leaf "this" .this,
    ref .parenthesized,
    node .objectCreationExpression creation,
    arrayCreation,
    leaf "super" .super ++ oneOf [memberCall, memberAccess, methodReference],
    typeHeaded,
    word expressionWords .identifier] ++
  many (primarySuffix arrows)

/-! ## Switches and patterns -/

/-- A pattern for a record, with at least one component or perhaps none. -/
def recordPatternOf (components : Rule → Rule) : Rule :=
  let component := alt (ref .recordPattern)
    (node .recordPatternComponent
      (alt (leaf "_" .underscorePattern) (ref .plainType ++ word [] .identifier)))
  node .recordPattern
    (alt
      (ref .simpleType ++ given (isOne [.genericType]) ++
        node .recordPatternBody (inParentheses (components component)))
      (word expressionWords .identifier ++
        node .recordPatternBody (inParentheses (components component))))

def recordPattern : Rule := recordPatternOf commas

def switchLabel : Rule :=
  let typePattern := node .typePattern (ref .plainType ++ word ["when", "instanceof"] .identifier)
  node .switchLabel
    (alt
      (tok "case" ++
        alt (node .pattern (alt typePattern (recordPatternOf (sep ","))))
          (sep "," (ref (.expression false))) ++
        opt (node .guard (tok "when" ++ ref (.expression false))))
      (tok "default"))

def switch : Rule :=
  let rule := node .switchRule
    (switchLabel ++ tok "->" ++ oneOf [
      ref .block,
      node .throwStatement (tok "throw" ++ expression ++ tok ";"),
      node .expressionStatement (expression ++ tok ";")])
  let group := node .switchBlockStatementGroup
    (plus (switchLabel ++ tok ":") ++ many (ref (.statement false)))
  node .switchExpression
    (tok "switch" ++ field .condition (ref .parenthesized) ++
      field .body
        (alt (node .switchBlock (braced (plus rule))) (node .switchBlock (braced (many group)))))

end InjectionPoints.Java.Grammar
