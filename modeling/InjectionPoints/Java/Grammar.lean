/-
The Java grammar: the rule of every name, and the rule of a whole text.
-/
import InjectionPoints.Java.Grammar.Statements

namespace InjectionPoints.Java

open Grammar.Rule

/-- The rule that a name stands for. -/
def Grammar.rule : Grammar.Name → Grammar.Rule
  | .expression arrows => ref (.joined Grammar.conditionalLevel arrows)
  | .joined level arrows => Grammar.joinedOperands level arrows
  | .operand arrows => Grammar.operand arrows
  | .signed arrows => Grammar.signed arrows
  | .primary arrows => Grammar.primary arrows
  | .parenthesized => Grammar.parenthesized
  | .arguments => Grammar.arguments
  | .arrayInitializer => Grammar.arrayInitializer
  | .switch => Grammar.switch
  | .recordPattern => Grammar.recordPattern
  | .stringLiteral => Grammar.stringLiteral
  | .type => Grammar.type
  | .plainType => Grammar.plainType
  | .simpleType => Grammar.simpleType
  | .typeArguments => Grammar.typeArguments
  | .dimensions => Grammar.dimensions
  | .annotationUse => Grammar.annotationUse
  | .elementValue => Grammar.elementValue
  | .modifiers => Grammar.modifiers
  | .block => Grammar.block
  | .statement atTop => Grammar.statement atTop
  | .localVariables => Grammar.localVariables
  | .formalParameters => Grammar.formalParameters
  | .typeParameters => Grammar.typeParameters
  | .classBody => Grammar.classBody
  | .interfaceBody => Grammar.interfaceBody
  | .enumBody => Grammar.enumBody
  | .annotationBody => Grammar.annotationBody

/-- A whole text is a sequence of statements and declarations. -/
def Grammar.program : Grammar.Rule := many (ref (.statement true))

/-- How deep rules may nest over so many tokens: each token is below a bounded number of rules that
read nothing themselves. -/
def Grammar.depth (tokens : Nat) : Nat := 1000 * (tokens + 2)

/-- The nodes at the top of a text, if all its tokens can be read. -/
def Grammar.read? (tokens : List Token) : Option (List Tree) :=
  match Grammar.program.read Grammar.rule (Grammar.depth tokens.length) [] tokens with
  | some (nodes, []) => some nodes.reverse
  | _ => none

end InjectionPoints.Java
