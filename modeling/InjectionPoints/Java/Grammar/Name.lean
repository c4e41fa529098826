/-
The names of the rules of the Java grammar that other rules refer to.
-/
namespace InjectionPoints.Java.Grammar

/-- Rules that refer to each other. -/
inductive Name where
  /-- An expression; without arrows, `x ->` begins no lambda, as in the label of a switch rule. -/
  | expression (arrows : Bool)
  /-- Operands joined by operators that bind at least as tightly as the level. -/
  | joined (level : Nat) (arrows : Bool)
  /-- An operand with increments behind it. -/
  | operand (arrows : Bool)
  /-- An operand with signs and casts in front of it. -/
  | signed (arrows : Bool)
  | primary (arrows : Bool)
  | parenthesized
  | arguments
  | arrayInitializer
  | switch
  | recordPattern
  | stringLiteral
  | type
  | plainType
  | simpleType
  | typeArguments
  | dimensions
  | annotationUse
  | elementValue
  | modifiers
  | block
  /-- A statement; at the top of a text methods are declared like statements. -/
  | statement (atTop : Bool)
  | localVariables
  | formalParameters
  | typeParameters
  | classBody
  | interfaceBody
  | enumBody
  | annotationBody

end InjectionPoints.Java.Grammar
