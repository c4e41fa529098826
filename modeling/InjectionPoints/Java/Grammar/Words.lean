/-
Words and names. Most words are reserved only where the grammar could read them as keywords;
elsewhere they are names like any other. So a rule for a word lists the words that it must leave
alone.
-/
import InjectionPoints.Java.Grammar.Rule

namespace InjectionPoints.Java.Grammar

open Rule

/-! ## Words -/

/-- Keywords of the primitive types. -/
def primitiveWords : List String :=
  ["byte", "short", "int", "long", "char", "float", "double", "boolean", "void"]

/-- Words that begin or continue an expression as keywords. -/
def expressionWords : List String :=
  ["new", "switch", "this", "super", "true", "false", "null", "instanceof"] ++ primitiveWords

/-- Words behind a dot that name no member. -/
def memberWords : List String := ["new", "this", "super", "class"]

/-- Words that begin a statement or a declaration as keywords. -/
def statementWords : List String :=
  ["if", "while", "for", "do", "break", "continue", "return", "throw", "try", "switch",
    "synchronized", "assert", "case", "default", "else", "catch", "finally", "class", "interface",
    "enum", "import", "package", "public", "protected", "private", "abstract", "static", "final",
    "strictfp", "native", "transient", "volatile"]

/-- Words that are keywords in some places and names in others. -/
def contextualWords : List String := ["open", "module", "record", "with", "yield", "sealed"]

/-! ## Names -/

/-- A name where no word is reserved. -/
def anyName : Rule := word [] .identifier

/-- A name with dots, which leans to the left. -/
def qualifiedName (reserved : List String) : Rule :=
  word reserved .identifier ++
    many (onto (some .scope) .scopedIdentifier (tok "." ++ field .name anyName))

/-- The name that a declaration gives to a variable, with its dimensions. -/
def variableName : Rule :=
  field .name (alt (leaf "_" .underscorePattern) (word ["instanceof"] .identifier)) ++
    opt (field .dimensions (ref .dimensions))

end InjectionPoints.Java.Grammar
