/-
Rules for statements.
-/
import InjectionPoints.Java.Grammar.Declarations

namespace InjectionPoints.Java.Grammar

open Rule

/-- A statement inside another one. -/
def inner : Rule := ref (.statement false)

def block : Rule := node .block (braced (many inner))

/-- Local variables behind their modifiers. -/
def localVariablesRule : Kind × Rule :=
  (.localVariableDeclaration, avoid (statementWords ++ contextualWords) ++ typedVariables)

def localVariables : Rule := headed [localVariablesRule]

def condition : Rule := node .condition (inParentheses expression)

def ifStatement : Rule :=
  node .ifStatement
    (tok "if" ++ field .condition condition ++ field .consequence inner ++
      opt (tok "else" ++ field .alternative inner))

def whileStatement : Rule :=
  node .whileStatement (tok "while" ++ field .condition condition ++ field .body inner)

def doStatement : Rule :=
  node .doStatement
    (tok "do" ++ field .body inner ++ tok "while" ++ field .condition (ref .parenthesized) ++
      tok ";")

/-- A loop over the elements of something. -/
def enhancedFor : Rule :=
  node .enhancedForStatement
    (tok "for" ++ tok "(" ++ opt (ref .modifiers) ++ field .type (ref .plainType) ++
      variableName ++ tok ":" ++ field .value expression ++ tok ")" ++ field .body inner)

def forStatement : Rule :=
  node .forStatement
    (tok "for" ++ tok "(" ++
      alt (field .init (ref .localVariables)) (commas (field .init expression) ++ tok ";") ++
      opt (field .condition expression) ++ tok ";" ++ commas (field .update expression) ++
      tok ")" ++ field .body inner)

def catchClause : Rule :=
  node .catchClause
    (tok "catch" ++
      inParentheses (node .catchFormalParameter
        (opt (ref .modifiers) ++ node .catchType (sep "|" (ref .plainType)) ++ variableName)) ++
      field .body (ref .block))

def finallyClause : Rule := node .finallyClause (tok "finally" ++ ref .block)

def resource : Rule :=
  let declared := field .type (ref .plainType) ++ variableName ++ tok "=" ++
    field .value expression
  alt (headed [(.resource, declared)])
    (node .resource (ref (.primary true) ++ given (isOne [.identifier, .fieldAccess])))

def resources : Rule :=
  node .resourceSpecification (inParentheses (sep ";" resource ++ opt (tok ";")))

def tryStatement : Rule :=
  oneOf [
    node .tryWithResourcesStatement
      (tok "try" ++ field .resources resources ++ field .body (ref .block) ++ many catchClause ++
        opt finallyClause),
    node .tryStatement
      (tok "try" ++ field .body (ref .block) ++
        alt (plus catchClause ++ opt finallyClause) finallyClause)]

/-- A jump out of a loop or a block, perhaps of one with a label. -/
def jump (keyword : String) (kind : Kind) : Rule :=
  node kind (tok keyword ++ opt anyName ++ tok ";")

/-- The statements that a keyword introduces. -/
def keywordStatement : Rule :=
  oneOf [
    ifStatement,
    node .returnStatement (tok "return" ++ opt expression ++ tok ";"),
    enhancedFor,
    forStatement,
    whileStatement,
    doStatement,
    tryStatement,
    ref .switch,
    node .throwStatement (tok "throw" ++ expression ++ tok ";"),
    jump "break" .breakStatement,
    jump "continue" .continueStatement,
    node .synchronizedStatement
      (tok "synchronized" ++ ref .parenthesized ++ field .body (ref .block)),
    node .assertStatement
      (tok "assert" ++ expression ++ opt (tok ":" ++ expression) ++ tok ";"),
    node .yieldStatement (tok "yield" ++ expression ++ tok ";")]

def statement (atTop : Bool) : Rule :=
  oneOf [
    tok ";",
    ref .block,
    keywordStatement,
    node .labeledStatement
      (avoid statementWords ++ word expressionWords .identifier ++ tok ":" ++ inner),
    importDeclaration,
    packageDeclaration,
    moduleDeclaration,
    headed (typeRules ++ [localVariablesRule] ++ if atTop then [methodRule] else []),
    node .expressionStatement (avoid statementWords ++ expression ++ tok ";")]

end InjectionPoints.Java.Grammar
