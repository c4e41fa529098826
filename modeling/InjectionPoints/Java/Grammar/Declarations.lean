/-
Rules for the declarations of types and of their members.
-/
import InjectionPoints.Java.Grammar.Expressions

namespace InjectionPoints.Java.Grammar

open Rule

/-! ## Variables and parameters -/

/-- Variables of one type, each with or without a first value. -/
def declarators : Rule :=
  sep "," (field .declarator (node .variableDeclarator
    (variableName ++
      opt (tok "=" ++ field .value (alt (ref .arrayInitializer) expression)))))

/-- A declaration of variables behind its modifiers. -/
def typedVariables : Rule :=
  field .type (ref .plainType) ++ declarators ++ tok ";"

def receiverParameter : Rule :=
  node .receiverParameter
    (many (ref .annotationUse) ++ ref .plainType ++ many (anyName ++ tok ".") ++ leaf "this" .this)

def parameter : Rule :=
  headed [
    (.formalParameter, field .type (ref .plainType) ++ variableName),
    (.spreadParameter,
      ref .plainType ++ tok "..." ++ node .variableDeclarator
        (variableName ++ opt (tok "=" ++ field .value (alt (ref .arrayInitializer) expression))))]

def formalParameters : Rule :=
  node .formalParameters
    (tok "(" ++
      oneOf [
        receiverParameter ++ tok ")",
        receiverParameter ++ tok "," ++ commas parameter ++ tok ")",
        commas parameter ++ tok ")"])

def throws : Rule := node .throws (tok "throws" ++ sep "," (ref .type))

/-! ## Types -/

def superclass : Rule := node .superclass (tok "extends" ++ ref .type)

def superInterfaces : Rule := node .superInterfaces (tok "implements" ++ typeList)

def permits : Rule := node .permits (tok "permits" ++ typeList)

def optTypeParameters : Rule := opt (field .typeParameters (ref .typeParameters))

def classRule : Kind × Rule :=
  (.classDeclaration,
    tok "class" ++ field .name anyName ++ optTypeParameters ++
      opt (field .superclass superclass) ++ opt (field .interfaces superInterfaces) ++
      opt (field .permits permits) ++ field .body (ref .classBody))

def interfaceRule : Kind × Rule :=
  (.interfaceDeclaration,
    tok "interface" ++ field .name anyName ++ optTypeParameters ++
      opt (node .extendsInterfaces (tok "extends" ++ typeList)) ++
      opt (field .permits permits) ++ field .body (ref .interfaceBody))

def enumRule : Kind × Rule :=
  (.enumDeclaration,
    tok "enum" ++ field .name anyName ++ opt (field .interfaces superInterfaces) ++
      field .body (ref .enumBody))

def recordRule : Kind × Rule :=
  (.recordDeclaration,
    tok "record" ++ field .name (word ["instanceof"] .identifier) ++ optTypeParameters ++
      field .parameters (ref .formalParameters) ++ opt (field .interfaces superInterfaces) ++
      field .body (ref .classBody))

def annotationTypeRule : Kind × Rule :=
  (.annotationTypeDeclaration,
    tok "@interface" ++ field .name anyName ++ field .body (ref .annotationBody))

/-- The declarations of types. -/
def typeRules : List (Kind × Rule) :=
  [classRule, interfaceRule, enumRule, recordRule, annotationTypeRule]

/-! ## Members -/

/-- A method behind its modifiers. -/
def methodRule : Kind × Rule :=
  (.methodDeclaration,
    opt (field .typeParameters (ref .typeParameters) ++ many (ref .annotationUse)) ++
      field .type (ref .plainType) ++ field .name anyName ++
      field .parameters (ref .formalParameters) ++ opt (field .dimensions (ref .dimensions)) ++
      opt throws ++ alt (field .body (ref .block)) (tok ";"))

/-- The call of another constructor with which a constructor may begin. -/
def constructorCall : Rule :=
  let typeArguments := opt (field .typeArguments (ref .typeArguments))
  node .explicitConstructorInvocation
    (alt
      (typeArguments ++
        field .constructor (alt (leaf "this" .this) (leaf "super" .super)) ++
        field .arguments (ref .arguments) ++ tok ";")
      (field .object (ref (.primary true)) ++ tok "." ++ typeArguments ++
        field .constructor (leaf "super" .super) ++ field .arguments (ref .arguments) ++ tok ";"))

def constructorRule : Kind × Rule :=
  (.constructorDeclaration,
    optTypeParameters ++ field .name anyName ++ field .parameters (ref .formalParameters) ++
      opt throws ++
      field .body (node .constructorBody
        (braced (opt constructorCall ++ many (ref (.statement false))))))

def compactConstructorRule : Kind × Rule :=
  (.compactConstructorDeclaration, field .name anyName ++ field .body (ref .block))

def fieldRule : Kind × Rule := (.fieldDeclaration, typedVariables)

def constantRule : Kind × Rule := (.constantDeclaration, typedVariables)

/-- A member of a class, an enum or a record. -/
def classMember : Rule :=
  oneOf [
    tok ";",
    ref .block,
    node .staticInitializer (tok "static" ++ ref .block),
    headed (typeRules ++ [fieldRule, methodRule, constructorRule, compactConstructorRule])]

def classBody : Rule := node .classBody (braced (many classMember))

def interfaceBody : Rule :=
  node .interfaceBody
    (braced (many (alt (tok ";") (headed (typeRules ++ [constantRule, methodRule])))))

def enumConstant : Rule :=
  headed [(.enumConstant,
    field .name anyName ++ opt (field .arguments (ref .arguments)) ++
      opt (field .body (ref .classBody)))]

def enumBody : Rule :=
  node .enumBody
    (braced (commasOpen enumConstant ++
      opt (node .enumBodyDeclarations (tok ";" ++ many classMember))))

/-- An attribute of an annotation type. -/
def attributeRule : Kind × Rule :=
  (.annotationTypeElementDeclaration,
    field .type (ref .plainType) ++ field .name anyName ++ tok "(" ++ tok ")" ++
      opt (field .dimensions (ref .dimensions)) ++
      opt (tok "default" ++ field .value (ref .elementValue)) ++ tok ";")

def annotationBody : Rule :=
  node .annotationTypeBody
    (braced (many (alt (tok ";")
      (headed [classRule, interfaceRule, enumRule, annotationTypeRule, constantRule,
        attributeRule]))))

/-! ## Packages, imports and modules -/

def packageDeclaration : Rule :=
  node .packageDeclaration
    (many (ref .annotationUse) ++ tok "package" ++ qualifiedName [] ++ tok ";")

def importDeclaration : Rule :=
  node .importDeclaration
    (tok "import" ++ opt (tok "static") ++ qualifiedName ["static"] ++
      opt (tok "." ++ leaf "*" .asterisk) ++ tok ";")

/-- A directive that opens a package to all modules or to some. -/
def packageDirective (keyword : String) (kind : Kind) : Rule :=
  node kind
    (tok keyword ++ field .package (qualifiedName []) ++
      opt (tok "to" ++ sep "," (field .modules (qualifiedName []))) ++ tok ";")

def moduleDirective : Rule :=
  let modifier := field .modifiers (node .requiresModifier (anyTok ["transitive", "static"]))
  oneOf [
    node .requiresModuleDirective
      (tok "requires" ++ many modifier ++ field .module (qualifiedName []) ++ tok ";"),
    packageDirective "exports" .exportsModuleDirective,
    packageDirective "opens" .opensModuleDirective,
    node .usesModuleDirective (tok "uses" ++ field .type (qualifiedName []) ++ tok ";"),
    node .providesModuleDirective
      (tok "provides" ++ field .provided (qualifiedName []) ++ tok "with" ++ qualifiedName [] ++
        many (tok "," ++ field .provider (qualifiedName [])) ++ tok ";")]

def moduleDeclaration : Rule :=
  node .moduleDeclaration
    (many (ref .annotationUse) ++ opt (tok "open") ++ tok "module" ++
      field .name (qualifiedName ["instanceof"]) ++
      field .body (node .moduleBody (braced (many moduleDirective))))

end InjectionPoints.Java.Grammar
