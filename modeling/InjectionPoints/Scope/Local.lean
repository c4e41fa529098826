/-
Local variables: parameters, variables of blocks and loops, resources, and parameters of catch
clauses and lambdas. Each is visible from the end of its name on inside one region of the text; of
several visible declarations of a name the last one in the text counts, which is the innermost.
-/
import InjectionPoints.Java.Annotations

namespace InjectionPoints

open Java

/-- A declaration of a local variable. -/
structure LocalVariable where
  name : String
  /-- The type as it is written; none for a lambda parameter without one. -/
  type : Option String
  /-- The first value. -/
  init : Option Place
  /-- The region in which the name is visible. -/
  region : Place
  /-- The end of the name where it is declared; uses come behind it. -/
  declaredAt : Nat

namespace LocalVariable

/-- Whether a use of the name lies where the declaration is visible. -/
def isVisibleAt (v : LocalVariable) (use : Place) : Bool :=
  decide (v.declaredAt ≤ use.start) && decide (v.region.start ≤ use.start) &&
    decide (use.stop ≤ v.region.stop)

variable (source : String)

/-- A variable whose name, type and region are given by nodes. -/
def ofNodes (name : Place) (type init : Option Place) (region : Place) : LocalVariable :=
  { name := name.text source, type := type.map (Place.text source), init, region,
    declaredAt := name.stop }

/-- A parameter of a method, a constructor or a lambda, visible in all of it. -/
def ofParameter? (p : Place) : Option LocalVariable := do
  let region ← (← p.parent?).parent?
  return ofNodes source (← p.child? .name) (some (← p.child? .type)) none region

/-- The variable of a loop over elements, visible in the whole loop. -/
def ofLoop? (p : Place) : Option LocalVariable := do
  return ofNodes source (← p.child? .name) (some (← p.child? .type)) none p

/-- A resource, visible in its whole statement. -/
def ofResource? (p : Place) : Option LocalVariable := do
  let region ← p.ancestor? (· == .tryWithResourcesStatement)
  return ofNodes source (← p.child? .name) (some (← p.child? .type)) (p.child? .value) region

/-- The parameter of a catch clause, visible in the clause. -/
def ofCatch? (p : Place) : Option LocalVariable := do
  return ofNodes source (← p.child? .name) (some (← p.named? .catchType)) none (← p.parent?)

/-- The parameters of a lambda that are written without types. -/
def ofLambda (p : Place) : List LocalVariable :=
  match p.child? .parameters with
  | none => []
  | some params =>
    let names : List Place :=
      match params.kind with
      | .identifier => [params]
      | .inferredParameters => params.namedChildren.filter fun c => c.kind == .identifier
      | _ => []
    names.map fun name => ofNodes source name none none p

/-- The variables of a declaration in a block, visible in the block. -/
def ofDeclaration (p : Place) : List LocalVariable :=
  match p.child? .type, p.parent? with
  | some type, some region =>
    (p.childrenIn .declarator).filterMap fun declarator =>
      (declarator.child? .name).map fun name =>
        ofNodes source name (some type) (declarator.child? .value) region
  | _, _ => []

/-- The variables that a node declares. -/
def declaredAtNode (p : Place) : List LocalVariable :=
  match p.kind with
  | .formalParameter => (ofParameter? source p).toList
  | .enhancedForStatement => (ofLoop? source p).toList
  | .resource => (ofResource? source p).toList
  | .catchFormalParameter => (ofCatch? source p).toList
  | .lambdaExpression => ofLambda source p
  | .localVariableDeclaration => ofDeclaration source p
  | _ => []

/-- The variables that the nodes of a declaration declare, node by node in pre-order. -/
def declaredIn (declaration : Place) : List (List LocalVariable) :=
  (declaration.preorder.map (declaredAtNode source)).filter fun vars => !vars.isEmpty

/-- The declaration that a name means at a use: the last visible one. -/
def lookup (declared : List (List LocalVariable)) (name : String) (use : Place) :
    Option LocalVariable :=
  ((declared.filterMap fun vars => vars.find? fun v => v.name == name).filter fun v =>
    v.isVisibleAt use).getLast?

end LocalVariable

end InjectionPoints
