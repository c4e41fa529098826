/-
Choosing among overloads. Each argument whose type is known fits a parameter better or worse, or
not at all; the candidates with the best total fit are kept. An argument of unknown type fits any
parameter, but says nothing for it.
-/
import InjectionPoints.ClassIndex.Members

namespace InjectionPoints

/-- What is known of the type of an argument. -/
inductive ArgumentType where
  | unknown
  | null
  /-- A type, by its descriptor. -/
  | known (descriptor : String)
deriving DecidableEq

namespace ClassIndex

open ArgumentType

/-- The descriptors of the primitive types with the classes that box them. -/
def boxes : List (String × String) :=
  [("Z", "java/lang/Boolean"), ("B", "java/lang/Byte"), ("C", "java/lang/Character"),
    ("S", "java/lang/Short"), ("I", "java/lang/Integer"), ("J", "java/lang/Long"),
    ("F", "java/lang/Float"), ("D", "java/lang/Double")]

/-- Supertypes of classes of the standard library that are often passed as arguments. -/
def knownSupertypes : List (String × String) :=
  [("java/lang/String", "java/lang/CharSequence"), ("java/lang/String", "java/lang/Comparable"),
    ("java/lang/String", "java/io/Serializable"), ("java/lang/Integer", "java/lang/Number"),
    ("java/lang/Long", "java/lang/Number"), ("java/lang/Short", "java/lang/Number"),
    ("java/lang/Byte", "java/lang/Number"), ("java/lang/Float", "java/lang/Number"),
    ("java/lang/Double", "java/lang/Number")]

/-- Whether a descriptor is that of a primitive type, which is a single letter. -/
def isPrimitive (descriptor : String) : Bool := descriptor.utf8ByteSize == 1

/-- The primitive types to which a primitive type widens. -/
def wider (descriptor : String) : List String :=
  match descriptor with
  | "B" => ["S", "I", "J", "F", "D"]
  | "S" => ["I", "J", "F", "D"]
  | "C" => ["I", "J", "F", "D"]
  | "I" => ["J", "F", "D"]
  | "J" => ["F", "D"]
  | "F" => ["D"]
  | _ => []

/-- The class that boxes a primitive type. -/
def box? (descriptor : String) : Option String := boxes.lookup descriptor

/-- The name of the class in a class descriptor. -/
def classOf? (descriptor : String) : Option String :=
  match descriptor.toList with
  | 'L' :: cs =>
    if cs.getLast? = some ';' then some (String.ofList cs.dropLast) else none
  | _ => none

/-- The primitive type that a class boxes. -/
def unbox? (descriptor : String) : Option String :=
  (classOf? descriptor).bind fun name => (boxes.find? fun b => b.2 == name).map Prod.fst

/-- Whether a descriptor is that of an array. -/
def isArray (descriptor : String) : Bool := descriptor.toList.head? == some '['

variable (ix : ClassIndex)

/-- Looks for a class with the internal name among the supertypes that classes declare; `unknown`
tells that one was met that is not in the index, which leaves the answer open. -/
def subtypeAmong (internal : String) (unknown : Bool) : List ix.ClassId → Option Bool
  | [] => if unknown then none else some false
  | c :: cs =>
    let absent := (ix.decl c).supers.filter fun type =>
      (ix.resolve? (ix.decl c).file type).isNone
    if (ix.decl c).internalName == internal then some true
    else if absent.any fun type =>
        ix.internalTypeName (ix.decl c).file (Java.TypeText.erasedName type) == internal then
      some true
    else subtypeAmong internal (unknown || !absent.isEmpty) cs

/-- Whether a class is, extends or implements the class with the internal name; nothing when a
supertype outside the index leaves that open. -/
def isSubtype? (c : ix.ClassId) (internal : String) : Option Bool :=
  ix.subtypeAmong internal false (ix.supertypes c)

/-- How well a reference type fits another one: 3 for the same class, 2 for a subclass, 1 for
`Object` and for an array that is cloned or written out, 0 where that is open. -/
def referenceFit (arg param : String) : Option Nat :=
  if param == objectDescriptor then some 1
  else if isArray arg || isArray param then
    if isArray arg && (param == "Ljava/lang/Cloneable;" || param == "Ljava/io/Serializable;") then
      some 1
    else none
  else
    match classOf? arg, classOf? param with
    | some arg, some param =>
      if arg == param then some 3
      else
        match ix.byName? arg with
        | some c =>
          match ix.isSubtype? c param with
          | some true => some 2
          | some false => none
          | none => some 0
        | none =>
          if knownSupertypes.contains (arg, param) then some 2
          else if arg == "java/lang/String" || boxes.any (fun b => b.2 == arg) then none
          else if (ix.byName? param).isSome then none
          else some 0
    | _, _ => none

/-- How well a known type fits a parameter: 3 for the same type, 2 when a primitive type widens, 1
where it is boxed or unboxed, and as `referenceFit` says between classes. -/
def knownFit (arg param : String) : Option Nat :=
  if arg == param then some 3
  else if isPrimitive arg then
    if isPrimitive param then if (wider arg).contains param then some 2 else none
    else
      (box? arg).bind fun boxed =>
        let boxed := "L" ++ boxed ++ ";"
        if boxed == param || (ix.referenceFit boxed param).isSome then some 1 else none
  else if isPrimitive param then
    (unbox? arg).bind fun unboxed =>
      if unboxed == param || (wider unboxed).contains param then some 1 else none
  else ix.referenceFit arg param

/-- How well an argument fits a parameter, if it can be passed at all. -/
def fit (arg : ArgumentType) (param : String) : Option Nat :=
  match arg with
  | unknown => some 0
  | null => if isPrimitive param then none else some 1
  | known arg => ix.knownFit arg param

/-- The descriptor of an array's elements. -/
def elementOf (array : String) : String :=
  match array.toList with
  | '[' :: cs => String.ofList cs
  | _ => array

/-- How well the argument at a position fits among parameters, of which `fixed` take one argument
each. Behind these an argument is an element of the last parameter, or, when there are as many
arguments as parameters, perhaps the whole array. -/
def fitAt (params : List String) (fixed arity : Nat) (position : Nat) (arg : ArgumentType) :
    Option Nat :=
  if position < fixed then (params[position]?).bind (ix.fit arg)
  else
    params.getLast?.bind fun array =>
      (if arity = params.length then ix.fit arg array else none) <|> ix.fit arg (elementOf array)

/-- How many parameters of a method take one argument each. -/
def fixedCount (m : MethodDecl) : Nat := if m.varargs then m.params.length - 1 else m.params.length

/-- The fits of all arguments of a call, if the method can be called with them. -/
def fits (m : ix.MethodId) (args : List ArgumentType) : Option (List Nat) :=
  let params := ix.parameterDescriptors m
  let fixed := fixedCount (ix.method m)
  args.zipIdx.mapM fun (arg, position) => ix.fitAt params fixed args.length position arg

/-- The total fit of the arguments of a call, if the method can be called with them. -/
def applicability (m : ix.MethodId) (args : List ArgumentType) : Option Nat :=
  (ix.fits m args).map fun fits => fits.foldl (· + ·) 0

/-- The candidates that fit the arguments best, in their order; all of them when none fits. -/
def bestOverloads (candidates : List ix.MethodId) (args : List ArgumentType) : List ix.MethodId :=
  if candidates.length < 2 then candidates
  else
    let scored := candidates.filterMap fun m =>
      (ix.applicability m args).map fun score => (m, score)
    match (scored.map Prod.snd).max? with
    | none => candidates
    | some best => (scored.filter fun s => s.2 == best).map Prod.fst

end ClassIndex

end InjectionPoints
