/-
Java types as they are written. Layout means nothing in a type, generic arguments are erased, and a
variable-arity parameter is an array: this module takes those three away from a written type.
-/
import InjectionPoints.Text.Blank

namespace InjectionPoints.Java.TypeText

open Text

/-- Drops whatever stands inside angle brackets, and the brackets, from a text that begins inside
`depth` of them. A closing bracket without an opening one counts as none. -/
def eraseArguments (depth : Nat) : List Char → List Char
  | [] => []
  | '<' :: cs => eraseArguments (depth + 1) cs
  | '>' :: cs => eraseArguments (depth - 1) cs
  | c :: cs => if depth = 0 then c :: eraseArguments 0 cs else eraseArguments depth cs

/-- A type without its generic arguments: `Map<K, V>` is `Map`. -/
def withoutArguments (s : String) : String := String.ofList (eraseArguments 0 s.toList)

/-- A type without white space. -/
def compact (s : String) : String := squeeze s

/-- Writes `sub` for every `...`. -/
def replaceEllipsis (sub : List Char) : List Char → List Char
  | '.' :: '.' :: '.' :: cs => sub ++ replaceEllipsis sub cs
  | c :: cs => c :: replaceEllipsis sub cs
  | [] => []

/-- Takes the pairs of brackets off the end of a type; the type is given from its last character. -/
def splitDimensions : List Char → Nat × List Char
  | ']' :: '[' :: cs => let (n, base) := splitDimensions cs; (n + 1, base)
  | cs => (0, cs.reverse)

/-- The element type and the number of array dimensions of a type, with white space and generic
arguments erased; `...` is a dimension, and one that is not last is written `[]` in the name. -/
def erasure (s : String) : String × Nat :=
  let cs := replaceEllipsis ['[', ']'] (eraseArguments 0 (squeezeChars s.toList))
  let (n, base) := splitDimensions cs.reverse
  (String.ofList base, n)

/-- The name of the class that a written type mentions: white space, generic arguments, `...` and
the dimensions at its end are left out. -/
def erasedName (s : String) : String :=
  let cs := replaceEllipsis [] (eraseArguments 0 (squeezeChars s.toList))
  String.ofList (splitDimensions cs.reverse).2

/-- The descriptors of the primitive types and of `void`. -/
def primitives : List (String × String) :=
  [("void", "V"), ("boolean", "Z"), ("byte", "B"), ("char", "C"), ("short", "S"), ("int", "I"),
    ("long", "J"), ("float", "F"), ("double", "D")]

/-- The descriptor of a primitive type, or of `void`, by its keyword. -/
def primitive? (name : String) : Option String := primitives.lookup name

@[simp] theorem eraseArguments_nil (n : Nat) : eraseArguments n [] = [] := by
  cases n <;> rfl

end InjectionPoints.Java.TypeText
