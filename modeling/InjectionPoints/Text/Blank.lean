/-
White space of the Unicode standard (property `White_Space`), and the two things done with it:
taking it off both ends of a text, and taking it out of a text altogether.
-/
namespace InjectionPoints.Text

/-- A character with the property `White_Space`. -/
def isBlank (c : Char) : Bool :=
  let n := c.toNat
  decide (0x9 ≤ n ∧ n ≤ 0xD) || n == 0x20 || n == 0x85 || n == 0xA0 || n == 0x1680 ||
    decide (0x2000 ≤ n ∧ n ≤ 0x200A) || n == 0x2028 || n == 0x2029 || n == 0x202F ||
    n == 0x205F || n == 0x3000

/-- The text without the white space before it and behind it. -/
def trimChars (cs : List Char) : List Char :=
  ((cs.dropWhile isBlank).reverse.dropWhile isBlank).reverse

/-- `trimChars` for a string. -/
def trim (s : String) : String := String.ofList (trimChars s.toList)

/-- The text without any of its white space. -/
def squeezeChars (cs : List Char) : List Char := cs.filter (fun c => !isBlank c)

/-- `squeezeChars` for a string. -/
def squeeze (s : String) : String := String.ofList (squeezeChars s.toList)

/-- The white space that `Char.isWhitespace` knows is white space here too. -/
theorem isBlank_of_isWhitespace {c : Char} (h : c.isWhitespace = true) : isBlank c = true := by
  simp only [Char.isWhitespace, Bool.or_eq_true, decide_eq_true_eq] at h
  rcases h with ((rfl | rfl) | rfl) | rfl <;> decide

@[simp] theorem squeezeChars_nil : squeezeChars [] = [] := rfl

theorem squeezeChars_append (s t : List Char) :
    squeezeChars (s ++ t) = squeezeChars s ++ squeezeChars t := by
  simp [squeezeChars]

end InjectionPoints.Text
