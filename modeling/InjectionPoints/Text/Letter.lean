/-
Letters and digits of names. Names of programs are written in Latin script, so the table of letters
is that of the script `Latin` (general category `L`), together with the micro sign; digits are the
ten of ASCII.
-/
namespace InjectionPoints.Text

/-- The ranges of Latin letters outside ASCII. -/
def latinRanges : List (Nat × Nat) :=
  [(0xAA, 0xAA), (0xB5, 0xB5), (0xBA, 0xBA), (0xC0, 0xD6), (0xD8, 0xF6), (0xF8, 0x2B8),
    (0x2E0, 0x2E4), (0x1D00, 0x1D25), (0x1D2C, 0x1D5C), (0x1D62, 0x1D65), (0x1D6B, 0x1D77),
    (0x1D79, 0x1DBE), (0x1E00, 0x1EFF), (0x2071, 0x2071), (0x207F, 0x207F), (0x2090, 0x209C),
    (0x212A, 0x212B), (0x2132, 0x2132), (0x214E, 0x214E), (0x2183, 0x2184), (0x2C60, 0x2C7F),
    (0xA722, 0xA787), (0xA78B, 0xA7CA), (0xA7F2, 0xA7FF), (0xAB30, 0xAB5A), (0xAB5C, 0xAB64),
    (0xFB00, 0xFB06), (0xFF21, 0xFF3A), (0xFF41, 0xFF5A)]

/-- A letter of ASCII or one of `latinRanges`. -/
def isLetter (c : Char) : Bool :=
  c.isAlpha ||
    (decide (0xAA ≤ c.toNat) && latinRanges.any fun r => decide (r.1 ≤ c.toNat ∧ c.toNat ≤ r.2))

/-- A letter or a digit. -/
def isAlphanumeric (c : Char) : Bool := isLetter c || c.isDigit

theorem isLetter_of_isAlpha {c : Char} (h : c.isAlpha = true) : isLetter c = true := by
  simp [isLetter, h]

end InjectionPoints.Text
