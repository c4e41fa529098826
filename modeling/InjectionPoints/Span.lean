/-
Byte ranges of a source text. Every position in this library counts the bytes of the text's
UTF-8 form; a span is half open, but a cursor right behind its last byte still touches it.
-/
namespace InjectionPoints

/-- The bytes from `start` up to, and without, `stop`. -/
structure Span where
  start : Nat
  stop : Nat
deriving DecidableEq

namespace Span

/-- The number of bytes covered; none when the ends are the wrong way round. -/
def length (s : Span) : Nat := s.stop - s.start

def isEmpty (s : Span) : Bool := decide (s.stop ≤ s.start)

/-- Whether a cursor at `offset` touches the span: both ends count. -/
def touches (s : Span) (offset : Nat) : Bool := decide (s.start ≤ offset ∧ offset ≤ s.stop)

/-- Whether `t` lies inside `s`. -/
def covers (s t : Span) : Bool := decide (s.start ≤ t.start ∧ t.stop ≤ s.stop)

/-- The way a span is shown to a reader, `Span(3..6)`. -/
def display (s : Span) : String :=
  "Span(" ++ toString s.start ++ ".." ++ toString s.stop ++ ")"

/-- The text that the span covers in `source`. -/
def text (s : Span) (source : String) : String :=
  String.Pos.Raw.extract source ⟨s.start⟩ ⟨s.stop⟩

theorem isEmpty_iff {s : Span} : s.isEmpty = true ↔ s.length = 0 := by
  simp only [isEmpty, length, decide_eq_true_eq]
  omega

theorem touches_iff {s : Span} {offset : Nat} :
    s.touches offset = true ↔ s.start ≤ offset ∧ offset ≤ s.stop := by
  simp [touches]

theorem covers_iff {s t : Span} : s.covers t = true ↔ s.start ≤ t.start ∧ t.stop ≤ s.stop := by
  simp [covers]

end Span

end InjectionPoints
