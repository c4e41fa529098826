/-
What a Java string literal says, and where its contents stand. A literal is a line between double
quotes, or a text block between triple ones, whose value begins behind its first line feed.

Escapes are read from left to right in one pass. `unescapeFrom_eq_drop` gives the natural reading
of the pass: characters that belong to an escape already read are passed over.
-/
import InjectionPoints.Span
import InjectionPoints.Text.Blank
import InjectionPoints.Text.Split

namespace InjectionPoints.Java.StringLiteral

open Text

/-- The value of a hexadecimal digit. -/
def hexDigit? (c : Char) : Option Nat :=
  if c.isDigit then some (c.toNat - '0'.toNat)
  else if 'a' ≤ c ∧ c ≤ 'f' then some (c.toNat - 'a'.toNat + 10)
  else if 'A' ≤ c ∧ c ≤ 'F' then some (c.toNat - 'A'.toNat + 10)
  else none

/-- The value of an octal digit. -/
def octalDigit? (c : Char) : Option Nat :=
  if '0' ≤ c ∧ c ≤ '7' then some (c.toNat - '0'.toNat) else none

/-- Reads hexadecimal digits behind those that made `n`. -/
def hexFrom (n : Nat) : List Char → Option Nat
  | [] => some n
  | c :: cs => (hexDigit? c).bind fun d => hexFrom (16 * n + d) cs

/-- A hexadecimal number, which may carry a plus sign. -/
def hexNumber? : List Char → Option Nat
  | [] => none
  | ['+'] => none
  | '+' :: cs => hexFrom 0 cs
  | cs => hexFrom 0 cs

/-- The character with code point `n`; surrogates are no characters. -/
def charOf? (n : Nat) : Option Char := if n.isValidChar then some (Char.ofNat n) else none

/-- An octal escape: up to three digits when the first is at most `3`, else up to two. -/
def octal (first : Nat) (cs : List Char) : List Char × Nat :=
  let more := (cs.take (if first ≤ 3 then 2 else 1)).map octalDigit? |>.takeWhile Option.isSome
  let n := more.reduceOption.foldl (fun n d => 8 * n + d) first
  ((charOf? n).toList, 1 + more.length)

/-- A Unicode escape behind its first `u`: further ones, then the next four characters. When these
are no code point of a character they stay as they are, behind a backslash and one `u`. -/
def unicode (cs : List Char) : List Char × Nat :=
  let us := (cs.takeWhile (· == 'u')).length
  let hex := (cs.drop us).take 4
  let value := match (hexNumber? hex).bind charOf? with
    | some c => [c]
    | none => '\\' :: 'u' :: hex
  (value, 1 + us + hex.length)

/-- The text that an escape stands for, and its length behind the backslash. A backslash before a
line feed joins two lines; one before a character that needs no escape is dropped; one at the end
stands for itself. -/
def escape : List Char → List Char × Nat
  | [] => (['\\'], 0)
  | 'n' :: _ => (['\n'], 1)
  | 't' :: _ => (['\t'], 1)
  | 'b' :: _ => (['\x08'], 1)
  | 'r' :: _ => (['\r'], 1)
  | 'f' :: _ => (['\x0c'], 1)
  | 's' :: _ => ([' '], 1)
  | '\n' :: _ => ([], 1)
  | 'u' :: cs => unicode cs
  | c :: cs =>
    match octalDigit? c with
    | some d => octal d cs
    | none => ([c], 1)

/-- Replaces the escapes of a text of which the first `skip` characters are read already. -/
def unescapeFrom (skip : Nat) : List Char → List Char
  | [] => []
  | c :: cs =>
    match skip with
    | skip + 1 => unescapeFrom skip cs
    | 0 =>
      if c = '\\' then
        let (value, length) := escape cs
        value ++ unescapeFrom length cs
      else c :: unescapeFrom 0 cs

/-- The contents of a literal with the escapes replaced. -/
def unescape (cs : List Char) : List Char := unescapeFrom 0 cs

/-- What stands between two copies of `quote` at the two ends of a text. -/
def between (quote cs : List Char) : Option (List Char) :=
  if quote.isPrefixOf cs && quote.isSuffixOf (cs.drop quote.length) then
    some ((cs.drop quote.length).take (cs.length - 2 * quote.length))
  else none

/-- The triple quote of a text block. -/
def tripleQuote : List Char := ['"', '"', '"']

/-- The source characters of a literal's value: behind the first line feed of a text block, or
between the quotes; a text without quotes is taken as it is. -/
def contents (cs : List Char) : List Char :=
  match between tripleQuote cs with
  | some block => ((cutFirst (· == '\n') block).map Prod.snd).getD block
  | none => (between ['"'] cs).getD cs

/-- The string that a literal denotes. -/
def value (text : String) : String := String.ofList (unescape (contents (trimChars text.toList)))

/-- Where the contents of a literal stand, without its quotes. -/
def contentSpan (span : Span) (text : String) : Span :=
  let quote := if tripleQuote.isPrefixOf text.toList then 3 else 1
  let start := min (span.start + quote) span.stop
  ⟨start, max (span.stop - quote) start⟩

theorem unescapeFrom_eq_drop (skip : Nat) (cs : List Char) :
    unescapeFrom skip cs = unescape (cs.drop skip) := by
  induction cs generalizing skip with
  | nil => simp [unescape, unescapeFrom]
  | cons c cs ih =>
    cases skip with
    | zero => rfl
    | succ skip => simp only [unescapeFrom, List.drop_succ_cons, ih]

theorem unescape_nil : unescape [] = [] := rfl

theorem unescape_cons {c : Char} (h : c ≠ '\\') (cs : List Char) :
    unescape (c :: cs) = c :: unescape cs := by
  simp [unescape, unescapeFrom, h]

theorem unescape_backslash (cs : List Char) :
    unescape ('\\' :: cs) = (escape cs).1 ++ unescape (cs.drop (escape cs).2) := by
  rw [← unescapeFrom_eq_drop]
  simp only [unescape, unescapeFrom, if_true]

/-- The content span lies inside the literal. -/
theorem contentSpan_within {span : Span} {text : String} (h : span.start ≤ span.stop) :
    span.start ≤ (contentSpan span text).start ∧
      (contentSpan span text).start ≤ (contentSpan span text).stop ∧
      (contentSpan span text).stop ≤ span.stop := by
  simp only [contentSpan]
  split <;> omega

end InjectionPoints.Java.StringLiteral
