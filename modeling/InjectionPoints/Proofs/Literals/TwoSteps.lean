/-
The two steps in which Java reads a one-line literal. First each Unicode escape is replaced by its
UTF-16 code unit (`Translates`): a backslash begins one if an even number of backslashes stand in
front of it, and the units of two escapes that follow each other may make one character. Then the
escapes of the text that comes out are processed (`Processed`), which has no Unicode escapes any more.

The lemmas read a translation from the side of the source or from the side of the result.
-/
import InjectionPoints.Proofs.Literals.Spelling

namespace InjectionPoints.Java.StringLiteral

/-! ## The steps -/

/-- A Unicode escape, written with one `u` or more, and its UTF-16 code unit. -/
def UnicodeEscape (src : List Char) (unit : Nat) : Prop :=
  ∃ us hex, src = '\\' :: 'u' :: (List.replicate us 'u' ++ hex) ∧ hex.length = 4 ∧
    Numeral 16 hex unit

/-- The high and the low surrogate of a character. -/
structure SurrogatePair (high low : Nat) (c : Char) : Prop where
  high_range : 0xD800 ≤ high ∧ high < 0xDC00
  low_range : 0xDC00 ≤ low ∧ low < 0xE000
  value : c.toNat = 0x10000 + 0x400 * (high - 0xD800) + (low - 0xDC00)

/-- The first step: replacing the Unicode escapes of a text gives the other text. The flag says
whether an odd number of backslashes stand directly in front. Half of a surrogate pair without the
other half is no character, and a text that has one is not translated to any text. -/
inductive Translates : Bool → List Char → List Char → Prop where
  | nil {odd : Bool} : Translates odd [] []
  | escape {c : Char} {src text t : List Char} : UnicodeEscape src c.toNat →
      Translates false text t → Translates false (src ++ text) (c :: t)
  | pair {high low : Nat} {c : Char} {first second text t : List Char} :
      UnicodeEscape first high → UnicodeEscape second low → SurrogatePair high low c →
      Translates false text t → Translates false (first ++ (second ++ text)) (c :: t)
  | backslash {odd : Bool} {text t : List Char} : (odd = false → text.head? ≠ some 'u') →
      Translates (!odd) text t → Translates odd ('\\' :: text) ('\\' :: t)
  | plain {odd : Bool} {c : Char} {text t : List Char} : c ≠ '\\' →
      Translates false text t → Translates odd (c :: text) (c :: t)

/-- The second step: processing the escapes of a text gives the other text. On one line quotes and
line ends have to be escaped, and behind a backslash there has to be an escape. -/
inductive Processed : List Char → List Char → Prop where
  | nil : Processed [] []
  | plain {c : Char} {t s : List Char} : c ≠ '"' → c ≠ '\\' → c ≠ '\n' → c ≠ '\r' →
      Processed t s → Processed (c :: t) (c :: s)
  | letter {l c : Char} {t s : List Char} : (l, c) ∈ letterEscapes → Processed t s →
      Processed ('\\' :: l :: t) (c :: s)
  | octal {first c : Char} {more t s : List Char} : Numeral 8 (first :: more) c.toNat →
      more.length ≤ furtherDigits first →
      (more.length < furtherDigits first → ∀ e ∈ t.head?, ∀ d, ¬ IsDigit 8 e d) →
      Processed t s → Processed ('\\' :: first :: (more ++ t)) (c :: s)

/-- What Java reads between the quotes of a one-line literal. -/
def Means (text s : List Char) : Prop := ∃ t, Translates false text t ∧ Processed t s

theorem Processed.spells {t s : List Char} (h : Processed t s) : Spells t s := by
  induction h with
  | nil => exact .nil
  | plain hq hb hl _ _ ih => exact .plain hq hb hl ih
  | letter hl _ ih => exact .letter hl ih
  | octal hn hlen hnext _ ih => exact .octal hn hlen hnext ih

theorem Processed.of_plains {cs t s : List Char} (h : Processed (cs ++ t) s)
    (hcs : ∀ c ∈ cs, c ≠ '\\') : ∃ s', s = cs ++ s' ∧ Processed t s' := by
  induction cs generalizing s with
  | nil => exact ⟨s, rfl, h⟩
  | cons c cs ih =>
    obtain ⟨hc, hcs⟩ := List.forall_mem_cons.1 hcs
    generalize htail : cs ++ t = tail at ih
    rw [List.cons_append, htail] at h
    cases h with
    | plain _ _ _ _ h =>
      obtain ⟨s', rfl, hs⟩ := ih h hcs
      exact ⟨s', rfl, hs⟩
    | letter | octal => exact absurd rfl hc

/-! ## Unicode escapes -/

namespace UnicodeEscape

variable {src text : List Char} {unit : Nat}

theorem exists_tail (h : UnicodeEscape src unit) : ∃ tail, src = '\\' :: 'u' :: tail := by
  obtain ⟨us, hex, rfl, -, -⟩ := h
  exact ⟨_, rfl⟩

theorem append_ne (h : UnicodeEscape src unit) {c : Char} (hc : c ≠ '\\') (cs : List Char) :
    src ++ text ≠ c :: cs := by
  obtain ⟨tail, rfl⟩ := h.exists_tail
  intro he
  exact hc (List.cons.inj he).1.symm

/-- The first escape of a text is one escape. -/
theorem append_inj {src' text' : List Char} {unit' : Nat} (h : UnicodeEscape src unit)
    (h' : UnicodeEscape src' unit') (he : src ++ text = src' ++ text') :
    unit = unit' ∧ text = text' := by
  obtain ⟨us, hex, rfl, hfour, hn⟩ := h
  obtain ⟨us', hex', rfl, hfour', hn'⟩ := h'
  simp only [List.cons_append, List.cons.injEq, true_and, List.append_assoc] at he
  have hus : List.replicate us 'u' = List.replicate us' 'u' := by
    rw [← takeWhile_replicate_u us text hfour hn, he, takeWhile_replicate_u us' text' hfour' hn']
  rw [hus, List.append_cancel_left_eq] at he
  obtain ⟨rfl, rfl⟩ := List.append_inj he (hfour.trans hfour'.symm)
  have hsame := hexNumber?_of_numeral hfour hn
  rw [hexNumber?_of_numeral hfour hn', Option.some.injEq] at hsame
  exact ⟨hsame.symm, rfl⟩

/-- The pass reads a Unicode escape of a character as the character. -/
theorem unescape_char {c : Char} (h : UnicodeEscape src c.toNat) (text : List Char) :
    unescape (src ++ text) = c :: unescape text := by
  obtain ⟨us, hex, rfl, hfour, hn⟩ := h
  rw [List.cons_append, List.cons_append, List.append_assoc, unescape_unicode us text hfour hn,
    charOf?_toNat]
  rfl

/-- The pass leaves an escape of half a character as it is, but for the number of its `u`s. -/
theorem unescape_half (h : UnicodeEscape src unit) (hunit : 0xD800 ≤ unit ∧ unit < 0xE000)
    (text : List Char) :
    ∃ tail, tail ≠ [] ∧ unescape (src ++ text) = '\\' :: (tail ++ unescape text) := by
  obtain ⟨us, hex, rfl, hfour, hn⟩ := h
  have hnone : charOf? unit = none := by
    rw [charOf?, if_neg]
    simp only [Nat.isValidChar]
    omega
  refine ⟨'u' :: hex, by simp, ?_⟩
  rw [List.cons_append, List.cons_append, List.append_assoc, unescape_unicode us text hfour hn,
    hnone]
  rfl

end UnicodeEscape

theorem not_surrogate_toNat (c : Char) : ¬ (0xD800 ≤ c.toNat ∧ c.toNat < 0xE000) := by
  have hvalid : c.toNat.isValidChar := c.valid
  simp only [Nat.isValidChar] at hvalid
  omega

/-! ## From the source to the result -/

namespace Translates

variable {odd : Bool} {c : Char} {text t : List Char}

theorem of_nil (h : Translates odd [] t) : t = [] := by
  generalize hx : ([] : List Char) = x at h
  cases h with
  | nil => rfl
  | escape hu | pair hu =>
    obtain ⟨tail, rfl⟩ := hu.exists_tail
    simp at hx
  | backslash | plain => simp at hx

/-- A character other than a backslash is kept. -/
theorem of_plain (h : Translates odd (c :: text) t) (hc : c ≠ '\\') :
    ∃ t', t = c :: t' ∧ Translates false text t' := by
  generalize hx : c :: text = x at h
  cases h with
  | nil => simp at hx
  | escape hu | pair hu => exact absurd hx.symm (hu.append_ne hc _)
  | backslash => exact absurd (List.cons.inj hx).1 hc
  | plain _ ht =>
    obtain ⟨rfl, rfl⟩ := List.cons.inj hx
    exact ⟨_, rfl, ht⟩

/-- A backslash that begins no Unicode escape is kept. -/
theorem of_backslash (h : Translates odd ('\\' :: text) t)
    (hu : odd = false → text.head? ≠ some 'u') :
    ∃ t', t = '\\' :: t' ∧ Translates (!odd) text t' := by
  generalize hx : '\\' :: text = x at h
  cases h with
  | nil => simp at hx
  | escape he | pair he =>
    obtain ⟨tail, rfl⟩ := he.exists_tail
    obtain rfl := (List.cons.inj hx).2
    exact absurd rfl (hu rfl)
  | backslash _ ht =>
    obtain rfl := (List.cons.inj hx).2
    exact ⟨_, rfl, ht⟩
  | plain hc => exact absurd (List.cons.inj hx).1.symm hc

/-- A Unicode escape of a character is replaced by it. -/
theorem of_escape {src : List Char} (h : Translates false (src ++ text) t)
    (he : UnicodeEscape src c.toNat) : ∃ t', t = c :: t' ∧ Translates false text t' := by
  obtain ⟨tail, hsrc⟩ := he.exists_tail
  generalize hx : src ++ text = x at h
  cases h with
  | nil => simp [hsrc] at hx
  | escape he' ht =>
    obtain ⟨hc, rfl⟩ := he.append_inj he' hx
    obtain rfl := Char.toNat_inj.1 hc
    exact ⟨_, rfl, ht⟩
  | pair he' _ hp =>
    have hc := (he.append_inj he' hx).1
    have hhigh := hp.high_range
    exact absurd ⟨by omega, by omega⟩ (not_surrogate_toNat c)
  | backslash hu =>
    subst hsrc
    obtain rfl := (List.cons.inj hx).2
    exact absurd rfl (hu rfl)
  | plain hc => exact absurd hx (he.append_ne hc _)

end Translates

/-! ## From the result to the source -/

/-- A character other than a backslash as it stands in a source: as itself, or by an escape. -/
inductive Written : List Char → Char → Prop where
  | plain {c : Char} : c ≠ '\\' → Written [c] c
  | escape {c : Char} {src : List Char} : c ≠ '\\' → UnicodeEscape src c.toNat → Written src c

theorem Written.ne {c : Char} {src : List Char} (h : Written src c) : c ≠ '\\' := by
  cases h <;> assumption

theorem Written.unescape_append {c : Char} {src : List Char} (h : Written src c)
    (text : List Char) : unescape (src ++ text) = c :: unescape text := by
  cases h with
  | plain hc => exact unescape_cons hc text
  | escape _ he => exact he.unescape_char text

namespace Translates

variable {odd : Bool} {c : Char} {text t : List Char}

theorem of_written {src : List Char} (h : Translates false (src ++ text) t) (hw : Written src c) :
    ∃ t', t = c :: t' ∧ Translates false text t' := by
  cases hw with
  | plain hc => exact h.of_plain hc
  | escape _ he => exact h.of_escape he

/-- What a character other than a backslash comes from: itself, an escape, or two that the pass takes
for something longer. -/
theorem cases_char (h : Translates false text (c :: t)) (hc : c ≠ '\\') :
    (∃ src rest, Written src c ∧ text = src ++ rest ∧ Translates false rest t) ∨
      0x10000 ≤ c.toNat ∧ ∃ tail rest, tail ≠ [] ∧ Translates false rest t ∧
        unescape text = '\\' :: (tail ++ unescape rest) := by
  cases h with
  | escape he ht => exact .inl ⟨_, _, .escape hc he, rfl, ht⟩
  | @pair high low _ first second rest _ hfirst hsecond hp ht =>
    have hhigh := hp.high_range
    have hlow := hp.low_range
    obtain ⟨tail, -, htail⟩ := hfirst.unescape_half ⟨by omega, by omega⟩ (second ++ rest)
    obtain ⟨tail', -, htail'⟩ := hsecond.unescape_half ⟨by omega, by omega⟩ rest
    refine .inr ⟨by rw [hp.value]; omega, tail ++ '\\' :: tail', rest, by simp, ht, ?_⟩
    rw [htail, htail', List.append_assoc, List.cons_append]
  | backslash => exact absurd rfl hc
  | plain hc ht => exact .inl ⟨[c], _, .plain hc, rfl, ht⟩

/-- A character of ASCII comes from itself or from an escape. -/
theorem exists_written (h : Translates false text (c :: t)) (hc : c ≠ '\\') (hlow : c.toNat < 128) :
    ∃ src rest, Written src c ∧ text = src ++ rest ∧ Translates false rest t := by
  rcases h.cases_char hc with hw | ⟨hhigh, -⟩
  · exact hw
  · omega

/-- Behind an odd number of backslashes a character comes from itself. -/
theorem exists_plain (h : Translates true text (c :: t)) :
    ∃ rest, text = c :: rest ∧ Translates false rest t := by
  cases h with
  | backslash _ ht | plain _ ht => exact ⟨_, rfl, ht⟩

theorem eq_nil (h : Translates odd text []) : text = [] := by
  cases h
  rfl

end Translates

end InjectionPoints.Java.StringLiteral
