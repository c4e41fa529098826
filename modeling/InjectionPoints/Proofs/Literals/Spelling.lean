/-
Decoding undoes spelling. A text is spelled inside a one-line literal character by character
(`Spells`): as itself, by an escape of one letter, by octal digits or by a Unicode escape. An escape
with few octal digits is read together with a digit behind it, so none may stand there; nothing else
that follows a character can change how it is read (`unescape_of_spells`).
-/
import Mathlib.Data.Nat.Digits.Defs
import Mathlib.Tactic.IntervalCases
import InjectionPoints.Proofs.Literals.Value

namespace InjectionPoints.Java.StringLiteral

open Text

/-! ## Spellings -/

/-- The escapes of one letter, and what they stand for. -/
def letterEscapes : List (Char × Char) :=
  [('n', '\n'), ('t', '\t'), ('b', '\x08'), ('r', '\r'), ('f', '\x0c'), ('s', ' '), ('"', '"'),
    ('\x27', '\x27'), ('\\', '\\')]

/-- The digit `d` of a base, in either case. -/
structure IsDigit (base : Nat) (c : Char) (d : Nat) : Prop where
  lt : d < base
  written : c = Nat.digitChar d ∨ c = (Nat.digitChar d).toUpper

instance {base : Nat} {c : Char} {d : Nat} : Decidable (IsDigit base c d) :=
  decidable_of_iff (d < base ∧ (c = Nat.digitChar d ∨ c = (Nat.digitChar d).toUpper))
    ⟨fun h => ⟨h.1, h.2⟩, fun h => ⟨h.lt, h.written⟩⟩

/-- The digits of `n`, the highest one first and possibly with zeros in front. -/
def Numeral (base : Nat) (cs : List Char) (n : Nat) : Prop :=
  ∃ ds, List.Forall₂ (IsDigit base) cs ds ∧ n = Nat.ofDigits base ds.reverse

/-- How many octal digits may follow the first one: `\377` is the highest octal escape. -/
def furtherDigits (first : Char) : Nat := if first ≤ '3' then 2 else 1

/-- The first text spells the second one inside a one-line literal. -/
inductive Spells : List Char → List Char → Prop where
  | nil : Spells [] []
  | plain {c : Char} {text s : List Char} : c ≠ '"' → c ≠ '\\' → c ≠ '\n' → Spells text s →
      Spells (c :: text) (c :: s)
  | letter {l c : Char} {text s : List Char} : (l, c) ∈ letterEscapes → Spells text s →
      Spells ('\\' :: l :: text) (c :: s)
  | octal {first c : Char} {more text s : List Char} : Numeral 8 (first :: more) c.toNat →
      more.length ≤ furtherDigits first →
      (more.length < furtherDigits first → ∀ e ∈ text.head?, ∀ d, ¬ IsDigit 8 e d) →
      Spells text s → Spells ('\\' :: first :: (more ++ text)) (c :: s)
  | unicode (us : Nat) {c : Char} {hex text s : List Char} : hex.length = 4 →
      Numeral 16 hex c.toNat → Spells text s →
      Spells ('\\' :: 'u' :: (List.replicate us 'u' ++ (hex ++ text))) (c :: s)

/-- Every text can be spelled. -/
theorem exists_spells (s : List Char) : ∃ text, Spells text s := by
  induction s with
  | nil => exact ⟨[], .nil⟩
  | cons c s ih =>
    obtain ⟨text, h⟩ := ih
    by_cases hq : c = '"'
    · exact ⟨_, .letter (l := '"') (by simp [hq, letterEscapes]) h⟩
    · by_cases hb : c = '\\'
      · exact ⟨_, .letter (l := '\\') (by simp [hb, letterEscapes]) h⟩
      · by_cases hl : c = '\n'
        · exact ⟨_, .letter (l := 'n') (by simp [hl, letterEscapes]) h⟩
        · exact ⟨c :: text, .plain hq hb hl h⟩

/-! ## Digits -/

/-- What holds of all digits of a base in both cases. -/
theorem IsDigit.of_all {base : Nat} {c : Char} {d : Nat} {p : Char → Nat → Prop}
    (h : IsDigit base c d)
    (hall : ∀ d < base, p (Nat.digitChar d) d ∧ p (Nat.digitChar d).toUpper d) : p c d := by
  rcases h.written with rfl | rfl
  · exact (hall d h.lt).1
  · exact (hall d h.lt).2

theorem octalDigit?_of_isDigit {c : Char} {d : Nat} (h : IsDigit 8 c d) : octalDigit? c = some d :=
  h.of_all (p := fun c d => octalDigit? c = some d) (by decide)

theorem hexDigit?_of_isDigit {c : Char} {d : Nat} (h : IsDigit 16 c d) : hexDigit? c = some d :=
  h.of_all (p := fun c d => hexDigit? c = some d) (by decide)

theorem isDigit_of_octalDigit? {c : Char} {d : Nat} (h : octalDigit? c = some d) :
    IsDigit 8 c d := by
  rw [octalDigit?] at h
  split at h
  · next hc =>
    have hlow : 48 ≤ c.toNat := hc.1
    have hhigh : c.toNat ≤ 55 := hc.2
    obtain rfl : c.toNat - 48 = d := by simpa using h
    refine ⟨by omega, .inl (Char.toNat_inj.1 ?_)⟩
    rw [Nat.toNat_digitChar_of_lt_ten (by omega)]
    omega
  · simp at h

/-- A number from its highest digit on. -/
theorem ofDigits_reverse (base : Nat) (ds : List Nat) :
    Nat.ofDigits base ds.reverse = ds.foldl (fun n d => base * n + d) 0 := by
  rw [Nat.ofDigits_eq_foldr, List.foldr_reverse]
  simp only [Nat.cast_id, Nat.add_comm]

theorem hexFrom_of_forall {cs : List Char} {ds : List Nat} (h : List.Forall₂ (IsDigit 16) cs ds)
    (n : Nat) : hexFrom n cs = some (ds.foldl (fun n d => 16 * n + d) n) := by
  induction h generalizing n with
  | nil => rfl
  | cons hd _ ih => rw [hexFrom, hexDigit?_of_isDigit hd, Option.bind_some, ih, List.foldl_cons]

theorem map_octalDigit? {cs : List Char} {ds : List Nat} (h : List.Forall₂ (IsDigit 8) cs ds) :
    cs.map octalDigit? = ds.map some := by
  induction h with
  | nil => rfl
  | cons hd _ ih => rw [List.map_cons, octalDigit?_of_isDigit hd, ih, List.map_cons]

theorem charOf?_toNat (c : Char) : charOf? c.toNat = some c := by
  have hv : c.toNat.isValidChar := c.valid
  rw [charOf?, if_pos hv, Char.ofNat_toNat]

/-! ## Reading one character back -/

theorem escape_letter {l c : Char} (h : (l, c) ∈ letterEscapes) (text : List Char) :
    escape (l :: text) = ([c], 1) := by
  simp only [letterEscapes, List.mem_cons, Prod.mk.injEq, List.not_mem_nil, or_false] at h
  rcases h with ⟨rfl, rfl⟩ | ⟨rfl, rfl⟩ | ⟨rfl, rfl⟩ | ⟨rfl, rfl⟩ | ⟨rfl, rfl⟩ | ⟨rfl, rfl⟩ |
    ⟨rfl, rfl⟩ | ⟨rfl, rfl⟩ | ⟨rfl, rfl⟩ <;> rfl

theorem furtherDigits_of_isDigit {first : Char} {d : Nat} (h : IsDigit 8 first d) :
    furtherDigits first = if d ≤ 3 then 2 else 1 :=
  h.of_all (p := fun first d => furtherDigits first = if d ≤ 3 then 2 else 1) (by decide)

/-- The octal digits that are read are those of the escape: it has as many as it may, or what is
behind it is no digit. -/
theorem takeWhile_octalDigits {more text : List Char} {ds : List Nat} {k : Nat}
    (hds : List.Forall₂ (IsDigit 8) more ds) (hlen : more.length ≤ k)
    (hnext : more.length < k → ∀ e ∈ text.head?, ∀ d, ¬ IsDigit 8 e d) :
    (((more ++ text).take k).map octalDigit?).takeWhile Option.isSome = ds.map some := by
  rw [List.take_append, List.take_of_length_le hlen, List.map_append, map_octalDigit? hds]
  refine takeWhile_append_eq (by simp) fun a ha => ?_
  rw [List.head?_map, List.head?_take] at ha
  split at ha
  · simp at ha
  · next hroom =>
    obtain ⟨e, he, rfl⟩ := Option.map_eq_some_iff.1 ha
    have hnone : octalDigit? e = none := by
      rw [Option.eq_none_iff_forall_ne_some]
      exact fun d hd => hnext (by omega) e he d (isDigit_of_octalDigit? hd)
    rw [hnone]
    rfl

theorem escape_digit {first : Char} {d : Nat} (h : IsDigit 8 first d) (cs : List Char) :
    escape (first :: cs) = octal d cs := by
  obtain ⟨hd, rfl | rfl⟩ := h <;> interval_cases d <;> rfl

theorem escape_octal {first c : Char} {more text : List Char}
    (h : Numeral 8 (first :: more) c.toNat) (hlen : more.length ≤ furtherDigits first)
    (hnext : more.length < furtherDigits first → ∀ e ∈ text.head?, ∀ d, ¬ IsDigit 8 e d) :
    escape (first :: (more ++ text)) = ([c], 1 + more.length) := by
  obtain ⟨_, hdigits, hvalue⟩ := h
  cases hdigits with
  | @cons _ d _ ds hd hds =>
    rw [furtherDigits_of_isDigit hd] at hlen hnext
    have hread : (ds.map some).reduceOption = ds := by
      show (ds.map some).filterMap id = ds
      simp
    have hfold : ds.foldl (fun n d => 8 * n + d) d = c.toNat := by
      rw [hvalue, ofDigits_reverse, List.foldl_cons, Nat.mul_zero, Nat.zero_add]
    rw [escape_digit hd, octal]
    simp only [takeWhile_octalDigits hds hlen hnext, hread, hfold, charOf?_toNat,
      Option.toList_some, List.length_map, hds.length_eq]

theorem ne_of_isDigit {c e : Char} {d : Nat} (h : IsDigit 16 c d) (he : hexDigit? e = none) :
    c ≠ e := by
  rintro rfl
  simp [hexDigit?_of_isDigit h] at he

theorem exists_cons_of_numeral {hex : List Char} {n : Nat} (hfour : hex.length = 4)
    (h : Numeral 16 hex n) : ∃ e es d, hex = e :: es ∧ IsDigit 16 e d := by
  obtain ⟨_, hds, -⟩ := h
  cases hds with
  | nil => simp at hfour
  | cons hd _ => exact ⟨_, _, _, rfl, hd⟩

theorem hexNumber?_of_numeral {hex : List Char} {n : Nat} (hfour : hex.length = 4)
    (h : Numeral 16 hex n) : hexNumber? hex = some n := by
  obtain ⟨e, es, _, rfl, hd⟩ := exists_cons_of_numeral hfour h
  obtain ⟨_, hds, rfl⟩ := h
  have hplus : e ≠ '+' := ne_of_isDigit hd (by decide)
  rw [ofDigits_reverse, ← hexFrom_of_forall hds]
  simp [hexNumber?, hplus]

/-- The `u`s of a Unicode escape end where its digits begin. -/
theorem takeWhile_replicate_u {hex : List Char} {n : Nat} (us : Nat) (text : List Char)
    (hfour : hex.length = 4) (h : Numeral 16 hex n) :
    (List.replicate us 'u' ++ (hex ++ text)).takeWhile (· == 'u') = List.replicate us 'u' := by
  obtain ⟨e, es, _, rfl, hd⟩ := exists_cons_of_numeral hfour h
  refine takeWhile_append_eq (by simp) fun c hc => ?_
  obtain rfl := Option.some.inj hc
  exact beq_false_of_ne (ne_of_isDigit hd (by decide))

/-- A Unicode escape stands for a character, or for itself with one `u`. -/
theorem escape_unicode {hex : List Char} {n : Nat} (us : Nat) (text : List Char)
    (hfour : hex.length = 4) (h : Numeral 16 hex n) :
    escape ('u' :: (List.replicate us 'u' ++ (hex ++ text))) =
      ((charOf? n).elim ('\\' :: 'u' :: hex) fun c => [c], 1 + us + 4) := by
  have htake : ((List.replicate us 'u' ++ (hex ++ text)).drop us).take 4 = hex := by
    rw [List.drop_left' List.length_replicate, List.take_left' hfour]
  simp only [escape, unicode, takeWhile_replicate_u us text hfour h, List.length_replicate, htake,
    hexNumber?_of_numeral hfour h, Option.bind_some, hfour]
  cases charOf? n <;> rfl

theorem unescape_unicode {hex : List Char} {n : Nat} (us : Nat) (text : List Char)
    (hfour : hex.length = 4) (h : Numeral 16 hex n) :
    unescape ('\\' :: 'u' :: (List.replicate us 'u' ++ (hex ++ text))) =
      (charOf? n).elim ('\\' :: 'u' :: hex) (fun c => [c]) ++ unescape text := by
  have hdrop : 1 + us + 4 = us + 4 + 1 := by omega
  rw [unescape_backslash, escape_unicode us text hfour h, hdrop, List.drop_succ_cons,
    ← List.drop_drop, List.drop_left' List.length_replicate, List.drop_left' hfour]

theorem unescape_letter {l c : Char} (h : (l, c) ∈ letterEscapes) (text : List Char) :
    unescape ('\\' :: l :: text) = c :: unescape text := by
  rw [unescape_backslash, escape_letter h, List.drop_one, List.tail_cons]
  rfl

theorem unescape_octal {first c : Char} {more text : List Char}
    (h : Numeral 8 (first :: more) c.toNat) (hlen : more.length ≤ furtherDigits first)
    (hnext : more.length < furtherDigits first → ∀ e ∈ text.head?, ∀ d, ¬ IsDigit 8 e d) :
    unescape ('\\' :: first :: (more ++ text)) = c :: unescape text := by
  rw [unescape_backslash, escape_octal h hlen hnext, Nat.add_comm, List.drop_succ_cons,
    List.drop_left]
  rfl

/-! ## Reading a text back -/

/-- Decoding a spelled text gives the text. -/
theorem unescape_of_spells {text s : List Char} (h : Spells text s) : unescape text = s := by
  induction h with
  | nil => rfl
  | plain _ hb _ _ ih => rw [unescape_cons hb, ih]
  | letter hl _ ih => rw [unescape_letter hl, ih]
  | octal hn hlen hnext _ ih => rw [unescape_octal hn hlen hnext, ih]
  | unicode us hfour hn _ ih =>
    rw [unescape_unicode us _ hfour hn, charOf?_toNat, ih]
    rfl

/-- A spelled text does not begin with a quote, so the quotes around it make no text block. -/
theorem contents_of_spells {text s : List Char} (h : Spells text s) :
    contents ('"' :: (text ++ ['"'])) = text := by
  show contents (['"'] ++ text ++ ['"']) = text
  refine contents_eq_self (.inl rfl) (fun hq => by simp [tripleQuote] at hq) fun _ m hm => ?_
  cases h with
  | nil => simp [tripleQuote] at hm
  | plain hq => simp [tripleQuote, hq] at hm
  | letter | octal | unicode => simp [tripleQuote] at hm

/-- The value of a literal is the text that is spelled in it. -/
theorem value_of_spells {text s : List Char} (h : Spells text s) :
    value (String.ofList ('"' :: (text ++ ['"']))) = String.ofList s := by
  have htrim : trimChars ('"' :: (text ++ ['"'])) = '"' :: (text ++ ['"']) :=
    trimChars_quoted (.inl rfl) text
  rw [value, String.toList_ofList, htrim, contents_of_spells h, unescape_of_spells h]

/-- A long octal escape before a digit, a Unicode escape with two `u`, a short octal escape before
another escape: `"\1017\uu00E9\0\t"`. -/
theorem value_of_spells_mixed :
    let text := ['\\', '1', '0', '1', '7', '\\', 'u', 'u', '0', '0', 'E', '9', '\\', '0', '\\', 't']
    Spells text ['A', '7', 'é', '\x00', '\t'] ∧
      value (String.ofList ('"' :: (text ++ ['"']))) =
        String.ofList ['A', '7', 'é', '\x00', '\t'] := by
  intro text
  have htab : Spells ['\\', 't'] ['\t'] := .letter (by decide) .nil
  have hzero : Spells ('\\' :: '0' :: ([] ++ ['\\', 't'])) ['\x00', '\t'] := by
    refine .octal ⟨[0], .cons ⟨by decide, .inl rfl⟩ .nil, rfl⟩ (by decide)
      (fun _ e he d hd => ?_) htab
    obtain rfl : '\\' = e := by simpa using he
    have hread := octalDigit?_of_isDigit hd
    simp [octalDigit?] at hread
  have hhex : Numeral 16 ['0', '0', 'E', '9'] 'é'.toNat :=
    ⟨[0, 0, 14, 9], .cons ⟨by decide, .inl rfl⟩ (.cons ⟨by decide, .inl rfl⟩
      (.cons ⟨by decide, .inr rfl⟩ (.cons ⟨by decide, .inl rfl⟩ .nil))), rfl⟩
  have hoctal : Numeral 8 ['1', '0', '1'] 'A'.toNat :=
    ⟨[1, 0, 1], .cons ⟨by decide, .inl rfl⟩ (.cons ⟨by decide, .inl rfl⟩
      (.cons ⟨by decide, .inl rfl⟩ .nil)), rfl⟩
  have hall : Spells text ['A', '7', 'é', '\x00', '\t'] :=
    @Spells.octal '1' 'A' ['0', '1'] _ _ hoctal (by decide) (fun h => absurd h (by decide))
      (.plain (by decide) (by decide) (by decide) (.unicode 1 rfl hhex hzero))
  exact ⟨hall, value_of_spells hall⟩

end InjectionPoints.Java.StringLiteral
