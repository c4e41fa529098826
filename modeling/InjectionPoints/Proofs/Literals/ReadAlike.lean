/-
Texts that one pass reads as Java does. The pass takes a Unicode escape for the character with that
code point, and never for a part of another escape. So half of a surrogate pair, a digit behind a
short octal escape and a backslash are read in another way when a Unicode escape writes them.
`ReadAlike` has the texts without such places, but for a backslash that is made up for further on: in
such a text the pass reads what it reads in the translation (`ReadAlike.unescape_eq`).
-/
import InjectionPoints.Proofs.Literals.TwoSteps

namespace InjectionPoints.Java.StringLiteral

/-! ## Texts that are read alike -/

/-- An escape behind its backslash and in front of a text, and what it stands for: one letter, or
octal digits to which the text adds none, be it by a Unicode escape. -/
inductive PlainEscape : List Char → Char → List Char → Prop where
  | letter {l c : Char} {text : List Char} : (l, c) ∈ letterEscapes → PlainEscape [l] c text
  | octal {first c : Char} {more text : List Char} : Numeral 8 (first :: more) c.toNat →
      more.length ≤ furtherDigits first →
      (more.length < furtherDigits first → ∀ src e rest d, Written src e → text = src ++ rest →
        ¬ IsDigit 8 e d) →
      PlainEscape (first :: more) c text

/-- A character in front of which a backslash is dropped. -/
def NeedsNoEscape (z : Char) : Prop :=
  z ∉ ['\\', '\n', 'n', 't', 'b', 'r', 'f', 's', 'u'] ∧ ∀ d, ¬ IsDigit 8 z d

/-- A backslash that is taken as it is, although it begins an escape for Java: a Unicode escape, or,
when an odd number of backslashes stand between that one and here, a backslash. -/
inductive LoneBackslash : Bool → List Char → Prop where
  | escaped {src : List Char} : UnicodeEscape src '\\'.toNat → LoneBackslash false src
  | plain : LoneBackslash true ['\\']

/-- A text that one pass reads as Java does. Behind a backslash written by a Unicode escape the flag
is set while an odd number of backslashes follow: then there have to be more of them, or a character
that needs no escape. -/
inductive ReadAlike : Bool → List Char → Prop where
  | nil : ReadAlike false []
  | char {c : Char} {src text : List Char} : Written src c → ReadAlike false text →
      ReadAlike false (src ++ text)
  | escape {c : Char} {src text : List Char} : PlainEscape src c text → ReadAlike false text →
      ReadAlike false ('\\' :: (src ++ text))
  | backslash {odd : Bool} {src text : List Char} : LoneBackslash odd src → ReadAlike true text →
      ReadAlike odd (src ++ '\\' :: text)
  | ordinary {z : Char} {text : List Char} : NeedsNoEscape z → ReadAlike false text →
      ReadAlike true (z :: text)

/-- The backslash in front of a text that the pass has still to read. -/
def pending : Bool → List Char
  | false => []
  | true => ['\\']

/-! ## What the pass reads -/

theorem toNat_of_isDigit {c : Char} {d : Nat} (h : IsDigit 8 c d) : c.toNat = 48 + d :=
  h.of_all (p := fun c d => c.toNat = 48 + d) (by decide)

theorem ne_of_octalDigit {c e : Char} {d : Nat} (h : IsDigit 8 c d) (he : octalDigit? e = none) :
    c ≠ e := by
  rintro rfl
  simp [octalDigit?_of_isDigit h] at he

theorem ne_backslash_of_isDigit {c : Char} {d : Nat} (h : IsDigit 8 c d) : c ≠ '\\' :=
  ne_of_octalDigit h (by decide)

theorem not_isDigit_backslash (d : Nat) : ¬ IsDigit 8 '\\' d := fun h =>
  ne_backslash_of_isDigit h rfl

theorem ascii_of_isDigit {c : Char} {d : Nat} (h : IsDigit 8 c d) : c ≠ '\\' ∧ c.toNat < 128 := by
  have hvalue := toNat_of_isDigit h
  have hlt := h.lt
  exact ⟨ne_backslash_of_isDigit h, by omega⟩

theorem Numeral.exists_digit {base n : Nat} {cs : List Char} (h : Numeral base cs n) :
    ∀ c ∈ cs, ∃ d, IsDigit base c d := by
  obtain ⟨ds, hds, -⟩ := h
  clear n
  induction hds with
  | nil => simp
  | cons hd _ ih => exact List.forall_mem_cons.2 ⟨⟨_, hd⟩, ih⟩

theorem unescape_needsNoEscape {z : Char} (h : NeedsNoEscape z) (text : List Char) :
    unescape ('\\' :: z :: text) = z :: unescape text := by
  have hdigit : octalDigit? z = none := by
    rw [Option.eq_none_iff_forall_ne_some]
    exact fun d hd => h.2 d (isDigit_of_octalDigit? hd)
  have hz : escape (z :: text) = ([z], 1) := by
    have hnot := h.1
    simp only [List.mem_cons, List.not_mem_nil, or_false, not_or] at hnot
    simp [escape, hdigit, hnot]
  rw [unescape_backslash, hz, List.drop_one, List.tail_cons]
  rfl

theorem unescape_backslashes (text : List Char) :
    unescape ('\\' :: '\\' :: text) = '\\' :: unescape text :=
  unescape_letter (by simp [letterEscapes]) text

theorem LoneBackslash.unescape_append {odd : Bool} {src : List Char} (h : LoneBackslash odd src)
    (text : List Char) : unescape (pending odd ++ (src ++ text)) = '\\' :: unescape text := by
  cases h with
  | escaped he => exact he.unescape_char text
  | plain => exact unescape_backslashes text

theorem PlainEscape.unescape_append {c : Char} {src text : List Char} (h : PlainEscape src c text) :
    unescape ('\\' :: (src ++ text)) = c :: unescape text := by
  cases h with
  | letter hl => exact unescape_letter hl text
  | octal hn hlen hnext =>
    refine unescape_octal hn hlen fun hlt e he d hd => ?_
    obtain ⟨rest, rfl⟩ := List.head?_eq_some_iff.1 he
    exact hnext hlt [e] e rest d (.plain (ne_backslash_of_isDigit hd)) rfl hd

/-! ## Reading alike -/

namespace Translates

variable {odd : Bool} {c : Char} {text t : List Char}

theorem of_plains {cs : List Char} (h : Translates false (cs ++ text) t)
    (hcs : ∀ c ∈ cs, c ≠ '\\') : ∃ t', t = cs ++ t' ∧ Translates false text t' := by
  induction cs generalizing t with
  | nil => exact ⟨t, rfl, h⟩
  | cons c cs ih =>
    rw [List.forall_mem_cons] at hcs
    obtain ⟨t₁, rfl, h₁⟩ := h.of_plain hcs.1
    obtain ⟨t₂, rfl, h₂⟩ := ih h₁ hcs.2
    exact ⟨t₂, rfl, h₂⟩

theorem of_lone {src : List Char} (h : Translates odd (src ++ text) t) (hl : LoneBackslash odd src) :
    ∃ t', t = '\\' :: t' ∧ Translates false text t' := by
  cases hl with
  | escaped he => exact h.of_escape he
  | plain => exact h.of_backslash (by simp)

theorem of_plainEscape {src : List Char} (h : Translates false ('\\' :: (src ++ text)) t)
    (he : PlainEscape src c text) :
    ∃ t', t = '\\' :: (src ++ t') ∧ Translates false text t' ∧
      unescape ('\\' :: (src ++ t')) = c :: unescape t' := by
  cases he with
  | @letter l _ _ hl =>
    have hu : l ≠ 'u' := by
      rintro rfl
      simp [letterEscapes] at hl
    obtain ⟨t₁, rfl, h₁⟩ := h.of_backslash fun _ => by simpa using hu
    by_cases hb : l = '\\'
    · subst hb
      obtain ⟨t₂, rfl, h₂⟩ := h₁.of_backslash (by simp)
      exact ⟨t₂, rfl, h₂, unescape_letter hl t₂⟩
    · obtain ⟨t₂, rfl, h₂⟩ := h₁.of_plain hb
      exact ⟨t₂, rfl, h₂, unescape_letter hl t₂⟩
  | @octal first _ more _ hn hlen hnext =>
    have hdigits := List.forall_mem_cons.1 hn.exists_digit
    obtain ⟨d, hd⟩ := hdigits.1
    have hu : first ≠ 'u' := ne_of_octalDigit hd (by decide)
    obtain ⟨t₁, rfl, h₁⟩ := h.of_backslash fun _ => by simpa using hu
    obtain ⟨t₂, rfl, h₂⟩ := h₁.of_plain (ne_backslash_of_isDigit hd)
    obtain ⟨t₃, rfl, h₃⟩ := h₂.of_plains fun c hc =>
      (hdigits.2 c hc).elim fun _ => ne_backslash_of_isDigit
    refine ⟨t₃, rfl, h₃, unescape_octal hn hlen fun hlt e he d hd => ?_⟩
    -- a digit that ends up behind the escape is written behind it in one way or the other
    obtain ⟨t₄, rfl⟩ := List.head?_eq_some_iff.1 he
    obtain ⟨hb, hascii⟩ := ascii_of_isDigit hd
    obtain ⟨src, rest, hw, rfl, -⟩ := h₃.exists_written hb hascii
    exact hnext hlt src e rest d hw rfl hd

end Translates

theorem ReadAlike.head_ne {text : List Char} (h : ReadAlike true text) : text.head? ≠ some 'u' := by
  cases h with
  | backslash hl =>
    cases hl
    simp
  | ordinary hz =>
    intro hu
    obtain rfl := Option.some.inj hu
    exact hz.1 (by simp)

/-- The pass reads the same in a text as in its translation. -/
theorem ReadAlike.unescape_eq {odd : Bool} {text t : List Char} (h : ReadAlike odd text)
    (ht : Translates odd text t) : unescape (pending odd ++ text) = unescape t := by
  induction h generalizing t with
  | nil => rw [ht.of_nil]; rfl
  | char hw _ ih =>
    obtain ⟨t', rfl, ht'⟩ := ht.of_written hw
    rw [unescape_cons hw.ne, ← ih ht']
    exact hw.unescape_append _
  | escape he _ ih =>
    obtain ⟨t', rfl, ht', hread⟩ := ht.of_plainEscape he
    rw [hread, ← ih ht']
    exact he.unescape_append
  | backslash hl hr ih =>
    obtain ⟨t₁, rfl, h₁⟩ := ht.of_lone hl
    obtain ⟨t₂, rfl, h₂⟩ := h₁.of_backslash fun _ => hr.head_ne
    rw [hl.unescape_append, unescape_backslashes, ← ih h₂]
    rfl
  | @ordinary z _ hz _ ih =>
    have hb : z ≠ '\\' := by
      rintro rfl
      exact hz.1 (by simp)
    obtain ⟨t', rfl, ht'⟩ := ht.of_plain hb
    rw [unescape_cons hb, ← ih ht']
    exact unescape_needsNoEscape hz _

end InjectionPoints.Java.StringLiteral
