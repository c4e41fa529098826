/-
One pass over a literal beside the two steps of Java. `SideBySide` goes through a text and has what
Java reads next to what the pass reads. Where the readings part, the one that has read less does not
catch up (`SideBySide.ne_of_ahead`, `SideBySide.ne_of_behind`), so the pass reads a literal as Java
does exactly if there is no such place in it (`value_of_means_iff`).
-/
import InjectionPoints.Proofs.Literals.ReadAlike

namespace InjectionPoints.Java.StringLiteral

/-! ## Both readings of a text -/

/-- What Java reads in a text and what the pass reads in it, behind a backslash that only the pass has
still to read if the flag is set. They part in the last three ways: where such a backslash is left at
the end, where it makes an escape of digits, and where the pass reads something else than the one
character of Java. -/
inductive SideBySide : Bool → List Char → List Char → List Char → Prop where
  | nil : SideBySide false [] [] []
  | char {c : Char} {src text s out : List Char} : Written src c → SideBySide false text s out →
      SideBySide false (src ++ text) (c :: s) (c :: out)
  | escape {c : Char} {src text s out : List Char} : PlainEscape src c text →
      SideBySide false text s out → SideBySide false ('\\' :: (src ++ text)) (c :: s) (c :: out)
  | backslash {odd : Bool} {src text s out : List Char} : LoneBackslash odd src →
      SideBySide true text s out →
      SideBySide odd (src ++ '\\' :: text) ('\\' :: s) ('\\' :: out)
  | ordinary {z : Char} {text s out : List Char} : NeedsNoEscape z → SideBySide false text s out →
      SideBySide true (z :: text) (z :: s) (z :: out)
  | cut : SideBySide true [] [] ['\\']
  | digits {e : Char} {zs text text' s out : List Char} : zs ≠ [] → zs ≠ [e] →
      (∀ z ∈ zs, ∃ d, IsDigit 8 z d) → SideBySide false text' s out →
      SideBySide true text (zs ++ s) (e :: out)
  -- no digit comes first, with which a pass that is behind could catch up
  | differs {odd : Bool} {c : Char} {read text text' s out : List Char} : read ≠ [] → read ≠ [c] →
      (odd = false → ∀ e ∈ read.head?, ∀ d, ¬ IsDigit 8 e d) → SideBySide false text' s out →
      SideBySide odd text (c :: s) (read ++ out)

theorem exists_of_cons_eq {c : Char} {front s rest : List Char} (hf : front ≠ [])
    (h : c :: s = front ++ rest) : ∃ front', s = front' ++ rest := by
  cases front with
  | nil => exact absurd rfl hf
  | cons f fs => exact ⟨fs, (List.cons.inj h).2⟩

namespace SideBySide

variable {odd : Bool} {text s out : List Char}

/-- A pass that is ahead of Java stays ahead. Where it has still to read a backslash, the last that
both have read is one, and so is the last of what it is ahead by. -/
theorem ne_of_ahead (h : SideBySide odd text s out) {front : List Char} (hf : front ≠ [])
    (hlast : odd = true → front.getLast? = some '\\') : s ≠ front ++ out := by
  intro he
  induction h generalizing front with
  | nil | cut => simp [hf] at he
  | @char c _ _ _ _ _ _ ih | @escape c _ _ _ _ _ _ ih | @ordinary c _ _ _ _ _ ih =>
    obtain ⟨front', rfl⟩ := exists_of_cons_eq hf he
    exact ih (by simp) (by simp) (List.append_cons front' c _)
  | backslash _ _ ih =>
    obtain ⟨front', rfl⟩ := exists_of_cons_eq hf he
    exact ih (by simp) (by simp) (List.append_cons front' '\\' _)
  | digits _ _ hdigits _ ih =>
    rcases List.append_eq_append_iff.1 he with ⟨front', rfl, rfl⟩ | ⟨rest, rfl, -⟩
    · exact ih (by simp) (by simp) (List.append_cons front' _ _)
    · -- the digits would hold the backslash
      have hmem := List.mem_of_getLast? (hlast rfl)
      obtain ⟨d, hd⟩ := hdigits _ (List.mem_append_left rest hmem)
      exact not_isDigit_backslash d hd
  | @differs _ _ read _ _ _ out hne _ _ _ ih =>
    obtain ⟨front', rfl⟩ := exists_of_cons_eq hf he
    exact ih (by simp [hne]) (by simp) (List.append_assoc front' read out).symm

/-- A pass that is behind by digits does not catch up. -/
theorem ne_of_behind (h : SideBySide odd text s out) (hodd : odd = false) {front : List Char}
    (hf : front ≠ []) (hdigits : ∀ z ∈ front, ∃ d, IsDigit 8 z d) : front ++ s ≠ out := by
  intro he
  induction h generalizing front with
  | nil => simp [hf] at he
  | cut | ordinary | digits => simp at hodd
  | @char c _ _ _ _ _ _ ih | @escape c _ _ _ _ _ _ ih =>
    obtain ⟨z, front, rfl⟩ := List.exists_cons_of_ne_nil hf
    obtain ⟨rfl, he⟩ := List.cons.inj he
    obtain ⟨hz, hfront⟩ := List.forall_mem_cons.1 hdigits
    have hsnoc : ∀ y ∈ front ++ [z], ∃ d, IsDigit 8 y d :=
      List.forall_mem_append.2 ⟨hfront, List.forall_mem_singleton.2 hz⟩
    exact ih rfl (by simp) hsnoc (he ▸ (List.append_cons front z _).symm)
  | backslash =>
    obtain ⟨z, front, rfl⟩ := List.exists_cons_of_ne_nil hf
    obtain ⟨d, hd⟩ := hdigits z (by simp)
    exact ne_backslash_of_isDigit hd (List.cons.inj he).1
  | differs hne _ hnot =>
    obtain ⟨z, front, rfl⟩ := List.exists_cons_of_ne_nil hf
    obtain ⟨e, read, rfl⟩ := List.exists_cons_of_ne_nil hne
    obtain ⟨d, hd⟩ := hdigits z (by simp)
    obtain rfl := (List.cons.inj he).1
    exact hnot hodd z rfl d hd

/-- Once the readings part they stay different. -/
theorem readAlike (h : SideBySide odd text s out) (he : s = out) : ReadAlike odd text := by
  induction h with
  | nil => exact .nil
  | cut => simp at he
  | char hw _ ih => exact .char hw (ih (List.cons.inj he).2)
  | escape hc _ ih => exact .escape hc (ih (List.cons.inj he).2)
  | backslash hl _ ih => exact .backslash hl (ih (List.cons.inj he).2)
  | ordinary hz _ ih => exact .ordinary hz (ih (List.cons.inj he).2)
  | @digits e zs _ _ _ _ hne hmore hdigits hs =>
    obtain ⟨z, zs, rfl⟩ := List.exists_cons_of_ne_nil hne
    obtain ⟨rfl, htail⟩ := List.cons.inj he
    have hzs : zs ≠ [] := fun hzs => hmore (congrArg (z :: ·) hzs)
    exact absurd htail (hs.ne_of_behind rfl hzs (List.forall_mem_cons.1 hdigits).2)
  | @differs _ c read _ _ _ _ hne hmore _ hs =>
    obtain ⟨r, read, rfl⟩ := List.exists_cons_of_ne_nil hne
    obtain ⟨rfl, htail⟩ := List.cons.inj he
    have hread : read ≠ [] := fun hread => hmore (congrArg (c :: ·) hread)
    exact absurd htail (hs.ne_of_ahead hread (by simp))

end SideBySide

/-! ## Octal digits -/

/-- The octal digits in front of a text, up to a number of them. -/
theorem exists_octalDigits (k : Nat) (text : List Char) :
    ∃ more ds rest, text = more ++ rest ∧ List.Forall₂ (IsDigit 8) more ds ∧ more.length ≤ k ∧
      (more.length < k → ∀ e ∈ rest.head?, ∀ d, ¬ IsDigit 8 e d) := by
  induction k generalizing text with
  | zero => exact ⟨[], [], text, rfl, .nil, Nat.le_refl 0, by simp⟩
  | succ k ih =>
    by_cases hfirst : ∃ e ∈ text.head?, ∃ d, IsDigit 8 e d
    · obtain ⟨e, he, d, hd⟩ := hfirst
      obtain ⟨rest, rfl⟩ := List.head?_eq_some_iff.1 he
      obtain ⟨more, ds, rest, rfl, hds, hlen, hnext⟩ := ih rest
      exact ⟨e :: more, d :: ds, rest, rfl, .cons hd hds, Nat.succ_le_succ hlen,
        fun hlt => hnext (Nat.lt_of_succ_lt_succ hlt)⟩
    · exact ⟨[], [], text, rfl, .nil, Nat.zero_le _, fun _ e he d hd => hfirst ⟨e, he, d, hd⟩⟩

/-- Octal digits of an escape stand for a character, and for none that is a digit if the escape could
have more of them. -/
theorem exists_char_of_octalDigits {first : Char} {more : List Char} {d : Nat} {ds : List Nat}
    (hd : IsDigit 8 first d) (hds : List.Forall₂ (IsDigit 8) more ds)
    (hlen : more.length ≤ furtherDigits first) :
    ∃ e : Char, Numeral 8 (first :: more) e.toNat ∧
      (more.length < furtherDigits first → e.toNat < 48) := by
  have hvalue : Nat.ofDigits 8 (d :: ds).reverse < 512 ∧
      (more.length < furtherDigits first → Nat.ofDigits 8 (d :: ds).reverse < 48) := by
    have hk : furtherDigits first ≤ 2 ∧ (2 ≤ furtherDigits first → d ≤ 3) := by
      rw [furtherDigits_of_isDigit hd]
      split <;> omega
    have hfirst := hd.lt
    rw [ofDigits_reverse]
    rcases hds with _ | ⟨hd₁, _ | ⟨hd₂, _ | _⟩⟩
    · simp
      omega
    · have hsecond := hd₁.lt
      simp
      omega
    · have hsecond := hd₁.lt
      have hthird := hd₂.lt
      simp at hlen ⊢
      omega
    · simp at hlen
      omega
  have hchar : (Char.ofNat (Nat.ofDigits 8 (d :: ds).reverse)).toNat =
      Nat.ofDigits 8 (d :: ds).reverse := by
    rw [Char.ofNat, dif_pos (.inl (by omega))]
    rfl
  refine ⟨Char.ofNat _, ⟨d :: ds, .cons hd hds, hchar⟩, ?_⟩
  rw [hchar]
  exact hvalue.2

/-! ## Where a text comes from -/

namespace Translates

variable {odd : Bool} {text t : List Char}

/-- A backslash comes from one that begins an escape in both readings, or from one that the pass takes
as it is. -/
theorem cases_backslash (h : Translates odd text ('\\' :: t)) :
    (odd = false ∧ ∃ rest, text = '\\' :: rest ∧ rest.head? ≠ some 'u' ∧ Translates true rest t) ∨
      ∃ src rest, LoneBackslash odd src ∧ text = src ++ rest ∧ Translates false rest t := by
  cases h with
  | escape he ht => exact .inr ⟨_, _, .escaped he, rfl, ht⟩
  | pair _ _ hp =>
    have hvalue := hp.value
    simp at hvalue
    omega
  | backslash hu ht =>
    cases odd with
    | false => exact .inl ⟨rfl, _, rfl, hu rfl, ht⟩
    | true => exact .inr ⟨_, _, .plain, rfl, ht⟩
  | plain hc => exact absurd rfl hc

/-- Characters of ASCII other than backslashes come from what the pass takes for them. -/
theorem exists_ascii {cs : List Char} (h : Translates false text (cs ++ t))
    (hcs : ∀ c ∈ cs, c ≠ '\\' ∧ c.toNat < 128) :
    ∃ rest, Translates false rest t ∧ unescape text = cs ++ unescape rest := by
  induction cs generalizing text with
  | nil => exact ⟨text, h, rfl⟩
  | cons c cs ih =>
    obtain ⟨hc, hcs⟩ := List.forall_mem_cons.1 hcs
    obtain ⟨src, rest, hw, rfl, hrest⟩ := h.exists_written hc.1 hc.2
    obtain ⟨rest', ht, hread⟩ := ih hrest hcs
    exact ⟨rest', ht, by rw [hw.unescape_append, hread, List.cons_append]⟩

/-- Digits come from themselves, or one of them is the first that comes from a Unicode escape. -/
theorem cases_digits {more : List Char} (h : Translates false text (more ++ t))
    (hmore : ∀ c ∈ more, c ≠ '\\' ∧ c.toNat < 128) :
    (∃ rest, text = more ++ rest ∧ Translates false rest t) ∨
      ∃ front e behind src rest, more = front ++ e :: behind ∧ UnicodeEscape src e.toNat ∧
        text = front ++ (src ++ rest) ∧ Translates false rest (behind ++ t) := by
  induction more generalizing text with
  | nil => exact .inl ⟨text, rfl, h⟩
  | cons c more ih =>
    obtain ⟨hc, hmore⟩ := List.forall_mem_cons.1 hmore
    obtain ⟨src, rest, hw, rfl, hrest⟩ := h.exists_written hc.1 hc.2
    cases hw with
    | escape _ he => exact .inr ⟨[], c, more, src, rest, rfl, he, rfl, hrest⟩
    | plain =>
      rcases ih hrest hmore with ⟨rest', rfl, h'⟩ | ⟨front, e, behind, src, rest', rfl, he, rfl, h'⟩
      · exact .inl ⟨rest', rfl, h'⟩
      · exact .inr ⟨c :: front, e, behind, src, rest', rfl, he, rfl, h'⟩

end Translates

/-! ## Going through a text -/

/-- Every text that is translated to `t`, of which Java makes `s`, is gone through to its end, be it
behind a backslash that the pass has still to read. -/
def Compared (t s : List Char) : Prop :=
  ∀ odd text, Translates odd text t → (odd = true → text.head? ≠ some 'u') →
    SideBySide odd text s (unescape (pending odd ++ text))

theorem compared_nil : Compared [] [] := by
  intro odd text h _
  rw [h.eq_nil]
  cases odd with
  | false => exact .nil
  | true => exact .cut

theorem sideBySide_char {c : Char} {text t s : List Char} (hc : c ≠ '\\')
    (h : Translates false text (c :: t)) (ih : Compared t s) :
    SideBySide false text (c :: s) (unescape text) := by
  rcases h.cases_char hc with ⟨src, rest, hw, rfl, ht⟩ | ⟨-, tail, rest, htail, ht, hread⟩
  · rw [hw.unescape_append]
    exact .char hw (ih false rest ht (by simp))
  · rw [hread, ← List.cons_append]
    refine .differs (by simp) (by simp [htail]) (fun _ e he d hd => ?_) (ih false rest ht (by simp))
    obtain rfl := Option.some.inj he
    exact not_isDigit_backslash d hd

theorem exists_letterEscape {c : Char} (hb : c ≠ '\\') (hl : c ≠ '\n') (hu : c ≠ 'u')
    (hdigit : ∀ d, ¬ IsDigit 8 c d) (hescape : ¬ NeedsNoEscape c) :
    ∃ e, (c, e) ∈ letterEscapes ∧ e ≠ c := by
  have hmem : c ∈ ['\\', '\n', 'n', 't', 'b', 'r', 'f', 's', 'u'] := by
    by_contra hnot
    exact hescape ⟨hnot, hdigit⟩
  simp only [List.mem_cons, hb, hl, hu, List.not_mem_nil, or_false, false_or] at hmem
  rcases hmem with rfl | rfl | rfl | rfl | rfl | rfl
  · exact ⟨'\n', by simp [letterEscapes], by decide⟩
  · exact ⟨'\t', by simp [letterEscapes], by decide⟩
  · exact ⟨'\x08', by simp [letterEscapes], by decide⟩
  · exact ⟨'\r', by simp [letterEscapes], by decide⟩
  · exact ⟨'\x0c', by simp [letterEscapes], by decide⟩
  · exact ⟨' ', by simp [letterEscapes], by decide⟩

/-- A character behind a backslash that the pass has still to read may begin an escape in the pass. -/
theorem sideBySide_pending {c : Char} {text t s : List Char} (hb : c ≠ '\\') (hl : c ≠ '\n')
    (hu : c ≠ 'u') (h : Translates false text t) (hs : Processed t s)
    (ih : ∀ t' s', t'.length ≤ t.length → Processed t' s' → Compared t' s') :
    SideBySide true (c :: text) (c :: s) (unescape ('\\' :: c :: text)) := by
  by_cases hdigit : ∃ d, IsDigit 8 c d
  · obtain ⟨d, hd⟩ := hdigit
    obtain ⟨more, ds, rest, rfl, hds, hlen, hnext⟩ := exists_octalDigits (furtherDigits c) text
    obtain ⟨e, hn, hshort⟩ := exists_char_of_octalDigits hd hds hlen
    have hdigits := hn.exists_digit
    have hmore : ∀ z ∈ more, z ≠ '\\' := fun z hz =>
      (hdigits z (List.mem_cons_of_mem c hz)).elim fun _ => ne_backslash_of_isDigit
    have hne : c :: more ≠ [e] := by
      intro hone
      obtain ⟨rfl, rfl⟩ := List.cons.inj hone
      have hlow := hshort (by rw [furtherDigits]; split <;> simp)
      have hvalue := toNat_of_isDigit hd
      omega
    obtain ⟨t', rfl, ht'⟩ := h.of_plains hmore
    obtain ⟨s', rfl, hs'⟩ := hs.of_plains hmore
    rw [unescape_octal hn hlen hnext]
    show SideBySide true _ (c :: more ++ s') _
    exact .digits (by simp) hne hdigits (ih t' s' (by simp) hs' false rest ht' (by simp))
  · have hrest := ih t s (Nat.le_refl _) hs false text h (by simp)
    by_cases hplain : NeedsNoEscape c
    · rw [unescape_needsNoEscape hplain]
      exact .ordinary hplain hrest
    · obtain ⟨e, he, hne⟩ := exists_letterEscape hb hl hu (not_exists.1 hdigit) hplain
      rw [unescape_letter he]
      show SideBySide true _ _ ([e] ++ unescape text)
      exact .differs (by simp) (by simpa using hne) (by simp) hrest

/-- An escape of which the pass reads the backslash as it is gives more than one character in it. -/
theorem sideBySide_lone {odd : Bool} {c : Char} {src text rest t s chars : List Char}
    (hl : LoneBackslash odd src) (hchars : chars ≠ []) (h : Translates false rest t)
    (hread : unescape text = chars ++ unescape rest) (ih : Compared t s) :
    SideBySide odd (src ++ text) (c :: s) (unescape (pending odd ++ (src ++ text))) := by
  rw [hl.unescape_append, hread, ← List.cons_append]
  refine .differs (by simp) (by simp [hchars]) (fun _ e he d hd => ?_) (ih false rest h (by simp))
  obtain rfl := Option.some.inj he
  exact not_isDigit_backslash d hd

theorem eq_backslash_of_mem_letterEscapes {c : Char} (h : ('\\', c) ∈ letterEscapes) : c = '\\' := by
  simpa [letterEscapes] using h

theorem ascii_of_mem_letterEscapes {l c : Char} (h : (l, c) ∈ letterEscapes) : l.toNat < 128 := by
  have hall : letterEscapes.all (fun e => e.1.toNat < 128) = true := by decide
  simpa using List.all_eq_true.1 hall (l, c) h

theorem compared_letter {l c : Char} {t s : List Char} (hl : (l, c) ∈ letterEscapes)
    (ih : Compared t s) : Compared ('\\' :: l :: t) (c :: s) := by
  intro odd text h _
  rcases h.cases_backslash with ⟨rfl, rest, rfl, -, h₁⟩ | ⟨src, rest, hlone, rfl, h₁⟩
  · obtain ⟨rest', rfl, h₂⟩ := h₁.exists_plain
    have hplain : PlainEscape [l] c rest' := .letter hl
    show SideBySide false ('\\' :: ([l] ++ rest')) (c :: s) (unescape ('\\' :: ([l] ++ rest')))
    rw [hplain.unescape_append]
    exact .escape hplain (ih false rest' h₂ (by simp))
  · by_cases hb : l = '\\'
    · subst hb
      obtain rfl := eq_backslash_of_mem_letterEscapes hl
      rcases h₁.cases_backslash with ⟨-, rest', rfl, hhead, h₂⟩ | ⟨src', rest', hlone', rfl, h₂⟩
      · rw [hlone.unescape_append]
        exact .backslash hlone (ih true rest' h₂ fun _ => hhead)
      · have hread : unescape (src' ++ rest') = ['\\'] ++ unescape rest' := hlone'.unescape_append rest'
        exact sideBySide_lone hlone (by simp) h₂ hread ih
    · have hletter : ∀ z ∈ [l], z ≠ '\\' ∧ z.toNat < 128 :=
        List.forall_mem_singleton.2 ⟨hb, ascii_of_mem_letterEscapes hl⟩
      obtain ⟨rest', h₂, hread⟩ := Translates.exists_ascii h₁ hletter
      exact sideBySide_lone hlone (by simp) h₂ hread ih

/-- An octal escape of which a Unicode escape writes a digit ends in front of it for the pass. -/
theorem sideBySide_octal {first e c : Char} {front behind src rest t s : List Char} {n : Nat}
    (hn : Numeral 8 (first :: (front ++ e :: behind)) n)
    (hlen : (front ++ e :: behind).length ≤ furtherDigits first) (he : UnicodeEscape src e.toNat)
    (h : Translates false rest (behind ++ t)) (ih : Compared t s) :
    SideBySide false ('\\' :: first :: (front ++ (src ++ rest))) (c :: s)
      (unescape ('\\' :: first :: (front ++ (src ++ rest)))) := by
  have hdigits := hn.exists_digit
  obtain ⟨d, hd⟩ := hdigits first (by simp)
  obtain ⟨_, hall, -⟩ := hn
  cases hall with
  | cons _ hmore =>
    have hfront := List.forall₂_take front.length hmore
    rw [List.take_left] at hfront
    have hshort : front.length < furtherDigits first := by
      simp at hlen
      omega
    obtain ⟨x, hx, hlow⟩ := exists_char_of_octalDigits hd hfront (Nat.le_of_lt hshort)
    have hbehind : ∀ z ∈ behind, z ≠ '\\' ∧ z.toNat < 128 := fun z hz =>
      (hdigits z (by simp [hz])).elim fun _ => ascii_of_isDigit
    obtain ⟨rest', ht, hread⟩ := h.exists_ascii hbehind
    have hhead : ∀ z ∈ (src ++ rest).head?, ∀ d, ¬ IsDigit 8 z d := by
      obtain ⟨tail, rfl⟩ := he.exists_tail
      simpa using not_isDigit_backslash
    rw [unescape_octal hx (Nat.le_of_lt hshort) fun _ => hhead, he.unescape_char, hread]
    show SideBySide false _ _ (x :: e :: behind ++ unescape rest')
    refine .differs (by simp) (by simp) (fun _ z hz d hd => ?_) (ih false rest' ht (by simp))
    obtain rfl := Option.some.inj hz
    have hvalue := toNat_of_isDigit hd
    have hsmall := hlow hshort
    omega

theorem compared_octal {first c : Char} {more t s : List Char}
    (hn : Numeral 8 (first :: more) c.toNat) (hlen : more.length ≤ furtherDigits first)
    (hnext : more.length < furtherDigits first → ∀ e ∈ t.head?, ∀ d, ¬ IsDigit 8 e d)
    (ih : Compared t s) : Compared ('\\' :: first :: (more ++ t)) (c :: s) := by
  intro odd text h _
  have hascii : ∀ z ∈ first :: more, z ≠ '\\' ∧ z.toNat < 128 := fun z hz =>
    (hn.exists_digit z hz).elim fun _ => ascii_of_isDigit
  rcases h.cases_backslash with ⟨rfl, rest, rfl, -, h₁⟩ | ⟨src, rest, hlone, rfl, h₁⟩
  · obtain ⟨rest₁, rfl, h₂⟩ := h₁.exists_plain
    rcases h₂.cases_digits (List.forall_mem_cons.1 hascii).2 with
      ⟨rest₂, rfl, h₃⟩ | ⟨front, e, behind, src, rest₂, rfl, he, rfl, h₃⟩
    · have hplain : PlainEscape (first :: more) c rest₂ := by
        refine .octal hn hlen fun hlt src e rest d hw hrest hd => ?_
        subst hrest
        obtain ⟨t', rfl, -⟩ := h₃.of_written hw
        exact hnext hlt e rfl d hd
      show SideBySide false ('\\' :: (first :: more ++ rest₂)) (c :: s)
        (unescape ('\\' :: (first :: more ++ rest₂)))
      rw [hplain.unescape_append]
      exact .escape hplain (ih false rest₂ h₃ (by simp))
    · exact sideBySide_octal hn hlen he h₃ ih
  · obtain ⟨rest', h₂, hread⟩ := Translates.exists_ascii h₁ hascii
    exact sideBySide_lone hlone (by simp) h₂ hread ih

/-- What Java can process is gone through to its end. The induction is on the length, as behind a
pending backslash the pass takes several digits at once, which Java reads one by one. -/
theorem compared {t s : List Char} (h : Processed t s) : Compared t s := by
  match h with
  | .nil => exact compared_nil
  | .plain (c := c) (t := t) (s := s) hq hb hl hr hs =>
    intro odd text ht hu
    cases odd with
    | false => exact sideBySide_char hb ht (compared hs)
    | true =>
      obtain ⟨rest, rfl, hrest⟩ := ht.exists_plain
      have hcu : c ≠ 'u' := by simpa using hu rfl
      exact sideBySide_pending hb hl hcu hrest hs fun t' s' hle h' => compared h'
  | .letter hl hs => exact compared_letter hl (compared hs)
  | .octal hn hlen hnext hs => exact compared_octal hn hlen hnext (compared hs)
termination_by t.length
decreasing_by all_goals (simp only [List.length_cons, List.length_append]; omega)

/-! ## Literals -/

theorem Means.head_ne {text s : List Char} (h : Means text s) : text.head? ≠ some '"' := by
  intro hq
  obtain ⟨rest, rfl⟩ := List.head?_eq_some_iff.1 hq
  obtain ⟨t, ht, hs⟩ := h
  obtain ⟨t', rfl, -⟩ := ht.of_plain (by decide)
  cases hs with
  | plain hne => exact hne rfl

/-- A one-line literal that has a meaning is no text block. -/
theorem Means.value_eq {text s : List Char} (h : Means text s) :
    value (String.ofList ('"' :: (text ++ ['"']))) = String.ofList (unescape text) := by
  refine value_line fun ⟨m, hm⟩ => ?_
  have hhead := h.head_ne
  cases text with
  | nil => simp [tripleQuote] at hm
  | cons c text =>
    have hc : '"' = c := (List.cons.inj (List.cons.inj hm).2).1
    exact absurd (congrArg some hc.symm) hhead

/-- The value of a one-line literal is what Java reads in it exactly if one pass reads its text as the
two steps do. -/
theorem value_of_means_iff {text s : List Char} (h : Means text s) :
    value (String.ofList ('"' :: (text ++ ['"']))) = String.ofList s ↔ ReadAlike false text := by
  rw [h.value_eq, String.ofList_inj]
  obtain ⟨t, ht, hs⟩ := h
  constructor
  · intro hread
    exact (compared hs false text ht (by simp)).readAlike hread.symm
  · intro halike
    exact (halike.unescape_eq ht).trans (unescape_of_spells hs.spells)

theorem unicodeEscape_of_digits {hex : List Char} {ds : List Nat} (hfour : hex.length = 4)
    (hds : List.Forall₂ (IsDigit 16) hex ds) :
    UnicodeEscape ('\\' :: 'u' :: hex) (Nat.ofDigits 16 ds.reverse) :=
  ⟨0, hex, rfl, hfour, ds, hds, rfl⟩

/-- A Unicode escape of a letter, one of a backslash that is made up for, and an octal escape:
`"\u00e9\u005c\'\101"`. -/
theorem value_of_means_apostrophe :
    let text := ['\\', 'u', '0', '0', 'e', '9'] ++ (['\\', 'u', '0', '0', '5', 'c'] ++
      ['\\', '\x27', '\\', '1', '0', '1'])
    Means text ['é', '\\', '\x27', 'A'] ∧
      value (String.ofList ('"' :: (text ++ ['"']))) = String.ofList ['é', '\\', '\x27', 'A'] := by
  intro text
  have hletter : UnicodeEscape ['\\', 'u', '0', '0', 'e', '9'] 'é'.toNat :=
    @unicodeEscape_of_digits _ [0, 0, 14, 9] rfl (by decide)
  have hbackslash : UnicodeEscape ['\\', 'u', '0', '0', '5', 'c'] '\\'.toNat :=
    @unicodeEscape_of_digits _ [0, 0, 5, 12] rfl (by decide)
  have hoctal : Numeral 8 ['1', '0', '1'] 'A'.toNat :=
    ⟨[1, 0, 1], by decide, rfl⟩
  have hmeans : Means text ['é', '\\', '\x27', 'A'] := by
    refine ⟨['é', '\\', '\\', '\x27', '\\', '1', '0', '1'], ?_, ?_⟩
    · refine .escape hletter (.escape hbackslash (.backslash (by simp) (.plain (by decide) ?_)))
      exact .backslash (by simp) (.plain (by decide) (.plain (by decide) (.plain (by decide) .nil)))
    · have hself : ('\\', '\\') ∈ letterEscapes := by simp [letterEscapes]
      refine .plain (by decide) (by decide) (by decide) (by decide) (.letter hself ?_)
      refine .plain (by decide) (by decide) (by decide) (by decide) ?_
      exact @Processed.octal '1' 'A' ['0', '1'] [] [] hoctal (by decide) (by simp) .nil
  have halike : ReadAlike false text := by
    have hrest : ReadAlike false ('\\' :: (['1', '0', '1'] ++ [])) :=
      .escape (.octal hoctal (by decide) fun hlt => absurd hlt (by decide)) .nil
    have hquote : NeedsNoEscape '\x27' :=
      ⟨by simp, fun d hd => ne_of_octalDigit hd (by decide) rfl⟩
    exact .char (.escape (by decide) hletter)
      (.backslash (.escaped hbackslash) (.ordinary hquote hrest))
  exact ⟨hmeans, (value_of_means_iff hmeans).2 halike⟩

/-- A character behind the basic plane, written as Java has it: `"\uD83D\uDE00"` is no smiley. -/
theorem not_value_of_surrogates :
    let text := ['\\', 'u', 'D', '8', '3', 'D'] ++ (['\\', 'u', 'D', 'E', '0', '0'] ++ [])
    Means text ['😀'] ∧
      value (String.ofList ('"' :: (text ++ ['"']))) ≠ String.ofList ['😀'] := by
  intro text
  have hhigh : UnicodeEscape ['\\', 'u', 'D', '8', '3', 'D'] 0xD83D :=
    @unicodeEscape_of_digits _ [13, 8, 3, 13] rfl (by decide)
  have hlow : UnicodeEscape ['\\', 'u', 'D', 'E', '0', '0'] 0xDE00 :=
    @unicodeEscape_of_digits _ [13, 14, 0, 0] rfl (by decide)
  have hpair : SurrogatePair 0xD83D 0xDE00 '😀' := ⟨by decide, by decide, by decide⟩
  have hmeans : Means text ['😀'] :=
    ⟨['😀'], .pair hhigh hlow hpair .nil, .plain (by decide) (by decide) (by decide) (by decide) .nil⟩
  have hread : unescape text ≠ ['😀'] := by decide
  refine ⟨hmeans, ?_⟩
  rwa [hmeans.value_eq, ne_eq, String.ofList_inj]

end InjectionPoints.Java.StringLiteral
