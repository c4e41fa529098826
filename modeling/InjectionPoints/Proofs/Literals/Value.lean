/-
Which texts a string literal can say by holding them as they are. An escape is longer than what it
stands for, malformed Unicode escapes apart, so replacing the escapes leaves a text as it is only if
there are none (`unescape_eq_self_iff`). Between quotes such a text is the value, unless quotes or a
line feed in it move the place where the contents begin (`value_quoted_iff`).
-/
import InjectionPoints.Proofs.Literals.Quotes
import InjectionPoints.Proofs.SelectorLiteral

namespace InjectionPoints.Java.StringLiteral

open Text

/-! ## Escapes -/

/-- What is behind the `u` of a Unicode escape that stands for itself: no further `u`, and `hex`, the
next four characters or all there are, is no code point. -/
structure Malformed (hex rest : List Char) : Prop where
  first : hex.head? ≠ some 'u'
  four : hex.length = 4 ∨ hex.length < 4 ∧ rest = []
  value : (hexNumber? hex).bind charOf? = none

/-- A text in which every backslash stands for itself. -/
inductive Verbatim : List Char → Prop where
  | nil : Verbatim []
  | plain {c : Char} {cs : List Char} : c ≠ '\\' → Verbatim cs → Verbatim (c :: cs)
  | last : Verbatim ['\\']
  | malformed {hex rest : List Char} :
      Malformed hex rest → Verbatim rest → Verbatim ('\\' :: 'u' :: (hex ++ rest))

theorem verbatim_of_forall {cs : List Char} (h : ∀ c ∈ cs, c ≠ '\\') : Verbatim cs := by
  induction cs with
  | nil => exact .nil
  | cons c cs ih =>
    exact .plain (h c List.mem_cons_self) (ih fun d hd => h d (List.mem_cons_of_mem c hd))

theorem escape_malformed {hex rest : List Char} (h : Malformed hex rest) :
    escape ('u' :: (hex ++ rest)) = ('\\' :: 'u' :: hex, 1 + hex.length) := by
  have hus : (hex ++ rest).takeWhile (· == 'u') = [] := by
    rcases hex with _ | ⟨c, hex⟩
    · rcases h.four with hl | ⟨-, rfl⟩
      · simp at hl
      · rfl
    · have hc : (c == 'u') = false := by simpa using h.first
      rw [List.cons_append, List.takeWhile_cons_of_neg (by simp [hc])]
  have hhex : (hex ++ rest).take 4 = hex := by
    rcases h.four with hl | ⟨hl, rfl⟩
    · rw [← hl, List.take_left]
    · rw [List.append_nil, List.take_of_length_le (Nat.le_of_lt hl)]
  simp [escape, unicode, hus, hhex, h.value]

theorem length_octal (first : Nat) (cs : List Char) :
    (octal first cs).1.length ≤ (octal first cs).2 ∧ (octal first cs).2 ≤ cs.length + 1 := by
  have hone (n : Nat) : (charOf? n).toList.length ≤ 1 := by
    cases charOf? n <;> simp
  rw [octal]
  dsimp only
  generalize (if first ≤ 3 then 2 else 1) = k
  have hmore : (((cs.take k).map octalDigit?).takeWhile Option.isSome).length ≤ cs.length := by
    refine Nat.le_trans (List.takeWhile_prefix _).length_le ?_
    rw [List.length_map]
    exact List.length_take_le' ..
  exact ⟨Nat.le_trans (hone _) (Nat.le_add_right 1 _), by omega⟩

/-- A Unicode escape stands for itself, or it is longer than what it stands for. -/
theorem unicode_cases (cs : List Char) :
    (∃ hex rest, cs = hex ++ rest ∧ Malformed hex rest) ∨
      (unicode cs).1.length ≤ (unicode cs).2 ∧ (unicode cs).2 ≤ cs.length + 1 := by
  have hus := (List.takeWhile_prefix (· == 'u') (l := cs)).length_le
  have hread : (unicode cs).2 ≤ cs.length + 1 := by
    simp only [unicode, List.length_take, List.length_drop]
    omega
  by_cases hkept : cs.head? ≠ some 'u' ∧ (hexNumber? (cs.take 4)).bind charOf? = none
  · refine .inl ⟨cs.take 4, cs.drop 4, (List.take_append_drop 4 cs).symm, ?_, ?_, hkept.2⟩
    · cases cs with
      | nil => simp
      | cons c cs => simpa using hkept.1
    · rw [List.length_take, List.drop_eq_nil_iff]
      omega
  · refine .inr ⟨?_, hread⟩
    simp only [unicode]
    cases hv : (hexNumber? ((cs.drop (cs.takeWhile (· == 'u')).length).take 4)).bind charOf? with
    | some c => simp; omega
    | none =>
      have hpos : 0 < (cs.takeWhile (· == 'u')).length := by
        refine Nat.pos_of_ne_zero fun hzero => hkept ⟨fun hu => ?_, ?_⟩
        · obtain ⟨cs, rfl⟩ := List.head?_eq_some_iff.1 hu
          simp at hzero
        · rwa [hzero, List.drop_zero] at hv
      simp only [List.length_cons]
      omega

/-- An escape stands for itself, or it is longer than what it stands for. -/
theorem escape_cases (cs : List Char) :
    cs = [] ∨ (∃ hex rest, cs = 'u' :: (hex ++ rest) ∧ Malformed hex rest) ∨
      (escape cs).1.length ≤ (escape cs).2 ∧ (escape cs).2 ≤ cs.length := by
  fun_cases escape cs with
  | case1 => exact .inl rfl
  | case9 cs =>
    right
    rcases unicode_cases cs with ⟨hex, rest, rfl, h⟩ | h
    · exact .inl ⟨hex, rest, rfl, h⟩
    · exact .inr h
  | case10 c cs _ _ _ _ _ _ _ _ d _ => exact .inr (.inr (length_octal d cs))
  | _ => simp

/-- Replacing the escapes makes no text longer. -/
theorem length_unescape_le (cs : List Char) : (unescape cs).length ≤ cs.length := by
  match cs with
  | [] => exact Nat.le_refl 0
  | c :: cs =>
    by_cases hc : c = '\\'
    · subst hc
      rw [unescape_backslash, List.length_append, List.length_cons]
      rcases escape_cases cs with rfl | ⟨hex, rest, rfl, h⟩ | ⟨h, hle⟩
      · exact Nat.le_refl 1
      · have := length_unescape_le rest
        rw [escape_malformed h]
        simp [Nat.add_comm 1]
        omega
      · have := length_unescape_le (cs.drop (escape cs).2)
        rw [List.length_drop] at this
        omega
    · rw [unescape_cons hc]
      exact Nat.succ_le_succ (length_unescape_le cs)
termination_by cs.length

theorem unescape_malformed {hex rest : List Char} (h : Malformed hex rest) :
    unescape ('\\' :: 'u' :: (hex ++ rest)) = '\\' :: 'u' :: (hex ++ unescape rest) := by
  rw [unescape_backslash, escape_malformed h]
  simp [Nat.add_comm 1]

/-- A text is left as it is exactly if every backslash in it stands for itself. -/
theorem unescape_eq_self_iff {cs : List Char} : unescape cs = cs ↔ Verbatim cs := by
  constructor
  · intro h
    match cs with
    | [] => exact .nil
    | c :: cs =>
      by_cases hc : c = '\\'
      · subst hc
        rcases escape_cases cs with rfl | ⟨hex, rest, rfl, hm⟩ | ⟨hshort, hle⟩
        · exact .last
        · rw [unescape_malformed hm] at h
          have hrest : unescape rest = rest := by simpa using h
          exact .malformed hm (unescape_eq_self_iff.1 hrest)
        · -- what is shorter than its escape cannot be made up for
          have hlen := congrArg List.length h
          have hrest := length_unescape_le (cs.drop (escape cs).2)
          rw [unescape_backslash, List.length_append, List.length_cons] at hlen
          rw [List.length_drop] at hrest
          omega
      · rw [unescape_cons hc] at h
        exact .plain hc (unescape_eq_self_iff.1 (List.cons.inj h).2)
  · intro h
    induction h with
    | nil | last => rfl
    | plain hc _ ih => rw [unescape_cons hc, ih]
    | malformed hm _ ih => rw [unescape_malformed hm, ih]
termination_by cs.length

/-! ## Quotes -/

theorem between_quoted (quote m : List Char) : between quote (quote ++ m ++ quote) = some m := by
  have hlen : (quote ++ (m ++ quote)).length - 2 * quote.length = m.length := by
    simp only [List.length_append]
    omega
  have hends : (quote.isPrefixOf (quote ++ (m ++ quote)) && quote.isSuffixOf (m ++ quote)) = true := by
    simp
  rw [between, List.append_assoc, List.drop_left, hlen, if_pos hends, List.take_left]

theorem between_eq_some_iff {quote cs m : List Char} :
    between quote cs = some m ↔ cs = quote ++ m ++ quote := by
  constructor
  · intro h
    have hcs : ∃ e, cs = quote ++ e ++ quote := by
      simp only [between] at h
      split at h
      · next hc =>
        rw [Bool.and_eq_true, List.isPrefixOf_iff_prefix, List.isSuffixOf_iff_suffix] at hc
        obtain ⟨⟨d, rfl⟩, hsuf⟩ := hc
        rw [List.drop_left] at hsuf
        obtain ⟨e, rfl⟩ := hsuf
        exact ⟨e, by rw [List.append_assoc]⟩
      · simp at h
    obtain ⟨e, rfl⟩ := hcs
    rw [between_quoted, Option.some.injEq] at h
    rw [h]
  · rintro rfl
    exact between_quoted quote m

/-- A text that stands for itself between two copies of a quote: its backslashes do, it holds no line
feed in a text block, and together with the quotes of a line it makes no block. -/
structure Kept (quote cs : List Char) : Prop where
  verbatim : Verbatim cs
  block : quote = tripleQuote → '\n' ∉ cs
  line : quote = ['"'] → ∀ m, quote ++ cs ++ quote ≠ tripleQuote ++ m ++ tripleQuote

theorem contents_block (cs : List Char) :
    contents (tripleQuote ++ cs ++ tripleQuote) =
      ((cutFirst (· == '\n') cs).map Prod.snd).getD cs := by
  rw [contents, between_quoted]

/-- In a block that holds a line feed there are fewer characters than between its quotes. -/
theorem length_contents_block {cs : List Char} (h : '\n' ∈ cs) :
    (contents (tripleQuote ++ cs ++ tripleQuote)).length < cs.length := by
  rw [contents_block]
  cases hcut : cutFirst (· == '\n') cs with
  | none =>
    have := cutFirst_eq_none_iff.1 hcut _ h
    simp at this
  | some xy =>
    obtain ⟨x, y⟩ := xy
    obtain ⟨a, rfl, -, -⟩ := cutFirst_eq_some_iff.1 hcut
    simp
    omega

theorem contents_eq_self {quote cs : List Char} (hq : IsQuote quote)
    (hblock : quote = tripleQuote → '\n' ∉ cs)
    (hline : quote = ['"'] → ∀ m, quote ++ cs ++ quote ≠ tripleQuote ++ m ++ tripleQuote) :
    contents (quote ++ cs ++ quote) = cs := by
  rcases hq with rfl | rfl
  · have hnone : between tripleQuote (['"'] ++ cs ++ ['"']) = none := by
      rw [Option.eq_none_iff_forall_ne_some]
      exact fun m hm => hline rfl m (between_eq_some_iff.1 hm)
    rw [contents, hnone, between_quoted]
    rfl
  · have hnone : cutFirst (· == '\n') cs = none := by
      refine cutFirst_eq_none_iff.2 fun c hc => ?_
      rw [beq_eq_false_iff_ne]
      rintro rfl
      exact hblock rfl hc
    rw [contents_block, hnone]
    rfl

theorem length_contents_block_le (cs : List Char) :
    (contents (tripleQuote ++ cs ++ tripleQuote)).length ≤ cs.length := by
  by_cases h : '\n' ∈ cs
  · exact Nat.le_of_lt (length_contents_block h)
  · have hself := contents_eq_self (.inr rfl) (fun _ => h) fun hq => by simp [tripleQuote] at hq
    exact Nat.le_of_eq (congrArg List.length hself)

/-- A text between quotes is the value of the literal exactly if it stands for itself there. -/
theorem unescape_contents_iff {quote cs : List Char} (hq : IsQuote quote) :
    unescape (contents (quote ++ cs ++ quote)) = cs ↔ Kept quote cs := by
  constructor
  · intro h
    -- fewer characters than between the quotes cannot stand for all of them
    have hfull : cs.length ≤ (contents (quote ++ cs ++ quote)).length := by
      have hle := length_unescape_le (contents (quote ++ cs ++ quote))
      rwa [h] at hle
    have hblock : quote = tripleQuote → '\n' ∉ cs := by
      rintro rfl hlf
      exact absurd hfull (Nat.not_le.2 (length_contents_block hlf))
    have hline : quote = ['"'] → ∀ m, quote ++ cs ++ quote ≠ tripleQuote ++ m ++ tripleQuote := by
      rintro rfl m hm
      have hm' := length_contents_block_le m
      rw [← hm] at hm'
      have hlen := congrArg List.length hm
      simp [tripleQuote] at hlen
      omega
    rw [contents_eq_self hq hblock hline] at h
    exact ⟨unescape_eq_self_iff.1 h, hblock, hline⟩
  · intro h
    rw [contents_eq_self hq h.block h.line]
    exact unescape_eq_self_iff.2 h.verbatim

theorem trimChars_quoted {quote : List Char} (hq : IsQuote quote) (cs : List Char) :
    trimChars (quote ++ cs ++ quote) = quote ++ cs ++ quote := by
  have hb : isBlank '"' = false := by decide
  refine trimChars_eq_self ?_ ?_ <;> rcases hq with rfl | rfl <;>
    simp [tripleQuote, hb, List.getLast?_cons]

/-! ## The value of what stands between quotes -/

variable {quote m : List Char}

/-- The value of what stands between two quotes. -/
theorem value_between (hq : IsQuote quote) :
    value (String.ofList (quote ++ m ++ quote)) =
      String.ofList (unescape (contents (quote ++ m ++ quote))) := by
  rw [value, String.toList_ofList, trimChars_quoted hq]

theorem value_quoted_iff (hq : IsQuote quote) :
    value (String.ofList (quote ++ m ++ quote)) = String.ofList m ↔ Kept quote m := by
  rw [value_between hq, String.ofList_inj, unescape_contents_iff hq]

theorem value_line (hb : tripleQuote <+: ['"'] ++ m ++ ['"'] → ['"'] = tripleQuote) :
    value (String.ofList (['"'] ++ m ++ ['"'])) = String.ofList (unescape m) := by
  have hone : ['"'] ≠ tripleQuote := by decide
  rw [value_between (.inl rfl), contents_eq_self (.inl rfl) (fun h => absurd h hone)]
  intro _ n hn
  exact hone (hb ⟨n ++ tripleQuote, by rw [hn, List.append_assoc]⟩)

theorem value_block {front rest : List Char} (hf : '\n' ∉ front) :
    value (String.ofList (tripleQuote ++ (front ++ '\n' :: rest) ++ tripleQuote)) =
      String.ofList (unescape rest) := by
  have hcut : cutFirst (· == '\n') (front ++ '\n' :: rest) = some (front, rest) := by
    refine cutFirst_append '\n' rest (by simp) fun c hc => ?_
    rw [beq_eq_false_iff_ne]
    rintro rfl
    exact hf hc
  rw [value_between (.inr rfl), contents_block, hcut]
  rfl

theorem value_flat_block (hm : '\n' ∉ m) :
    value (String.ofList (tripleQuote ++ m ++ tripleQuote)) = String.ofList (unescape m) := by
  have hself := contents_eq_self (.inr rfl) (fun _ => hm) fun h => absurd h (by decide)
  rw [value_between (.inr rfl), hself]

end InjectionPoints.Java.StringLiteral
