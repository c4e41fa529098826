/-
Texts with angle brackets, balanced or not. Type arguments are erased by keeping count of the brackets
that are open, so a text is read behind another as the count there says (`eraseArguments_append`). In
a balanced text nothing is open at the end, and where something is open there is a group around it
(`BracketGroup.depthBehind_pos`, `outsideFrom_eq_eraseArguments`). So what goes with the type
arguments are the outermost groups: `withoutArguments_laws`.
-/
import Mathlib.Data.List.Infix
import InjectionPoints.Proofs.Descriptors.WrittenTypes

namespace InjectionPoints.Java.TypeText

open Text

variable {text front back rest : List Char} {n d k : Nat} {c : Char}

/-! ## Balanced texts -/

/-- A text that begins inside `n` brackets closes them and those that it opens, and no others: no part
in front closes more than are open, and the whole closes as many. -/
structure Closes (n : Nat) (text : List Char) : Prop where
  opened : ∀ front, front <+: text → front.count '>' ≤ n + front.count '<'
  closed : text.count '>' = n + text.count '<'

instance (n : Nat) (text : List Char) : Decidable (Closes n text) :=
  decidable_of_iff ((∀ front ∈ text.inits, front.count '>' ≤ n + front.count '<') ∧
    text.count '>' = n + text.count '<')
    ⟨fun h => ⟨fun front hf => h.1 front ((List.mem_inits _ _).2 hf), h.2⟩,
      fun h => ⟨fun front hf => h.opened front ((List.mem_inits _ _).1 hf), h.closed⟩⟩

theorem closes_nil : Closes n [] ↔ n = 0 := by
  constructor
  · exact fun h => by simpa using h.closed.symm
  · rintro rfl
    exact ⟨fun front h => by simp [List.prefix_nil.1 h], rfl⟩

/-- The first character changes the brackets that are open by as much as the counts. -/
theorem closes_cons {m : Nat} (hc : ∀ part : List Char,
    (c :: part).count '>' + m + part.count '<' = part.count '>' + n + (c :: part).count '<') :
    Closes n (c :: text) ↔ Closes m text := by
  constructor
  · rintro ⟨hopened, hclosed⟩
    refine ⟨fun part hpart => ?_, ?_⟩
    · have := hopened (c :: part) (List.cons_prefix_cons.2 ⟨rfl, hpart⟩)
      have := hc part
      omega
    · have := hc text
      omega
  · rintro ⟨hopened, hclosed⟩
    refine ⟨fun front hfront => ?_, ?_⟩
    · rcases List.prefix_cons_iff.1 hfront with rfl | ⟨part, rfl, hpart⟩
      · simp
      · have := hopened part hpart
        have := hc part
        omega
    · have := hc text
      omega

theorem closes_open : Closes n ('<' :: text) ↔ Closes (n + 1) text :=
  closes_cons fun part => by grind

theorem closes_close : Closes (n + 1) ('>' :: text) ↔ Closes n text :=
  closes_cons fun part => by grind

theorem closes_char (hc : isAngle c = false) : Closes n (c :: text) ↔ Closes n text := by
  simp only [isAngle, Bool.or_eq_false_iff, beq_eq_false_iff_ne] at hc
  exact closes_cons fun part => by simp [hc]

theorem not_closes_close : ¬Closes 0 ('>' :: text) := by
  intro h
  have := h.opened ['>'] (by simp)
  simp at this

/-- A balanced part changes nothing about the brackets that are open. -/
theorem Balanced.closes_append (h : Balanced front) : Closes n (front ++ back) ↔ Closes n back := by
  induction h generalizing n back with
  | nil => rfl
  | char hc _ ih => rw [List.cons_append, closes_char hc, ih]
  | nested _ _ ihi ih =>
    rw [List.cons_append, closes_open, List.append_assoc, ihi, List.cons_append, closes_close, ih]

/-- A text that begins inside `n` brackets and `d + 1` more closes the outermost of these somewhere, the
`d` others before it and the `n` behind it. -/
theorem Closes.exists_close (h : Closes (d + n + 1) text) :
    ∃ inside rest, text = inside ++ '>' :: rest ∧ Closes d inside ∧ Closes n rest := by
  induction text generalizing d with
  | nil => exact absurd (closes_nil.1 h) (Nat.succ_ne_zero _)
  | cons c text ih =>
    cases hc : isAngle c with
    | false =>
      obtain ⟨inside, rest, rfl, hi, hr⟩ := ih ((closes_char hc).1 h)
      exact ⟨c :: inside, rest, rfl, (closes_char hc).2 hi, hr⟩
    | true =>
      rcases eq_of_isAngle hc with rfl | rfl
      · rw [closes_open, Nat.add_right_comm d n 1] at h
        obtain ⟨inside, rest, rfl, hi, hr⟩ := ih h
        exact ⟨'<' :: inside, rest, rfl, closes_open.2 hi, hr⟩
      · rw [closes_close] at h
        cases d with
        | zero => exact ⟨[], text, rfl, closes_nil.2 rfl, by rwa [Nat.zero_add] at h⟩
        | succ d =>
          rw [Nat.add_right_comm d 1 n] at h
          obtain ⟨inside, rest, rfl, hi, hr⟩ := ih h
          exact ⟨'>' :: inside, rest, rfl, closes_close.2 hi, hr⟩

theorem Closes.balanced (h : Closes 0 text) : Balanced text := by
  induction hlength : text.length using Nat.strongRecOn generalizing text with
  | ind length ih =>
    subst hlength
    cases text with
    | nil => exact .nil
    | cons c text =>
      cases hc : isAngle c with
      | false => exact .char hc (ih _ (Nat.lt_succ_self _) ((closes_char hc).1 h) rfl)
      | true =>
        rcases eq_of_isAngle hc with rfl | rfl
        · obtain ⟨inside, rest, rfl, hi, hr⟩ := exists_close (d := 0) (n := 0) (closes_open.1 h)
          have hlength : ('<' :: (inside ++ '>' :: rest)).length =
              inside.length + rest.length + 2 := by
            simp only [List.length_cons, List.length_append]
            omega
          exact .nested (ih _ (by omega) hi rfl) (ih _ (by omega) hr rfl)
        · exact absurd h not_closes_close

/-- Counting brackets and nesting them come to the same. -/
theorem closes_zero_iff : Closes 0 text ↔ Balanced text := by
  refine ⟨Closes.balanced, fun h => ?_⟩
  rw [← List.append_nil text, h.closes_append, closes_nil]

/-! ## Open brackets -/

/-- In a text that closes `d` brackets, those around these stay open. -/
theorem Closes.le_depthBehind (h : Closes d text) (hfront : front <+: text) (n : Nat) :
    n ≤ depthBehind (n + d) front := by
  induction text generalizing d front with
  | nil =>
    rw [List.prefix_nil.1 hfront]
    exact Nat.le_add_right n d
  | cons c text ih =>
    rcases List.prefix_cons_iff.1 hfront with rfl | ⟨part, rfl, hpart⟩
    · exact Nat.le_add_right n d
    cases hc : isAngle c with
    | false =>
      rw [depthBehind_cons hc]
      exact ih ((closes_char hc).1 h) hpart
    | true =>
      rcases eq_of_isAngle hc with rfl | rfl
      · show n ≤ depthBehind (n + (d + 1)) part
        exact ih (closes_open.1 h) hpart
      · cases d with
        | zero => exact absurd h not_closes_close
        | succ d =>
          show n ≤ depthBehind (n + d) part
          exact ih (closes_close.1 h) hpart

theorem Balanced.depthBehind_eq (h : Balanced text) (n : Nat) : depthBehind n text = n := by
  induction h generalizing n with
  | nil => rfl
  | char hc _ ih => rw [depthBehind_cons hc, ih]
  | @nested inside cs _ _ ihi ih =>
    show depthBehind (n + 1) (inside ++ '>' :: cs) = n
    rw [depthBehind_append, ihi]
    exact ih n

/-! ## Groups -/

/-- A group of brackets in a text: an opening one, a balanced text, and the closing one. -/
structure BracketGroup (text : List Char) where
  before : List Char
  inside : List Char
  behind : List Char
  isText : before ++ '<' :: (inside ++ '>' :: behind) = text
  closes : Closes 0 inside

namespace BracketGroup

/-- The position of the closing bracket. -/
def last (g : BracketGroup text) : Nat := g.before.length + g.inside.length + 1

/-- A group reaches from its opening bracket to its closing one. -/
def Covers (g : BracketGroup text) (k : Nat) : Prop := g.before.length ≤ k ∧ k ≤ g.last

/-- No group of the text reaches further. -/
def IsOutermost (g : BracketGroup text) : Prop :=
  ∀ around : BracketGroup text, (∀ k, g.Covers k → around.Covers k) →
    ∀ k, around.Covers k → g.Covers k

theorem take_before (g : BracketGroup text) : text.take g.before.length = g.before := by
  simp [← g.isText]

theorem take_inside (g : BracketGroup text) {j : Nat} (hj : j ≤ g.inside.length) :
    text.take (g.before.length + j + 1) = g.before ++ '<' :: g.inside.take j := by
  refine (congrArg (List.take _) g.isText).symm.trans ?_
  rw [Nat.add_assoc, List.take_length_add_append, List.take_succ_cons,
    List.take_append_of_le_length hj]

theorem take_last (g : BracketGroup text) :
    text.take (g.last + 1) = g.before ++ '<' :: (g.inside ++ ['>']) := by
  refine (congrArg (List.take _) g.isText).symm.trans ?_
  rw [last, Nat.add_assoc, Nat.add_assoc, List.take_length_add_append, ← Nat.add_assoc,
    List.take_succ_cons, List.take_length_add_append]
  rfl

/-- Behind the opening bracket of a group, up to the closing one, some bracket is open. -/
theorem depthBehind_pos (g : BracketGroup text) (hk : g.before.length < k) (hlast : k ≤ g.last) :
    0 < depthBehind 0 (text.take k) := by
  obtain ⟨j, rfl⟩ := Nat.exists_eq_add_of_lt hk
  have hj : j ≤ g.inside.length := by
    unfold last at hlast
    omega
  rw [g.take_inside hj, depthBehind_append]
  exact Nat.lt_of_lt_of_le (Nat.succ_pos _) (g.closes.le_depthBehind (List.take_prefix _ _) _)

/-- Behind a group as many brackets are open as before it. -/
theorem depthBehind_last (g : BracketGroup text) :
    depthBehind 0 (text.take (g.last + 1)) = depthBehind 0 g.before := by
  rw [g.take_last, depthBehind_append]
  show depthBehind (depthBehind 0 g.before + 1) (g.inside ++ ['>']) = _
  rw [depthBehind_append, (closes_zero_iff.1 g.closes).depthBehind_eq]
  rfl

/-- A group that begins where no bracket is open is an outermost one. -/
theorem isOutermost_of_depthBehind (g : BracketGroup text) (h : depthBehind 0 g.before = 0) :
    g.IsOutermost := by
  intro around hcovers k hk
  have hbegin : g.before.length ≤ g.last := by
    unfold last
    omega
  obtain ⟨hfirst, hfirst'⟩ := hcovers g.before.length ⟨Nat.le_refl _, hbegin⟩
  obtain ⟨-, hlast⟩ := hcovers g.last ⟨hbegin, Nat.le_refl _⟩
  -- inside of the group around, some bracket would be open
  have hbefore : ¬around.before.length < g.before.length := by
    intro hlt
    have := around.depthBehind_pos hlt hfirst'
    rw [g.take_before] at this
    omega
  have hbehind : ¬g.last + 1 ≤ around.last := by
    intro hle
    have := around.depthBehind_pos (by omega) hle
    rw [g.depthBehind_last] at this
    omega
  obtain ⟨hk, hk'⟩ := hk
  exact ⟨by omega, by omega⟩

end BracketGroup

/-- A position that an outermost group of the text reaches. -/
def Covered (text : List Char) (k : Nat) : Prop :=
  ∃ g : BracketGroup text, g.IsOutermost ∧ g.Covers k

open Classical in
/-- What is left of a part, which begins at a position of a text, without the outermost groups of the
text. -/
noncomputable def outsideFrom (text : List Char) (start : Nat) (part : List Char) : List Char :=
  ((part.zipIdx start).filter fun x => ¬Covered text x.2).map Prod.fst

/-- A text without the characters of its outermost groups. -/
noncomputable def outside (text : List Char) : List Char := outsideFrom text 0 text

theorem outsideFrom_append (start : Nat) : outsideFrom text start (front ++ back) =
    outsideFrom text start front ++ outsideFrom text (start + front.length) back := by
  rw [outsideFrom, List.zipIdx_append, List.filter_append, List.map_append, outsideFrom, outsideFrom]

theorem outsideFrom_of_not_covered (h : ¬Covered text k) : outsideFrom text k [c] = [c] := by
  simp [outsideFrom, h]

theorem outsideFrom_of_covered (h : ∀ j, k ≤ j → j < k + front.length → Covered text j) :
    outsideFrom text k front = [] := by
  rw [outsideFrom, List.map_eq_nil_iff, List.filter_eq_nil_iff]
  intro x hx
  simpa using h _ (List.le_snd_of_mem_zipIdx hx) (List.snd_lt_add_of_mem_zipIdx hx)

/-- Where no bracket is open, only an opening bracket is covered. -/
theorem not_covered (hdepth : depthBehind 0 front = 0) (hc : isAngle c = false)
    (htext : front ++ c :: back = text) : ¬Covered text front.length := by
  rintro ⟨g, -, hfirst, hlast⟩
  rcases Nat.lt_or_eq_of_le hfirst with hlt | heq
  · have := g.depthBehind_pos hlt hlast
    rw [← htext, List.take_left, hdepth] at this
    exact Nat.lt_irrefl 0 this
  · have hsame := List.append_inj (g.isText.trans htext.symm) heq
    rw [← (List.cons.inj hsame.2).1] at hc
    exact absurd hc (by decide)

/-- In a balanced part that begins where no bracket is open, the outermost groups are erased. -/
theorem outsideFrom_eq_eraseArguments (h : Balanced rest) (hdepth : depthBehind 0 front = 0)
    (htext : front ++ rest = text) :
    outsideFrom text front.length rest = eraseArguments 0 rest := by
  induction h generalizing front with
  | nil => rfl
  | @char c cs hc h ih =>
    have hnext : depthBehind 0 (front ++ [c]) = 0 := by
      rw [depthBehind_append, hdepth, depthBehind_cons hc]
      rfl
    have ih := ih hnext (by simpa using htext)
    rw [List.length_append] at ih
    rw [eraseArguments_cons hc, if_pos rfl, ← List.singleton_append, outsideFrom_append,
      outsideFrom_of_not_covered (not_covered hdepth hc htext), ih]
    rfl
  | @nested inside cs hi h _ ih =>
    let g : BracketGroup text := ⟨front, inside, cs, htext, closes_zero_iff.2 hi⟩
    have hsplit : '<' :: (inside ++ '>' :: cs) = '<' :: (inside ++ ['>']) ++ cs := by simp
    have hnext : depthBehind 0 (front ++ '<' :: (inside ++ ['>'])) = 0 := by
      rw [← g.take_last, g.depthBehind_last]
      exact hdepth
    have ih := ih hnext (by simpa using htext)
    rw [List.length_append] at ih
    rw [hsplit, outsideFrom_append, ih, outsideFrom_of_covered, List.nil_append, ← hsplit]
    · show _ = eraseArguments 1 (inside ++ '>' :: cs)
      rw [hi.erase]
      rfl
    · intro j hj hlt
      refine ⟨g, g.isOutermost_of_depthBehind hdepth, hj, ?_⟩
      show j ≤ front.length + inside.length + 1
      simp only [List.length_cons, List.length_append, List.length_nil] at hlt
      omega

/-! ## Cleaned types -/

theorem isBlank_of_isAngle (h : isAngle c = true) : isBlank c = false := by
  rcases eq_of_isAngle h with rfl | rfl <;> decide

/-- White space is taken out inside of brackets and outside. -/
theorem eraseArguments_squeezeChars (n : Nat) (text : List Char) :
    eraseArguments n (squeezeChars text) = squeezeChars (eraseArguments n text) := by
  induction text generalizing n with
  | nil => simp
  | cons c text ih =>
    cases hc : isAngle c with
    | true =>
      rw [squeezeChars, List.filter_cons_of_pos (by simp [isBlank_of_isAngle hc]), ← squeezeChars]
      rcases eq_of_isAngle hc with rfl | rfl
      · exact ih (n + 1)
      · exact ih (n - 1)
    | false =>
      cases hb : isBlank c <;> cases n <;>
        simp_all [squeezeChars, eraseArguments_cons hc]

theorem compact_compact (s : String) : compact (compact s) = compact s := by
  rw [compact, squeeze, squeezeChars_compact, compact, squeeze]

theorem withoutArguments_withoutArguments (s : String) :
    withoutArguments (withoutArguments s) = withoutArguments s := by
  simp only [withoutArguments, String.toList_ofList]
  rw [eraseArguments_eq_self fun c hc => isAngle_of_mem_eraseArguments hc]

theorem compact_withoutArguments (s : String) :
    compact (withoutArguments s) = withoutArguments (compact s) := by
  simp only [compact, squeeze, withoutArguments, String.toList_ofList, eraseArguments_squeezeChars]

theorem withoutArguments_append {s : String} (h : Balanced s.toList) (t : String) :
    withoutArguments (s ++ t) = withoutArguments s ++ withoutArguments t := by
  simp only [withoutArguments, String.toList_append, eraseArguments_append, h.depthBehind_eq,
    String.ofList_append]

theorem withoutArguments_eq_outside {s : String} (h : Balanced s.toList) :
    (withoutArguments s).toList = outside s.toList := by
  rw [withoutArguments, String.toList_ofList]
  exact (outsideFrom_eq_eraseArguments h (rfl : depthBehind 0 [] = 0) rfl).symm

/-- White space and type arguments are each taken out at once, and both in either order; no bracket is
left over. A text behind a balanced one is read as it is alone, and what is left of a balanced text
is exactly what stands outside its outermost groups. -/
theorem withoutArguments_laws (s : String) :
    compact (compact s) = compact s ∧
    withoutArguments (withoutArguments s) = withoutArguments s ∧
    compact (withoutArguments s) = withoutArguments (compact s) ∧
    (∀ c ∈ (withoutArguments s).toList, c ≠ '<' ∧ c ≠ '>') ∧
    (Closes 0 s.toList →
      (∀ t, withoutArguments (s ++ t) = withoutArguments s ++ withoutArguments t) ∧
      (withoutArguments s).toList = outside s.toList) := by
  refine ⟨compact_compact s, withoutArguments_withoutArguments s, compact_withoutArguments s,
    fun c hc => ?_, fun h => ⟨withoutArguments_append h.balanced, ?_⟩⟩
  · rw [withoutArguments, String.toList_ofList] at hc
    simpa [isAngle] using isAngle_of_mem_eraseArguments hc
  · exact withoutArguments_eq_outside h.balanced

/-- Two groups, one with another inside; the brackets of the text behind them do not match. -/
theorem withoutArguments_laws_nested :
    Closes 0 "Map<K, List<V>>.Entry<X>".toList ∧
      outside "Map<K, List<V>>.Entry<X>".toList = "Map.Entry".toList ∧
      withoutArguments ("Map<K, List<V>>.Entry<X>" ++ "> a<b") = "Map.Entry a" := by
  have hcloses : Closes 0 "Map<K, List<V>>.Entry<X>".toList := by decide
  obtain ⟨happend, houtside⟩ := (withoutArguments_laws "Map<K, List<V>>.Entry<X>").2.2.2.2 hcloses
  exact ⟨hcloses, houtside.symm.trans (by decide), (happend "> a<b").trans (by decide)⟩

end InjectionPoints.Java.TypeText
