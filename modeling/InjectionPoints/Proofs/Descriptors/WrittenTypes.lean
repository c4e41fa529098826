/-
Types as they are written (`Spells`): parts with dots between them, each with type arguments or
without, and dimensions behind the last. Erasing a written type leaves the parts of its name and
counts the dimensions (`Denotes.erasure_eq`).
-/
import InjectionPoints.Proofs.Descriptors.Syntax
import InjectionPoints.Proofs.TypeText

namespace InjectionPoints.Java.TypeText

open Text

/-- Text between angle brackets, in which angle brackets come in pairs. -/
inductive Balanced : List Char → Prop
  | nil : Balanced []
  | char {c : Char} {cs : List Char} (hc : isAngle c = false) (h : Balanced cs) : Balanced (c :: cs)
  | nested {inside cs : List Char} (hi : Balanced inside) (h : Balanced cs) :
      Balanced ('<' :: (inside ++ '>' :: cs))

/-- A part of the name of a type, with type arguments behind it or without. -/
inductive Segment : List Char → List Char → Prop
  | plain {part : List Char} (h : IsPart part) : Segment part part
  | generic {part inside : List Char} (h : IsPart part) (hi : Balanced inside) :
      Segment (part ++ '<' :: (inside ++ ['>'])) part

/-- A type without dimensions, and its name without type arguments. -/
inductive Named : List Char → List Char → Prop
  | one {text part : List Char} (h : Segment text part) : Named text part
  | cons {text part text' name : List Char} (h : Segment text part) (more : Named text' name) :
      Named (text ++ '.' :: text') (part ++ '.' :: name)

/-- So many dimensions; that of a variable-arity parameter may be written `...`. -/
inductive Dimensions : List Char → Nat → Prop
  | nil : Dimensions [] 0
  | pair {text : List Char} {n : Nat} (h : Dimensions text n) :
      Dimensions ('[' :: ']' :: text) (n + 1)
  | ellipsis {text : List Char} {n : Nat} (h : Dimensions text n) :
      Dimensions ('.' :: '.' :: '.' :: text) (n + 1)

/-- A character of a part of a name: neither a dot nor a bracket. -/
def isNameChar (c : Char) : Bool := !(['.', '[', ']'].contains c)

/-- Parts with dots between them, whatever else the parts consist of. -/
inductive Qualified : List Char → Prop
  | one {part : List Char} (hne : part ≠ []) (h : ∀ c ∈ part, isNameChar c = true) : Qualified part
  | cons {part rest : List Char} (hne : part ≠ []) (h : ∀ c ∈ part, isNameChar c = true)
      (more : Qualified rest) : Qualified (part ++ '.' :: rest)

/-- A type is written, with any white space, as a name and `n` dimensions. -/
def Spells (type name : String) (n : Nat) : Prop :=
  ∃ text dimensions, squeezeChars type.toList = text ++ dimensions ∧ Named text name.toList ∧
    Dimensions dimensions n

/-- Without white space and type arguments a type is a name and `n` dimensions. -/
def Denotes (type name : String) (n : Nat) : Prop :=
  ∃ dimensions, eraseArguments 0 (squeezeChars type.toList) = name.toList ++ dimensions ∧
    Qualified name.toList ∧ Dimensions dimensions n

variable {text name part rest sub : List Char} {n : Nat} {c : Char}

theorem Balanced.of_all (h : (text.all fun c => !isAngle c) = true) : Balanced text := by
  induction text with
  | nil => exact .nil
  | cons c cs ih =>
    rw [List.all_cons, Bool.and_eq_true, Bool.not_eq_true'] at h
    exact .char h.1 (ih h.2)

/-- A name of one part is a type without dimensions. -/
theorem spells_part {name : String} (h : IsPart name.toList) : Spells name name 0 := by
  refine ⟨name.toList, [], ?_, .one (.plain h), .nil⟩
  rw [squeezeChars_eq_self fun c hc => isBlank_of_isWordChar (h.chars c hc), List.append_nil]

/-! ## Type arguments -/

theorem eraseArguments_cons (hc : isAngle c = false) (cs : List Char) :
    eraseArguments n (c :: cs) = if n = 0 then c :: eraseArguments 0 cs else eraseArguments n cs := by
  rw [eraseArguments]
  · rintro rfl
    cases hc
  · rintro rfl
    cases hc

theorem eq_of_isAngle (h : isAngle c = true) : c = '<' ∨ c = '>' := by
  simpa [isAngle] using h

/-- How many brackets are open behind a text that begins inside `n` of them. A closing bracket without
an opening one counts as none. -/
def depthBehind (n : Nat) : List Char → Nat
  | [] => n
  | '<' :: cs => depthBehind (n + 1) cs
  | '>' :: cs => depthBehind (n - 1) cs
  | _ :: cs => depthBehind n cs

theorem depthBehind_cons (hc : isAngle c = false) : depthBehind n (c :: text) = depthBehind n text := by
  rw [depthBehind]
  · rintro rfl
    cases hc
  · rintro rfl
    cases hc

/-- A text is read behind another one as the brackets say that are open there. -/
theorem eraseArguments_append (n : Nat) (front back : List Char) :
    eraseArguments n (front ++ back) =
      eraseArguments n front ++ eraseArguments (depthBehind n front) back := by
  induction front generalizing n with
  | nil => rw [List.nil_append, eraseArguments_nil, List.nil_append, depthBehind]
  | cons c front ih =>
    cases hc : isAngle c with
    | false =>
      rw [List.cons_append, eraseArguments_cons hc, eraseArguments_cons hc, depthBehind_cons hc, ih, ih]
      split
      · next h => rw [h, List.cons_append]
      · rfl
    | true =>
      rcases eq_of_isAngle hc with rfl | rfl
      · exact ih (n + 1)
      · exact ih (n - 1)

theorem depthBehind_append (n : Nat) (front back : List Char) :
    depthBehind n (front ++ back) = depthBehind (depthBehind n front) back := by
  fun_induction depthBehind n front with
  | case1 n => rfl
  | case2 n cs ih | case3 n cs ih => exact ih
  | case4 n c cs hopen hclose ih => rw [List.cons_append, depthBehind, ih] <;> assumption

theorem Balanced.erase (h : Balanced text) (n : Nat) (rest : List Char) :
    eraseArguments (n + 1) (text ++ rest) = eraseArguments (n + 1) rest := by
  induction h generalizing n rest with
  | nil => rfl
  | char hc _ ih =>
    rw [List.cons_append, eraseArguments_cons hc, if_neg (by omega)]
    exact ih n rest
  | @nested inside cs _ _ ihi ih =>
    show eraseArguments (n + 2) ((inside ++ '>' :: cs) ++ rest) = _
    rw [List.append_assoc, ihi]
    exact ih n rest

theorem erase_part (h : ∀ c ∈ part, isWordChar c = true) (rest : List Char) :
    eraseArguments 0 (part ++ rest) = part ++ eraseArguments 0 rest := by
  induction part with
  | nil => rfl
  | cons c cs ih =>
    rw [List.forall_mem_cons] at h
    have hangle : isAngle c = false := by
      cases hx : isAngle c with
      | false => rfl
      | true =>
        rcases eq_of_isAngle hx with rfl | rfl
        · exact absurd h.1 (by decide)
        · exact absurd h.1 (by decide)
    rw [List.cons_append, eraseArguments_cons hangle, if_pos rfl, ih h.2]
    rfl

theorem Segment.isPart (h : Segment text part) : IsPart part := by
  cases h with
  | plain h => exact h
  | generic h => exact h

theorem Segment.erase (h : Segment text part) (rest : List Char) :
    eraseArguments 0 (text ++ rest) = part ++ eraseArguments 0 rest := by
  cases h with
  | plain h => exact erase_part h.chars rest
  | @generic _ inside h hi =>
    rw [List.append_assoc, erase_part h.chars]
    show part ++ eraseArguments 1 (inside ++ ['>'] ++ rest) = _
    rw [List.append_assoc, hi.erase]
    rfl

theorem Named.parted (h : Named text name) : Parted '.' name := by
  induction h with
  | one h => exact .one h.isPart
  | cons h _ ih => exact .cons h.isPart ih

theorem Named.erase (h : Named text name) (rest : List Char) :
    eraseArguments 0 (text ++ rest) = name ++ eraseArguments 0 rest := by
  induction h with
  | one h => exact h.erase rest
  | cons h _ ih =>
    rw [List.append_assoc, h.erase, List.cons_append, eraseArguments_cons (by decide), if_pos rfl, ih]
    simp

/-! ## Names -/

theorem ne_of_isNameChar (hc : isNameChar c = true) {d : Char} (hd : isNameChar d = false) :
    c ≠ d := by
  rintro rfl
  simp [hd] at hc

theorem isNameChar_of_isWordChar (h : isWordChar c = true) : isNameChar c = true := by
  have hmarks : (['.', '[', ']'].all fun d => !isWordChar d) = true := by decide
  rw [isNameChar, Bool.not_eq_true', List.contains_eq_mem, decide_eq_false_iff_not]
  intro hmem
  simpa [h] using List.all_eq_true.1 hmarks c hmem

theorem Qualified.of_parted (h : Parted '.' name) : Qualified name := by
  induction h with
  | one h => exact .one h.1 fun c hc => isNameChar_of_isWordChar (h.chars c hc)
  | cons h _ ih => exact .cons h.1 (fun c hc => isNameChar_of_isWordChar (h.chars c hc)) ih

theorem Qualified.exists_head (h : Qualified name) :
    ∃ c rest, name = c :: rest ∧ isNameChar c = true := by
  cases h with
  | one hne h =>
    obtain ⟨c, rest, rfl⟩ := List.exists_cons_of_ne_nil hne
    exact ⟨c, rest, rfl, h c List.mem_cons_self⟩
  | cons hne h =>
    obtain ⟨c, rest, rfl⟩ := List.exists_cons_of_ne_nil hne
    exact ⟨c, _, rfl, h c List.mem_cons_self⟩

theorem Qualified.exists_last (h : Qualified name) :
    ∃ init c, name = init ++ [c] ∧ isNameChar c = true := by
  induction h with
  | @one part hne h =>
    exact ⟨part.dropLast, part.getLast hne, (List.dropLast_concat_getLast hne).symm,
      h _ (List.getLast_mem hne)⟩
  | @cons part _ _ _ _ ih =>
    obtain ⟨init, c, rfl, hc⟩ := ih
    exact ⟨part ++ '.' :: init, c, by simp, hc⟩

/-! ## Dimensions -/

/-- The brackets of `n` dimensions. -/
def brackets : Nat → List Char
  | 0 => []
  | n + 1 => '[' :: ']' :: brackets n

theorem brackets_append (n : Nat) : brackets n ++ ['[', ']'] = brackets (n + 1) := by
  induction n with
  | zero => rfl
  | succ n ih =>
    show '[' :: ']' :: (brackets n ++ ['[', ']']) = _
    rw [ih]
    rfl

theorem Dimensions.erase (h : Dimensions text n) : eraseArguments 0 text = text := by
  refine eraseArguments_eq_self fun c hc => ?_
  have hmark : c ∈ ['[', ']', '.'] := by
    induction h with
    | nil => simp at hc
    | pair _ ih =>
      simp only [List.mem_cons] at hc ⊢
      rcases hc with hc | hc | hc
      · exact .inl hc
      · exact .inr (.inl hc)
      · simpa using ih hc
    | ellipsis _ ih =>
      simp only [List.mem_cons] at hc ⊢
      rcases hc with hc | hc | hc | hc
      · exact .inr (.inr (.inl hc))
      · exact .inr (.inr (.inl hc))
      · exact .inr (.inr (.inl hc))
      · simpa using ih hc
  have hall : (['[', ']', '.'].all fun c => !isAngle c) = true := by decide
  simpa using List.all_eq_true.1 hall c hmark

theorem replaceEllipsis_cons (hc : c ≠ '.') (cs : List Char) :
    replaceEllipsis sub (c :: cs) = c :: replaceEllipsis sub cs := by
  rw [replaceEllipsis]
  rintro _ rfl
  exact absurd rfl hc

theorem Dimensions.replaceEllipsis_eq (h : Dimensions text n) :
    replaceEllipsis ['[', ']'] text = brackets n := by
  induction h with
  | nil => rfl
  | pair _ ih =>
    rw [replaceEllipsis_cons (by decide), replaceEllipsis_cons (by decide), ih]
    rfl
  | ellipsis _ ih =>
    rw [replaceEllipsis, ih]
    rfl

theorem replaceEllipsis_part (h : ∀ c ∈ part, isNameChar c = true) (rest : List Char) :
    replaceEllipsis sub (part ++ rest) = part ++ replaceEllipsis sub rest := by
  induction part with
  | nil => rfl
  | cons c cs ih =>
    rw [List.forall_mem_cons] at h
    rw [List.cons_append, replaceEllipsis_cons (ne_of_isNameChar h.1 (by decide)), ih h.2]
    rfl

/-- In a name no dot is next to another one. -/
theorem Qualified.replaceEllipsis_append (h : Qualified name) (rest : List Char) :
    replaceEllipsis sub (name ++ rest) = name ++ replaceEllipsis sub rest := by
  induction h with
  | one _ h => exact replaceEllipsis_part h rest
  | @cons part more _ h hmore ih =>
    obtain ⟨c, cs, rfl, hc⟩ := hmore.exists_head
    have hdot : replaceEllipsis sub ('.' :: ((c :: cs) ++ rest)) =
        '.' :: replaceEllipsis sub ((c :: cs) ++ rest) := by
      rw [List.cons_append, replaceEllipsis]
      rintro ds - hds
      obtain ⟨rfl, _⟩ := List.cons.inj hds
      exact absurd hc (by decide)
    rw [List.append_assoc, replaceEllipsis_part h, List.append_assoc, List.cons_append, hdot, ih]
    rfl

theorem Qualified.splitDimensions_brackets (h : Qualified name) (n : Nat) :
    splitDimensions (name ++ brackets n).reverse = (n, name) := by
  induction n with
  | zero =>
    -- a name does not end in a bracket
    obtain ⟨init, c, rfl, hc⟩ := h.exists_last
    rw [brackets, List.append_nil, List.reverse_concat]
    unfold splitDimensions
    split
    · next heq =>
      obtain ⟨rfl, _⟩ := List.cons.inj heq
      exact absurd hc (by decide)
    · simp
  | succ n ih =>
    have hpair (cs : List Char) : splitDimensions (']' :: '[' :: cs) =
        ((splitDimensions cs).1 + 1, (splitDimensions cs).2) := rfl
    rw [← brackets_append, ← List.append_assoc, List.reverse_append]
    show splitDimensions (']' :: '[' :: (name ++ brackets n).reverse) = _
    rw [hpair, ih]

/-- Erasing a type leaves its name and counts its dimensions. -/
theorem Denotes.erasure_eq {type name : String} (h : Denotes type name n) :
    erasure type = (name, n) := by
  obtain ⟨dimensions, htext, hname, hdimensions⟩ := h
  unfold erasure
  rw [htext, hname.replaceEllipsis_append, hdimensions.replaceEllipsis_eq]
  dsimp only
  rw [hname.splitDimensions_brackets, String.ofList_toList]

theorem Spells.denotes {type name : String} (h : Spells type name n) : Denotes type name n := by
  obtain ⟨text, dimensions, hsqueeze, hnamed, hdimensions⟩ := h
  refine ⟨dimensions, ?_, .of_parted hnamed.parted, hdimensions⟩
  rw [hsqueeze, hnamed.erase, hdimensions.erase]

theorem Spells.erasure_eq {type name : String} (h : Spells type name n) : erasure type = (name, n) :=
  h.denotes.erasure_eq

end InjectionPoints.Java.TypeText
