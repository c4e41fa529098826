/-
Written types, read a second time. What is left of a type once white space, generic arguments,
`...` and dimensions are taken off has none of them, so `erasedName` leaves it as it is
(`erasedName_erasedName`).
-/
import InjectionPoints.Proofs.PlainIndex

namespace InjectionPoints.Java.TypeText

open Text

variable {cs sub : List Char}

theorem squeezeChars_eq_self (h : ∀ c ∈ cs, isBlank c = false) : squeezeChars cs = cs :=
  List.filter_eq_self.2 fun c hc => by simp [h c hc]

theorem isBlank_of_mem_squeezeChars {c : Char} (h : c ∈ squeezeChars cs) : isBlank c = false := by
  simpa using (List.mem_filter.1 h).2

theorem squeezeChars_compact (s : String) : squeezeChars (compact s).toList = squeezeChars s.toList := by
  rw [compact, squeeze, String.toList_ofList]
  exact squeezeChars_eq_self fun c hc => isBlank_of_mem_squeezeChars hc

/-- A character that opens or closes generic arguments. -/
def isAngle (c : Char) : Bool := c == '<' || c == '>'

theorem isAngle_of_mem_eraseArguments {n : Nat} {c : Char} (h : c ∈ eraseArguments n cs) :
    isAngle c = false := by
  fun_induction eraseArguments n cs with
  | case1 n => simp at h
  | case2 n cs ih | case3 n cs ih => exact ih h
  | case4 d cs hlt hgt ih =>
    rcases List.mem_cons.1 h with rfl | h
    · simpa [isAngle] using ⟨hlt, hgt⟩
    · exact ih h
  | case5 n d cs hlt hgt hn ih => exact ih h

theorem eraseArguments_eq_self (h : ∀ c ∈ cs, isAngle c = false) : eraseArguments 0 cs = cs := by
  induction cs with
  | nil => rfl
  | cons c cs ih =>
    have hc := h c (by simp)
    have ih := ih fun d hd => h d (by simp [hd])
    unfold eraseArguments
    split <;> simp_all [isAngle]

/-! ## `...` -/

/-- A text without `...`. -/
def NoEllipsis (cs : List Char) : Prop := ¬['.', '.', '.'] <:+: cs

theorem replaceEllipsis_eq_self (h : NoEllipsis cs) : replaceEllipsis sub cs = cs := by
  fun_induction replaceEllipsis sub cs with
  | case1 cs ih => exact absurd ⟨[], cs, rfl⟩ h
  | case2 c cs hdots ih => rw [ih fun hin => h (hin.trans (List.suffix_cons c cs).isInfix)]
  | case3 => rfl

/-- A dot in front is there before `...` is taken out. -/
theorem eq_cons_of_replaceEllipsis {rest : List Char} (h : replaceEllipsis [] cs = '.' :: rest) :
    ∃ cs', cs = '.' :: cs' := by
  unfold replaceEllipsis at h
  split at h
  · exact ⟨_, rfl⟩
  · exact ⟨_, by rw [(List.cons.inj h).1]⟩
  · cases h

theorem noEllipsis_replaceEllipsis (cs : List Char) : NoEllipsis (replaceEllipsis [] cs) := by
  fun_induction replaceEllipsis [] cs with
  | case1 cs ih => exact ih
  | case2 c cs hdots ih =>
    intro hin
    rcases List.infix_cons_iff.1 hin with ⟨rest, hrest⟩ | hin
    · -- the two dots behind `c` would have made it a `...`
      have hc : '.' = c := (List.cons.inj hrest).1
      have htwo : replaceEllipsis [] cs = '.' :: '.' :: rest := (List.cons.inj hrest).2.symm
      obtain ⟨cs, rfl⟩ := eq_cons_of_replaceEllipsis htwo
      have hone : ∃ cs', cs = '.' :: cs' := by
        unfold replaceEllipsis at htwo
        split at htwo
        · next e => exact ⟨_, (List.cons.inj e).2⟩
        · next e => cases e; exact eq_cons_of_replaceEllipsis (List.cons.inj htwo).2
        · next e => cases e
      obtain ⟨cs, rfl⟩ := hone
      exact hdots _ hc.symm rfl
    · exact ih hin
  | case3 => simp [NoEllipsis]

/-! ## Dimensions -/

theorem splitDimensions_snd_isSuffix (cs : List Char) : (splitDimensions cs).2.reverse <:+ cs := by
  fun_induction splitDimensions cs with
  | case1 cs n base e ih =>
    rw [e] at ih
    exact ih.trans ⟨[']', '['], rfl⟩
  | case2 cs => simp

theorem splitDimensions_snd (cs : List Char) :
    splitDimensions (splitDimensions cs).2.reverse = (0, (splitDimensions cs).2) := by
  fun_induction splitDimensions cs with
  | case1 cs n base e ih => rwa [e] at ih
  | case2 cs hpair =>
    rw [List.reverse_reverse]
    unfold splitDimensions
    split
    · exact absurd rfl (hpair _)
    · rfl

/-! ## Names -/

/-- The name of the class that a type mentions mentions the same class. -/
theorem erasedName_erasedName (s : String) : erasedName (erasedName s) = erasedName s := by
  let bare := replaceEllipsis [] (eraseArguments 0 (squeezeChars s.toList))
  have hname : (erasedName s).toList = (splitDimensions bare.reverse).2 := String.toList_ofList
  have hpre : (erasedName s).toList <+: bare := by
    rw [hname, ← List.reverse_suffix]
    exact splitDimensions_snd_isSuffix _
  have hmem : ∀ c ∈ (erasedName s).toList, c ∈ eraseArguments 0 (squeezeChars s.toList) := by
    intro c hc
    rcases mem_replaceEllipsis (hpre.subset hc) with h | h
    · simp at h
    · exact h
  have hblank : squeezeChars (erasedName s).toList = (erasedName s).toList :=
    squeezeChars_eq_self fun c hc =>
      isBlank_of_mem_squeezeChars (mem_eraseArguments (hmem c hc))
  have hangle : eraseArguments 0 (erasedName s).toList = (erasedName s).toList :=
    eraseArguments_eq_self fun c hc => isAngle_of_mem_eraseArguments (hmem c hc)
  have hdots : replaceEllipsis [] (erasedName s).toList = (erasedName s).toList :=
    replaceEllipsis_eq_self fun hin => noEllipsis_replaceEllipsis _ (hin.trans hpre.isInfix)
  have hdims : (splitDimensions (erasedName s).toList.reverse).2 = (erasedName s).toList := by
    rw [hname, splitDimensions_snd]
  conv => lhs; rw [erasedName]
  simp only [hblank, hangle, hdots, hdims, String.ofList_toList]

end InjectionPoints.Java.TypeText
