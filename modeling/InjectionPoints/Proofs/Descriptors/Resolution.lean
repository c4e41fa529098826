/-
What a type resolves to and how it is spelled agree. Both read a written type as a name and its
dimensions (`Denotes`), but one leaves `...` out and the other reads brackets for it; and the
spelling resolves the name once more (`resolve?_agrees`). Neither sees white space or type arguments
(`Inserted`).
-/
import Mathlib.Logic.Relation
import InjectionPoints.Proofs.Descriptors.Erasure

namespace InjectionPoints

open Java Text TypeText

namespace Java.TypeText

/-- The second text is the first one with white space, or with type arguments, put in somewhere. -/
inductive Inserted : String → String → Prop
  | blanks {front back blanks : List Char} (h : ∀ c ∈ blanks, isBlank c = true) :
      Inserted (String.ofList (front ++ back)) (String.ofList (front ++ (blanks ++ back)))
  | arguments {front back inside : List Char} (h : Balanced inside) :
      Inserted (String.ofList (front ++ back))
        (String.ofList (front ++ ('<' :: (inside ++ '>' :: back))))

variable {type type' name : String} {n : Nat} {text : List Char}

/-! ## Names and dimensions -/

/-- Without `...` there are only brackets. -/
theorem Dimensions.exists_brackets (h : Dimensions text n) :
    ∃ k, replaceEllipsis [] text = brackets k := by
  induction h with
  | nil => exact ⟨0, rfl⟩
  | pair _ ih =>
    obtain ⟨k, hk⟩ := ih
    refine ⟨k + 1, ?_⟩
    rw [replaceEllipsis_cons (by decide), replaceEllipsis_cons (by decide), hk]
    rfl
  | ellipsis _ ih =>
    obtain ⟨k, hk⟩ := ih
    refine ⟨k, ?_⟩
    rw [replaceEllipsis, hk]
    rfl

theorem Denotes.erasedName_eq (h : Denotes type name n) : erasedName type = name := by
  obtain ⟨dimensions, htext, hname, hdimensions⟩ := h
  obtain ⟨k, hk⟩ := hdimensions.exists_brackets
  unfold erasedName
  rw [htext, hname.replaceEllipsis_append, hk]
  dsimp only
  rw [hname.splitDimensions_brackets, String.ofList_toList]

/-! ## White space and type arguments -/

theorem squeezeChars_nested (inside back : List Char) :
    squeezeChars ('<' :: (inside ++ '>' :: back)) =
      '<' :: (squeezeChars inside ++ '>' :: squeezeChars back) := by
  have hopen : isBlank '<' = false := by decide
  have hclose : isBlank '>' = false := by decide
  simp [squeezeChars, hopen, hclose]

theorem Balanced.squeeze (h : Balanced text) : Balanced (squeezeChars text) := by
  induction h with
  | nil => exact .nil
  | @char c cs hc _ ih =>
    cases hb : isBlank c with
    | true => rwa [squeezeChars, List.filter_cons_of_neg (by simp [hb])]
    | false =>
      rw [squeezeChars, List.filter_cons_of_pos (by simp [hb])]
      exact .char hc ih
  | nested _ _ ihi ih =>
    rw [squeezeChars_nested]
    exact .nested ihi ih

/-- Type arguments are left out at every depth. -/
theorem Balanced.eraseArguments_nested (h : Balanced text) (n : Nat) (back : List Char) :
    eraseArguments n ('<' :: (text ++ '>' :: back)) = eraseArguments n back := by
  show eraseArguments (n + 1) (text ++ '>' :: back) = _
  rw [h.erase]
  rfl

/-- What is in front is read in the same way whatever follows. -/
theorem eraseArguments_congr {cs ds : List Char}
    (h : ∀ n, eraseArguments n cs = eraseArguments n ds) (front : List Char) (n : Nat) :
    eraseArguments n (front ++ cs) = eraseArguments n (front ++ ds) := by
  rw [eraseArguments_append, eraseArguments_append, h]

theorem Inserted.eraseArguments_eq (h : Inserted type type') :
    eraseArguments 0 (squeezeChars type'.toList) = eraseArguments 0 (squeezeChars type.toList) := by
  cases h with
  | @blanks front back blanks h =>
    have hblanks : squeezeChars blanks = [] := by
      rw [squeezeChars, List.filter_eq_nil_iff]
      exact fun c hc => by simp [h c hc]
    simp only [String.toList_ofList, squeezeChars_append, hblanks, List.nil_append]
  | @arguments front back inside h =>
    simp only [String.toList_ofList, squeezeChars_append front, squeezeChars_nested]
    exact eraseArguments_congr (fun n => h.squeeze.eraseArguments_nested n _) _ _

theorem Inserted.erasedName_eq (h : Inserted type type') : erasedName type' = erasedName type := by
  rw [erasedName, h.eraseArguments_eq]
  rfl

theorem Inserted.erasure_eq (h : Inserted type type') : erasure type' = erasure type := by
  rw [erasure, h.eraseArguments_eq]
  rfl

end Java.TypeText

namespace ClassIndex

variable {ix : ClassIndex} {file : FileId} {type type' name : String} {n : Nat} {c : ix.ClassId}

/-- Outside all type variables only the erasure of a type matters. -/
theorem typeDescriptor_eq (ix : ClassIndex) (file : FileId) (type : String) :
    ix.typeDescriptor file type =
      arrayOf (erasure type).2 (ix.baseDescriptor file (erasure type).1) :=
  erasedDescriptor_of_free (by simp)

/-- The name of a class that a type mentions resolves as the type does. -/
theorem resolve?_erasedName (ix : ClassIndex) (file : FileId) (type : String) :
    ix.resolve? file (erasedName type) = ix.resolve? file type := by
  simp only [resolve?, erasedName_erasedName]

theorem baseDescriptor_of_resolve? (h : ix.resolve? file name = some c)
    (hname : erasedName name = name) :
    ix.baseDescriptor file name = "L" ++ (ix.decl c).internalName ++ ";" := by
  have hprimitive : primitive? name = none := by
    rw [resolve?, hname] at h
    cases hp : primitive? name with
    | none => rfl
    | some letter => simp [hp] at h
  simp only [baseDescriptor, hprimitive, internalTypeName, h]

theorem primitive?_of_mem {letter : String} (h : (name, letter) ∈ primitives) :
    primitive? name = some letter := by
  have hall : ∀ p ∈ primitives, primitive? p.1 = some p.2 := by decide
  exact hall _ h

theorem resolve?_of_primitive? {letter : String} (h : primitive? (erasedName type) = some letter) :
    ix.resolve? file type = none := by
  simp [resolve?, h]

theorem resolve?_of_inserted (h : Inserted type type') :
    ix.resolve? file type' = ix.resolve? file type := by
  simp only [resolve?, h.erasedName_eq]

theorem typeDescriptor_of_inserted (h : Inserted type type') :
    ix.typeDescriptor file type' = ix.typeDescriptor file type := by
  simp only [typeDescriptor_eq, h.erasure_eq]

/-- A type that denotes a name with `n` dimensions is spelled as an array of the class that it
resolves to; if the name is that of a primitive type, it resolves to no class and is spelled by the
letter of that type. White space and type arguments change neither. -/
theorem resolve?_agrees (ix : ClassIndex) (file : FileId) (h : Denotes type name n) :
    (∀ c, ix.resolve? file type = some c →
      ix.typeDescriptor file type = arrayOf n ("L" ++ (ix.decl c).internalName ++ ";")) ∧
    (∀ letter, (name, letter) ∈ primitives →
      ix.resolve? file type = none ∧ ix.typeDescriptor file type = arrayOf n letter) ∧
    ∀ type', Relation.ReflTransGen Inserted type type' →
      ix.resolve? file type' = ix.resolve? file type ∧
        ix.typeDescriptor file type' = ix.typeDescriptor file type := by
  have hspelled : ix.typeDescriptor file type = arrayOf n (ix.baseDescriptor file name) := by
    rw [typeDescriptor_eq, h.erasure_eq]
  refine ⟨fun c hc => ?_, fun letter hletter => ⟨?_, ?_⟩, fun type' hinserted => ?_⟩
  · have hname : erasedName name = name := by
      rw [← h.erasedName_eq, erasedName_erasedName]
    rw [← resolve?_erasedName, h.erasedName_eq] at hc
    rw [hspelled, baseDescriptor_of_resolve? hc hname]
  · exact resolve?_of_primitive? (by rw [h.erasedName_eq, primitive?_of_mem hletter])
  · rw [hspelled]
    simp only [baseDescriptor, primitive?_of_mem hletter]
  · induction hinserted with
    | refl => exact ⟨rfl, rfl⟩
    | tail _ hlast ih =>
      exact ⟨(resolve?_of_inserted hlast).trans ih.1, (typeDescriptor_of_inserted hlast).trans ih.2⟩

/-- An array of arrays of the class `p.A`, with white space and type arguments and without. -/
theorem resolve?_agrees_cyclic :
    Denotes "p.A...[]" "p.A" 2 ∧
      cyclicIndex.resolve? 0 "p.A...[]" = some ⟨0, by decide⟩ ∧
      cyclicIndex.typeDescriptor 0 "p.A...[]" = "[[Lp/A;" ∧
      Inserted "p.A...[]" "p.A<int[]>...[]" ∧
      cyclicIndex.typeDescriptor 0 "p.A<int[]>...[]" = "[[Lp/A;" := by
  have hdenotes : Denotes "p.A...[]" "p.A" 2 := by
    refine ⟨['.', '.', '.', '[', ']'], by decide, ?_, .ellipsis (.pair .nil)⟩
    have hp : ∀ c ∈ ['p'], isNameChar c = true := List.forall_mem_singleton.2 (by decide)
    have ha : ∀ c ∈ ['A'], isNameChar c = true := List.forall_mem_singleton.2 (by decide)
    show Qualified (['p'] ++ '.' :: ['A'])
    exact .cons (by decide) hp (.one (by decide) ha)
  have hinserted : Inserted "p.A...[]" "p.A<int[]>...[]" :=
    @Inserted.arguments ['p', '.', 'A'] ['.', '.', '.', '[', ']'] ['i', 'n', 't', '[', ']']
      (.of_all (by decide))
  have hresolved : cyclicIndex.resolve? 0 "p.A...[]" = some ⟨0, by decide⟩ := by decide +kernel
  obtain ⟨hclass, -, hsame⟩ := resolve?_agrees cyclicIndex 0 hdenotes
  have hspelled : cyclicIndex.typeDescriptor 0 "p.A...[]" = "[[Lp/A;" := by
    rw [hclass _ hresolved]
    decide +kernel
  exact ⟨hdenotes, hresolved, hspelled, hinserted, (hsame _ (.single hinserted)).2.trans hspelled⟩

end ClassIndex

end InjectionPoints
