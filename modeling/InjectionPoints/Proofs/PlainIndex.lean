/-
Indexes whose names and types are spelled as Java spells them, without comments or annotations
between their parts (`ClassIndex.Plain`), and which characters their descriptors have.
-/
import InjectionPoints.ClassIndex.Members

namespace InjectionPoints

open Java Text

/-! ## Spelling -/

/-- Separators, operators and quotes of Java. -/
def punctuation : List Char :=
  ['(', ')', '[', ']', '{', '}', '<', '>', '.', ',', ';', ':', '@', '&', '|', '^', '~', '!', '?',
    '=', '+', '-', '*', '/', '%', '"', '\'', '\\', '#']

/-- A character that can be part of a word: neither white space nor punctuation. -/
def isWordChar (c : Char) : Bool := !isBlank c && !punctuation.contains c

/-- Characters that types have besides those of words. -/
def typeMarks : List Char := ['.', '<', '>', ',', '?', '&', '[', ']']

/-- A name that is one word. -/
def IsWord (s : String) : Prop := s.toList ≠ [] ∧ s.toList.all isWordChar = true

/-- A name of words with dots between them. -/
def IsQualified (s : String) : Prop :=
  s.toList ≠ [] ∧ s.toList.all (fun c => isWordChar c || c == '.') = true

/-- A type that is nothing but words and the marks of types. -/
def IsTypeText (s : String) : Prop :=
  s.toList.all (fun c => isWordChar c || typeMarks.contains c) = true

instance (s : String) : Decidable (IsWord s) := inferInstanceAs (Decidable (_ ∧ _))
instance (s : String) : Decidable (IsQualified s) := inferInstanceAs (Decidable (_ ∧ _))
instance (s : String) : Decidable (IsTypeText s) := inferInstanceAs (Decidable (_ = true))

theorem IsWord.chars {s : String} (h : IsWord s) : ∀ c ∈ s.toList, isWordChar c = true :=
  List.all_eq_true.1 h.2

theorem IsQualified.chars {s : String} (h : IsQualified s) :
    ∀ c ∈ s.toList, isWordChar c = true ∨ c = '.' := by
  simpa using List.all_eq_true.1 h.2

/-- A type variable with a plain name and a plain bound. -/
def TypeParam.Plain (p : TypeParam) : Prop := IsWord p.name ∧ ∀ b ∈ p.bound, IsTypeText b

/-- A method or a constructor with a plain name and plain types. -/
def MethodDecl.Plain (m : MethodDecl) : Prop :=
  (m.name = constructorName ∨ IsWord m.name) ∧ (∀ p ∈ m.typeParams, p.Plain) ∧
    (∀ t ∈ m.params, IsTypeText t) ∧ ∀ t ∈ m.returnType, IsTypeText t

/-- A field with a plain name and a plain type. -/
def FieldDecl.Plain (f : FieldDecl) : Prop := IsWord f.name ∧ IsTypeText f.type

/-- A class with plain names, supertypes, type variables and members. -/
def ClassDecl.Plain (c : ClassDecl) : Prop :=
  IsWord c.name ∧ IsQualified c.sourceName ∧ IsQualified c.binaryName ∧
    (∀ p ∈ c.typeParams, p.Plain) ∧ (∀ t ∈ c.supers, IsTypeText t) ∧
    (∀ f ∈ c.fields, f.Plain) ∧ ∀ m ∈ c.methods, m.Plain

/-- A scope whose package and imports are plain names. -/
def FileScope.Plain (s : FileScope) : Prop :=
  (∀ p ∈ s.package, IsQualified p) ∧ (∀ i ∈ s.singleImports, IsQualified i.2) ∧
    (∀ p ∈ s.onDemandImports, IsQualified p) ∧ (∀ i ∈ s.staticImports, IsQualified i.2) ∧
    ∀ p ∈ s.staticOnDemandImports, IsQualified p

/-- An index whose names and types are all plain. -/
def ClassIndex.Plain (ix : ClassIndex) : Prop :=
  (∀ c ∈ ix.classes, c.Plain) ∧ ∀ s ∈ ix.scopes, s.Plain

instance (p : TypeParam) : Decidable p.Plain := inferInstanceAs (Decidable (_ ∧ _))
instance (m : MethodDecl) : Decidable m.Plain := inferInstanceAs (Decidable (_ ∧ _))
instance (f : FieldDecl) : Decidable f.Plain := inferInstanceAs (Decidable (_ ∧ _))
instance (c : ClassDecl) : Decidable c.Plain := inferInstanceAs (Decidable (_ ∧ _))
instance (s : FileScope) : Decidable s.Plain := inferInstanceAs (Decidable (_ ∧ _))
instance (ix : ClassIndex) : Decidable ix.Plain := inferInstanceAs (Decidable (_ ∧ _))

theorem isBlank_of_isWordChar {c : Char} (h : isWordChar c = true) : isBlank c = false := by
  simp only [isWordChar, Bool.and_eq_true, Bool.not_eq_true'] at h
  exact h.1

/-! ## Characters of erased types -/

namespace Java.TypeText

theorem mem_eraseArguments {n : Nat} {c : Char} {cs : List Char} (h : c ∈ eraseArguments n cs) :
    c ∈ cs := by
  induction cs generalizing n with
  | nil => simp at h
  | cons d cs ih =>
    rw [List.mem_cons]
    unfold eraseArguments at h
    split at h
    · next e => exact absurd e (by simp)
    · next e => cases e; exact .inr (ih h)
    · next e => cases e; exact .inr (ih h)
    · next e =>
      cases e
      split at h
      · rw [List.mem_cons] at h
        exact h.imp_right ih
      · exact .inr (ih h)

theorem mem_replaceEllipsis {sub cs : List Char} {c : Char} (h : c ∈ replaceEllipsis sub cs) :
    c ∈ sub ∨ c ∈ cs := by
  fun_induction replaceEllipsis sub cs with
  | case1 cs ih =>
    rw [List.mem_append] at h
    exact h.elim .inl fun h => (ih h).imp_right fun h => by simp [h]
  | case2 d cs _ ih =>
    rw [List.mem_cons] at h ⊢
    rcases h with rfl | h
    · exact .inr (.inl rfl)
    · exact (ih h).imp_right .inr
  | case3 => simp at h

theorem mem_splitDimensions {cs : List Char} {c : Char} (h : c ∈ (splitDimensions cs).2) :
    c ∈ cs := by
  fun_induction splitDimensions cs with
  | case1 cs n base e ih =>
    simp only [e] at ih
    simp [ih h]
  | case2 cs => simpa using h

theorem mem_erasure {s : String} {c : Char} (h : c ∈ (erasure s).1.toList) :
    c ∈ s.toList ∨ c ∈ ['[', ']'] := by
  simp only [erasure, String.toList_ofList] at h
  have h := mem_splitDimensions h
  rw [List.mem_reverse] at h
  rcases mem_replaceEllipsis h with h | h
  · exact .inr h
  · exact .inl (List.mem_filter.1 (mem_eraseArguments h)).1

end Java.TypeText

theorem FileScope.Plain.singleImport {scope : FileScope} {name imported : String} (h : scope.Plain)
    (e : scope.singleImport? name = some imported) : IsQualified imported := by
  obtain ⟨before, behind, e, -⟩ := List.lookup_eq_some_iff.1 e
  exact h.2.1 (name, imported) (by rw [← List.mem_reverse, e]; simp)

namespace ClassIndex

variable {ix : ClassIndex}

/-- A text of words, marks of types, slashes and semicolons. -/
def IsSpelling (s : String) : Prop :=
  s.toList.all (fun c => isWordChar c || ('/' :: ';' :: typeMarks).contains c) = true

instance (s : String) : Decidable (IsSpelling s) := inferInstanceAs (Decidable (_ = true))

theorem isSpelling_iff {s : String} :
    IsSpelling s ↔ ∀ c ∈ s.toList, isWordChar c = true ∨ c ∈ '/' :: ';' :: typeMarks := by
  simp only [IsSpelling, List.all_eq_true, Bool.or_eq_true, List.contains_iff_mem]

theorem IsSpelling.append {s t : String} (hs : IsSpelling s) (ht : IsSpelling t) :
    IsSpelling (s ++ t) := by
  rw [IsSpelling, String.toList_append, List.all_append, Bool.and_eq_true]
  exact ⟨hs, ht⟩

theorem IsSpelling.of_type {s : String} (h : IsTypeText s) : IsSpelling s := by
  simp only [IsTypeText, List.all_eq_true, Bool.or_eq_true, List.contains_iff_mem] at h
  exact isSpelling_iff.2 fun c hc => (h c hc).imp_right fun h => by simp [h]

theorem IsSpelling.of_qualified {s : String} (h : IsQualified s) : IsSpelling s :=
  isSpelling_iff.2 fun c hc => (h.chars c hc).imp_right fun h => by simp [h, typeMarks]

theorem IsSpelling.internalForm {s : String} (h : IsSpelling s) :
    IsSpelling (InjectionPoints.internalForm s) := by
  rw [isSpelling_iff] at h ⊢
  intro c hc
  simp only [InjectionPoints.internalForm, Selector.internalChars, String.toList_ofList,
    List.mem_map] at hc
  obtain ⟨d, hd, rfl⟩ := hc
  split
  · exact .inr (by simp)
  · exact h d hd

theorem Plain.decl (h : ix.Plain) (c : ix.ClassId) : (ix.decl c).Plain :=
  h.1 _ (List.getElem_mem _)

theorem Plain.scope {file : FileId} {scope : FileScope} (h : ix.Plain)
    (hs : ix.scope? file = some scope) : scope.Plain :=
  h.2 _ (List.mem_of_getElem? hs)

theorem Plain.internalName (h : ix.Plain) (c : ix.ClassId) :
    IsSpelling (ix.decl c).internalName :=
  (IsSpelling.of_qualified (h.decl c).2.2.1).internalForm

theorem Plain.assumedName (h : ix.Plain) (file : FileId) {name : String} (hn : IsSpelling name) :
    IsSpelling (ix.assumedName file name) := by
  unfold ClassIndex.assumedName
  split
  · exact hn
  split
  · next imported e =>
    obtain ⟨scope, hs, e⟩ := Option.bind_eq_some_iff.1 e
    exact .of_qualified ((h.scope hs).singleImport e)
  split
  · exact .append (by decide) hn
  · unfold qualify
    split
    · next package e =>
      obtain ⟨scope, hs, e⟩ := Option.bind_eq_some_iff.1 e
      exact .append (.append (.of_qualified ((h.scope hs).1 package e)) (by decide)) hn
    · exact hn

theorem Plain.internalTypeName (h : ix.Plain) (file : FileId) {name : String}
    (hn : IsSpelling name) : IsSpelling (ix.internalTypeName file name) := by
  unfold ClassIndex.internalTypeName
  split
  · exact h.internalName _
  · exact (h.assumedName file hn).internalForm

theorem primitive?_mem {name descriptor : String} (h : TypeText.primitive? name = some descriptor) :
    descriptor ∈ TypeText.primitives.map Prod.snd := by
  obtain ⟨before, behind, e, -⟩ := List.lookup_eq_some_iff.1 h
  rw [e]
  simp

theorem Plain.baseDescriptor (h : ix.Plain) (file : FileId) {base : String} (hb : IsSpelling base) :
    IsSpelling (ix.baseDescriptor file base) := by
  unfold ClassIndex.baseDescriptor
  split
  · next descriptor e =>
    have : ∀ d ∈ TypeText.primitives.map Prod.snd, IsSpelling d := by decide
    exact this _ (primitive?_mem e)
  · exact .append (.append (by decide) (h.internalTypeName file hb)) (by decide)

theorem IsSpelling.arrayOf {s : String} (n : Nat) (h : IsSpelling s) :
    IsSpelling (ClassIndex.arrayOf n s) := by
  refine .append (isSpelling_iff.2 fun c hc => .inr ?_) h
  rw [String.toList_ofList, List.mem_replicate] at hc
  simp [hc.2, typeMarks]

theorem IsSpelling.erasure {type : String} (h : IsTypeText type) :
    IsSpelling (TypeText.erasure type).1 := by
  rw [isSpelling_iff]
  intro c hc
  rcases TypeText.mem_erasure hc with hc | hc
  · exact isSpelling_iff.1 (IsSpelling.of_type h) c hc
  · refine .inr ?_
    simp only [List.mem_cons, List.not_mem_nil, or_false] at hc
    rcases hc with rfl | rfl <;> simp [typeMarks]

theorem Plain.descriptorWithin (h : ix.Plain) (file : FileId) {n : Nat} {vars : List TypeParam}
    {type : String} (hv : ∀ p ∈ vars, p.Plain) (ht : IsTypeText type) :
    IsSpelling (ix.descriptorWithin file n vars type) := by
  induction n generalizing vars type with
  | zero => exact .arrayOf _ (h.baseDescriptor file (.erasure ht))
  | succ n ih =>
    refine .arrayOf _ ?_
    split
    · exact h.baseDescriptor file (.erasure ht)
    · next i _ =>
      split
      · next bound e =>
        obtain ⟨p, hp, e⟩ := Option.bind_eq_some_iff.1 e
        exact ih (fun q hq => hv q (List.mem_of_mem_eraseIdx hq))
          ((hv p (List.mem_of_getElem? hp)).2 bound e)
      · exact by decide

theorem mem_around {outer : Option Nat} {fuel : Nat} {c : ClassDecl} (h : c ∈ ix.around outer fuel) :
    c ∈ ix.classes := by
  induction fuel generalizing outer with
  | zero => simp [around] at h
  | succ fuel ih =>
    unfold around at h
    split at h
    · next d e =>
      obtain ⟨n, -, e⟩ := Option.bind_eq_some_iff.1 e
      rcases List.mem_cons.1 h with rfl | h
      · exact List.mem_of_getElem? e
      · exact ih h
    · simp at h

theorem Plain.classVariables (h : ix.Plain) (c : ix.ClassId) :
    ∀ p ∈ ix.classVariables c, p.Plain := by
  intro p hp
  simp only [ClassIndex.classVariables, enclosing, List.mem_flatMap, List.mem_cons] at hp
  obtain ⟨d, hd, hp⟩ := hp
  rcases hd with rfl | hd
  · exact (h.decl c).2.2.2.1 p hp
  · exact (h.1 d (mem_around hd)).2.2.2.1 p hp

theorem Plain.fieldDescriptor (h : ix.Plain) (f : ix.FieldId) : IsSpelling (ix.fieldDescriptor f) :=
  h.descriptorWithin _ (h.classVariables f.owner)
    ((h.decl f.owner).2.2.2.2.2.1 _ (List.getElem_mem _)).2

theorem Plain.methodTypeDescriptor (h : ix.Plain) (m : ix.MethodId) {type : String}
    (ht : IsTypeText type) : IsSpelling (ix.methodTypeDescriptor m type) := by
  refine h.descriptorWithin _ (fun p hp => ?_) ht
  rcases List.mem_append.1 hp with hp | hp
  · exact ((h.decl m.owner).2.2.2.2.2.2 _ (List.getElem_mem _)).2.1 p hp
  · exact h.classVariables m.owner p hp

theorem Plain.parameterDescriptors (h : ix.Plain) (m : ix.MethodId) :
    ∀ d ∈ ix.parameterDescriptors m, IsSpelling d := by
  intro d hd
  obtain ⟨type, ht, rfl⟩ := List.mem_map.1 hd
  exact h.methodTypeDescriptor m
    (((h.decl m.owner).2.2.2.2.2.2 _ (List.getElem_mem _)).2.2.1 type ht)

theorem Plain.returnDescriptor (h : ix.Plain) (m : ix.MethodId) :
    IsSpelling (ix.returnDescriptor m) := by
  unfold ClassIndex.returnDescriptor
  split
  · next type e =>
    exact h.methodTypeDescriptor m
      (((h.decl m.owner).2.2.2.2.2.2 _ (List.getElem_mem _)).2.2.2 type e)
  · exact by decide

/-! ## The end of a descriptor -/

/-- A text that ends in something else than white space. -/
def EndsInk (s : String) : Prop := ∃ c, s.toList.getLast? = some c ∧ isBlank c = false

theorem EndsInk.append {s : String} (t : String) (h : EndsInk s) : EndsInk (t ++ s) := by
  obtain ⟨c, hc, hb⟩ := h
  exact ⟨c, by simp [List.getLast?_append, hc], hb⟩

theorem endsInk_baseDescriptor (file : FileId) (base : String) :
    EndsInk (ix.baseDescriptor file base) := by
  unfold baseDescriptor
  split
  · next descriptor e =>
    have : ∀ d ∈ TypeText.primitives.map Prod.snd,
        (d.toList.getLast?.any fun c => !isBlank c) = true := by decide
    have := this _ (primitive?_mem e)
    rw [Option.any_eq_true] at this
    obtain ⟨c, hc, hb⟩ := this
    exact ⟨c, hc, by simpa using hb⟩
  · exact .append _ ⟨';', by decide, by decide⟩

theorem endsInk_descriptorWithin (file : FileId) (n : Nat) (vars : List TypeParam)
    (type : String) : EndsInk (ix.descriptorWithin file n vars type) := by
  induction n generalizing vars type with
  | zero => exact (endsInk_baseDescriptor file _).append _
  | succ n ih =>
    refine EndsInk.append _ ?_
    split
    · exact endsInk_baseDescriptor file _
    · split
      · exact ih _ _
      · exact ⟨';', by decide, by decide⟩

theorem endsInk_methodDescriptor (m : ix.MethodId) : EndsInk (ix.methodDescriptor m) := by
  refine EndsInk.append _ ?_
  unfold returnDescriptor
  split
  · exact endsInk_descriptorWithin _ _ _ _
  · exact ⟨'V', by decide, by decide⟩

end ClassIndex

end InjectionPoints
