/-
The ways in which a value of one type is passed to a parameter of another one. `Converts` lists them,
as far as an index knows about classes; `knownFit_eq_some_iff` says that a type fits a parameter as
well as its way there is good. In particular only the type itself fits best
(`knownFit_eq_three_iff`).
-/
import InjectionPoints.ClassIndex.Overload

namespace InjectionPoints.ClassIndex

/-- How a value comes to be passed to a parameter. -/
inductive Conversion where
  /-- Its type is that of the parameter. -/
  | same
  /-- Its primitive type widens. -/
  | widening
  /-- Its class extends or implements that of the parameter. -/
  | subclass
  /-- The parameter takes any object, or any array. -/
  | general
  /-- It is put into a box, or taken out of one. -/
  | boxing
  /-- Its class is not known to be no subclass. -/
  | possible
deriving DecidableEq

/-- How good a conversion is. -/
def Conversion.fit : Conversion → Nat
  | same => 3
  | widening | subclass => 2
  | general | boxing => 1
  | possible => 0

/-- The descriptor of a class by its internal name. -/
def ofClass (name : String) : String := "L" ++ name ++ ";"

/-- What every array is besides an object. -/
def arraySupertypes : List String := ["Ljava/lang/Cloneable;", "Ljava/io/Serializable;"]

/-- The classes all of whose supertypes outside an index are among `knownSupertypes`. -/
def isFinal (name : String) : Bool :=
  name == "java/lang/String" || boxes.any fun b => b.2 == name

variable (ix : ClassIndex)

/-- The conversions from a type to that of a parameter. Classes are known by their names. -/
inductive Converts : Conversion → String → String → Prop
  | same {type : String} : Converts .same type type
  | widening {p q : String} : q ∈ wider p → Converts .widening p q
  | object {type : String} : isPrimitive type = false → type ≠ objectDescriptor →
      Converts .general type objectDescriptor
  | array {type param : String} : isPrimitive type = false → isArray type = true →
      param ∈ arraySupertypes → Converts .general type param
  | subclass {a b : String} {c : ix.ClassId} : a ≠ b → ofClass b ≠ objectDescriptor →
      ix.byName? a = some c → ix.isSubtype? c b = some true →
        Converts .subclass (ofClass a) (ofClass b)
  | known {a b : String} : ix.byName? a = none → (a, b) ∈ knownSupertypes →
      Converts .subclass (ofClass a) (ofClass b)
  /-- The class is in the index, but some class above it is not. -/
  | undecided {a b : String} {c : ix.ClassId} : a ≠ b → ofClass b ≠ objectDescriptor →
      ix.byName? a = some c → ix.isSubtype? c b = none →
        Converts .possible (ofClass a) (ofClass b)
  /-- Both classes are outside the index. -/
  | unknown {a b : String} : a ≠ b → ofClass b ≠ objectDescriptor → ix.byName? a = none →
      (a, b) ∉ knownSupertypes → isFinal a = false → ix.byName? b = none →
        Converts .possible (ofClass a) (ofClass b)
  | box {p box param : String} {way : Conversion} : box? p = some box →
      isPrimitive param = false → Converts way (ofClass box) param → Converts .boxing p param
  | unbox {type p q : String} : unbox? type = some p → q = p ∨ q ∈ wider p →
      Converts .boxing type q

variable {ix}

/-! ## Descriptors -/

theorem toList_ofClass (name : String) : (ofClass name).toList = 'L' :: (name.toList ++ [';']) := by
  simp [ofClass]

@[simp] theorem classOf?_ofClass (name : String) : classOf? (ofClass name) = some name := by
  simp [classOf?, toList_ofClass]

theorem classOf?_eq_some_iff {descriptor name : String} :
    classOf? descriptor = some name ↔ descriptor = ofClass name := by
  refine ⟨fun h => ?_, fun h => h ▸ classOf?_ofClass name⟩
  unfold classOf? at h
  split at h
  · next cs e =>
    split at h
    · next hlast =>
      obtain ⟨front, rfl⟩ := List.getLast?_eq_some_iff.1 hlast
      obtain rfl : String.ofList front = name := by simpa using h
      rw [← String.toList_inj, e, toList_ofClass, String.toList_ofList]
    · simp at h
  · simp at h

theorem ofClass_inj {a b : String} : ofClass a = ofClass b ↔ a = b := by
  simp [ofClass]

theorem two_le_utf8ByteSize_ofClass (name : String) : 2 ≤ (ofClass name).utf8ByteSize := by
  have h : "L".utf8ByteSize = 1 ∧ ";".utf8ByteSize = 1 := by decide
  rw [ofClass, String.utf8ByteSize_append, String.utf8ByteSize_append]
  omega

@[simp] theorem isPrimitive_ofClass (name : String) : isPrimitive (ofClass name) = false := by
  have h := two_le_utf8ByteSize_ofClass name
  rw [isPrimitive, beq_eq_false_iff_ne]
  omega

@[simp] theorem isArray_ofClass (name : String) : isArray (ofClass name) = false := by
  simp [isArray, ofClass]

theorem isPrimitive_of_mem_wider {p q : String} (h : q ∈ wider p) :
    isPrimitive p = true ∧ isPrimitive q = true ∧ p ≠ q := by
  unfold wider at h
  split at h
  case h_7 => simp at h
  all_goals
    revert q
    decide

theorem isPrimitive_of_box? {p box : String} (h : box? p = some box) : isPrimitive p = true := by
  obtain ⟨before, behind, e, -⟩ := List.lookup_eq_some_iff.1 h
  have hall : ∀ b ∈ boxes, isPrimitive b.1 = true := by decide
  exact hall (p, box) (by rw [e]; simp)

theorem of_unbox? {type p : String} (h : unbox? type = some p) :
    isPrimitive type = false ∧ isPrimitive p = true := by
  obtain ⟨name, hname, h⟩ := Option.bind_eq_some_iff.1 h
  obtain ⟨b, hb, rfl⟩ := Option.map_eq_some_iff.1 h
  have hall : ∀ b ∈ boxes, isPrimitive b.1 = true := by decide
  rw [classOf?_eq_some_iff.1 hname]
  exact ⟨isPrimitive_ofClass name, hall b (List.mem_of_find?_eq_some hb)⟩

/-! ## Fits of reference types -/

theorem objectDescriptor_eq : objectDescriptor = ofClass "java/lang/Object" := by decide

theorem referenceFit_object (type : String) : ix.referenceFit type objectDescriptor = some 1 := by
  simp [referenceFit]

theorem of_mem_arraySupertypes {param : String} (h : param ∈ arraySupertypes) :
    param ≠ objectDescriptor ∧ isArray param = false ∧ isPrimitive param = false := by
  have hall : ∀ s ∈ arraySupertypes,
      s ≠ objectDescriptor ∧ isArray s = false ∧ isPrimitive s = false := by decide
  exact hall param h

theorem referenceFit_array {type param : String} (ht : isArray type = true)
    (hp : param ∈ arraySupertypes) : ix.referenceFit type param = some 1 := by
  obtain ⟨hne, -⟩ := of_mem_arraySupertypes hp
  simp only [arraySupertypes, List.mem_cons, List.not_mem_nil, or_false] at hp
  simp [referenceFit, hne, ht, hp]

/-- How a class fits another one. -/
theorem referenceFit_ofClass {a b : String} (hab : a ≠ b) (hb : ofClass b ≠ objectDescriptor) :
    ix.referenceFit (ofClass a) (ofClass b) =
      match ix.byName? a with
      | some c =>
        match ix.isSubtype? c b with
        | some true => some 2
        | some false => none
        | none => some 0
      | none =>
        if knownSupertypes.contains (a, b) then some 2
        else if isFinal a then none
        else if (ix.byName? b).isSome then none
        else some 0 := by
  simp only [referenceFit, isArray_ofClass, classOf?_ofClass, beq_iff_eq, hb, hab, Bool.or_self,
    Bool.false_eq_true, if_false]
  rfl

/-- A reference type that fits another one is converted to it. -/
theorem exists_converts_of_referenceFit {type param : String} {n : Nat} (hne : type ≠ param)
    (ht : isPrimitive type = false) (h : ix.referenceFit type param = some n) :
    ∃ way, ix.Converts way type param ∧ way.fit = n := by
  by_cases hobject : param = objectDescriptor
  · subst hobject
    rw [referenceFit_object] at h
    exact ⟨.general, .object ht hne, Option.some.inj h⟩
  by_cases harray : isArray type = true ∨ isArray param = true
  · unfold referenceFit at h
    rw [if_neg (by simpa using hobject), if_pos (by simpa using harray)] at h
    split at h
    · next hsuper =>
      simp only [Bool.and_eq_true, Bool.or_eq_true, beq_iff_eq] at hsuper
      exact ⟨.general, .array ht hsuper.1 (by simpa [arraySupertypes] using hsuper.2), Option.some.inj h⟩
    · simp at h
  -- Both are classes now: descriptors of anything else do not fit.
  · have hclasses : ∃ a b, type = ofClass a ∧ param = ofClass b := by
      unfold referenceFit at h
      rw [if_neg (by simpa using hobject), if_neg (by simpa using harray)] at h
      split at h
      · next a b ha hb => exact ⟨a, b, classOf?_eq_some_iff.1 ha, classOf?_eq_some_iff.1 hb⟩
      · simp at h
    obtain ⟨a, b, rfl, rfl⟩ := hclasses
    have hab : a ≠ b := fun e => hne (e ▸ rfl)
    rw [referenceFit_ofClass hab hobject] at h
    split at h
    · next c hc =>
      split at h
      · next hsub => exact ⟨.subclass, .subclass hab hobject hc hsub, Option.some.inj h⟩
      · simp at h
      · next hsub => exact ⟨.possible, .undecided hab hobject hc hsub, Option.some.inj h⟩
    · next hc =>
      split at h
      · next hknown =>
        exact ⟨.subclass, .known hc (List.contains_iff_mem.1 hknown), Option.some.inj h⟩
      · next hknown =>
        split at h
        · simp at h
        · next hfinal =>
          split at h
          · simp at h
          · next hb =>
            exact ⟨.possible, .unknown hab hobject hc (fun hm => hknown (List.contains_iff_mem.2 hm))
              (by simpa using hfinal) (by simpa using hb), Option.some.inj h⟩

/-! ## Fits of all types -/

theorem knownFit_same (type : String) : ix.knownFit type type = some 3 := by
  simp [knownFit]

/-- Between different reference types. -/
theorem knownFit_reference {type param : String} (hne : type ≠ param)
    (ht : isPrimitive type = false) (hp : isPrimitive param = false) :
    ix.knownFit type param = ix.referenceFit type param := by
  simp [knownFit, hne, ht, hp]

theorem knownFit_known {a b : String} (ha : ix.byName? a = none) (hm : (a, b) ∈ knownSupertypes) :
    ix.knownFit (ofClass a) (ofClass b) = some 2 := by
  have hall : ∀ s ∈ knownSupertypes, s.1 ≠ s.2 ∧ ofClass s.2 ≠ objectDescriptor := by decide
  obtain ⟨hab, hb⟩ := hall (a, b) hm
  rw [knownFit_reference (fun e => hab (ofClass_inj.1 e)) (isPrimitive_ofClass a)
    (isPrimitive_ofClass b), referenceFit_ofClass hab hb, ha]
  simp [hm]

/-- A primitive type fits a reference type if its box does. -/
theorem knownFit_box {p box param : String} (hbox : box? p = some box)
    (hp : isPrimitive param = false) :
    ix.knownFit p param = if (ix.knownFit (ofClass box) param).isSome then some 1 else none := by
  have hne : p ≠ param := by
    rintro rfl
    simp [isPrimitive_of_box? hbox] at hp
  have hunfold : ix.knownFit p param =
      if ofClass box == param || (ix.referenceFit (ofClass box) param).isSome then some 1
      else none := by
    simp only [knownFit, beq_iff_eq, hne, isPrimitive_of_box? hbox, hp, hbox, if_true, if_false,
      Bool.false_eq_true, Option.bind_some]
    rfl
  rw [hunfold]
  by_cases hsame : ofClass box = param
  · subst hsame
    simp [knownFit_same]
  · rw [knownFit_reference hsame (isPrimitive_ofClass box) hp]
    simp [hsame]

/-- A reference type fits a primitive type if what it boxes does. -/
theorem knownFit_unbox {type p q : String} (h : unbox? type = some p) (hq : isPrimitive q = true) :
    ix.knownFit type q = if q = p ∨ q ∈ wider p then some 1 else none := by
  have hne : type ≠ q := by
    rintro rfl
    simp [(of_unbox? h).1] at hq
  simp [knownFit, hne, (of_unbox? h).1, hq, h, eq_comm (a := q)]

/-- A type fits as well as the conversion is good. -/
theorem Converts.knownFit {way : Conversion} {type param : String}
    (h : ix.Converts way type param) : ix.knownFit type param = some way.fit := by
  induction h with
  | same => exact knownFit_same _
  | widening hq =>
    obtain ⟨hp, hq', hne⟩ := isPrimitive_of_mem_wider hq
    simp [ClassIndex.knownFit, hne, hp, hq', hq, Conversion.fit]
  | object ht hne => rw [knownFit_reference hne ht (by decide), referenceFit_object]; rfl
  | @array type param ht harray hp =>
    obtain ⟨-, hnot, hprim⟩ := of_mem_arraySupertypes hp
    have hne : type ≠ param := by
      rintro rfl
      simp [hnot] at harray
    rw [knownFit_reference hne ht hprim, referenceFit_array harray hp]
    rfl
  | subclass hab hb hc hsub =>
    rw [knownFit_reference (fun e => hab (ofClass_inj.1 e)) (isPrimitive_ofClass _)
      (isPrimitive_ofClass _), referenceFit_ofClass hab hb]
    simp [hc, hsub, Conversion.fit]
  | known ha hm => exact knownFit_known ha hm
  | undecided hab hb hc hsub =>
    rw [knownFit_reference (fun e => hab (ofClass_inj.1 e)) (isPrimitive_ofClass _)
      (isPrimitive_ofClass _), referenceFit_ofClass hab hb]
    simp [hc, hsub, Conversion.fit]
  | unknown hab hb ha hm hfinal hnone =>
    rw [knownFit_reference (fun e => hab (ofClass_inj.1 e)) (isPrimitive_ofClass _)
      (isPrimitive_ofClass _), referenceFit_ofClass hab hb]
    simp [ha, hm, hfinal, hnone, Conversion.fit]
  | box hbox hp _ ih => rw [knownFit_box hbox hp, ih]; rfl
  | unbox hunbox hq =>
    have hprim : isPrimitive _ = true := hq.elim (fun e => e ▸ (of_unbox? hunbox).2)
      fun hm => (isPrimitive_of_mem_wider hm).2.1
    rw [knownFit_unbox hunbox hprim, if_pos hq]
    rfl

/-- A reference type that fits is converted in some way. -/
theorem exists_converts_of_reference {type param : String} {n : Nat}
    (ht : isPrimitive type = false) (h : ix.knownFit type param = some n) :
    ∃ way, ix.Converts way type param ∧ way.fit = n := by
  by_cases hsame : type = param
  · subst hsame
    rw [knownFit_same] at h
    exact ⟨.same, .same, Option.some.inj h⟩
  cases hp : isPrimitive param with
  | true =>
    cases hunbox : unbox? type with
    | none => simp [knownFit, hsame, ht, hp, hunbox] at h
    | some p =>
      rw [knownFit_unbox hunbox hp] at h
      split at h
      · next hq => exact ⟨.boxing, .unbox hunbox hq, Option.some.inj h⟩
      · simp at h
  | false =>
    rw [knownFit_reference hsame ht hp] at h
    exact exists_converts_of_referenceFit hsame ht h

/-- A primitive type that fits is converted in some way. -/
theorem exists_converts_of_primitive {type param : String} {n : Nat}
    (ht : isPrimitive type = true) (h : ix.knownFit type param = some n) :
    ∃ way, ix.Converts way type param ∧ way.fit = n := by
  by_cases hsame : type = param
  · subst hsame
    rw [knownFit_same] at h
    exact ⟨.same, .same, Option.some.inj h⟩
  cases hp : isPrimitive param with
  | true =>
    simp only [knownFit, beq_iff_eq, hsame, ht, hp, if_true, if_false] at h
    split at h
    · next hm => exact ⟨.widening, .widening (List.contains_iff_mem.1 hm), Option.some.inj h⟩
    · simp at h
  | false =>
    cases hbox : box? type with
    | none => simp [knownFit, hsame, ht, hp, hbox] at h
    | some box =>
      rw [knownFit_box hbox hp] at h
      split at h
      · next hfits =>
        obtain ⟨fit, hfit⟩ := Option.isSome_iff_exists.1 hfits
        obtain ⟨way, hway, -⟩ := exists_converts_of_reference (isPrimitive_ofClass box) hfit
        exact ⟨.boxing, .box hbox hp hway, Option.some.inj h⟩
      · simp at h

theorem knownFit_eq_some_iff {type param : String} {n : Nat} :
    ix.knownFit type param = some n ↔ ∃ way, ix.Converts way type param ∧ way.fit = n := by
  constructor
  · intro h
    cases ht : isPrimitive type with
    | true => exact exists_converts_of_primitive ht h
    | false => exact exists_converts_of_reference ht h
  · rintro ⟨way, h, rfl⟩
    exact h.knownFit

theorem knownFit_le_three {type param : String} {n : Nat} (h : ix.knownFit type param = some n) :
    n ≤ 3 := by
  obtain ⟨way, -, rfl⟩ := knownFit_eq_some_iff.1 h
  cases way <;> decide

theorem knownFit_eq_three_iff {type param : String} :
    ix.knownFit type param = some 3 ↔ type = param := by
  refine ⟨fun h => ?_, fun h => h ▸ knownFit_same type⟩
  obtain ⟨way, hway, hthree⟩ := knownFit_eq_some_iff.1 h
  cases hway with
  | same => rfl
  | widening | object | array | subclass | known | undecided | unknown | box | unbox =>
    exact absurd hthree (by decide)

end InjectionPoints.ClassIndex
