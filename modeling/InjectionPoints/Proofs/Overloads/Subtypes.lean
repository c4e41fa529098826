/-
Arguments that are passed as supertypes of theirs. A class of the index takes the place of one of its
supertypes as long as its name leads back to it (`Upcast.upheld_of_byName?`). Arrays of it do not:
between arrays only the same type fits (`isSome_knownFit_arrayOf`). `upcast_isSome_iff` says
exactly when such an argument is accepted, and what becomes of candidates that take such arguments;
`dogs_are_no_animals` is an array that is refused.
-/
import Mathlib.Tactic.ByContra
import Mathlib.Tactic.Push
import InjectionPoints.Proofs.Hierarchy.SubtypeAnswers
import InjectionPoints.Proofs.Overloads.Ranking
import InjectionPoints.Workspace

namespace InjectionPoints.ClassIndex

open ArgumentType

variable {ix : ClassIndex}

/-! ## Supertypes -/

theorem isSubtype?_of_mem {c d : ix.ClassId} (h : d ∈ ix.supertypes c) :
    ix.isSubtype? c (ix.decl d).internalName = some true :=
  subtypeAmong_eq_some_true_iff.2 ⟨d, h, .inl rfl⟩

variable (ix) in
/-- Nothing that is found under the names speaks against a class being a subclass of another. -/
def MayExtend (a b : String) : Prop :=
  match ix.byName? a with
  | some c => ix.isSubtype? c b ≠ some false
  | none => (a, b) ∈ knownSupertypes ∨ isFinal a = false ∧ ix.byName? b = none

theorem isSome_knownFit_ofClass {a b : String} : (ix.knownFit (ofClass a) (ofClass b)).isSome ↔
    a = b ∨ b = "java/lang/Object" ∨ ix.MayExtend a b := by
  by_cases hab : a = b
  · simp [hab, knownFit_same]
  have hne : ofClass a ≠ ofClass b := fun e => hab (ofClass_inj.1 e)
  rw [knownFit_reference hne (isPrimitive_ofClass a) (isPrimitive_ofClass b)]
  by_cases hobject : b = "java/lang/Object"
  · rw [hobject, ← objectDescriptor_eq, referenceFit_object]
    simp
  rw [referenceFit_ofClass hab (by rwa [objectDescriptor_eq, ne_eq, ofClass_inj])]
  simp only [hab, hobject, false_or, MayExtend]
  cases ix.byName? a with
  | some c => rcases h : ix.isSubtype? c b with _ | _ | _ <;> simp [h]
  | none =>
    by_cases hknown : (a, b) ∈ knownSupertypes
    · simp [hknown]
    · cases isFinal a <;> cases ix.byName? b <;> simp [hknown]

/-! ## Arrays -/

theorem arrayOf_zero (descriptor : String) : arrayOf 0 descriptor = descriptor := by
  simp [arrayOf]

theorem arrayOf_succ (n : Nat) (descriptor : String) :
    (arrayOf (n + 1) descriptor).toList = '[' :: (arrayOf n descriptor).toList := by
  simp [arrayOf, List.replicate_succ]

theorem arrayOf_inj {n : Nat} {a b : String} : arrayOf n a = arrayOf n b ↔ a = b := by
  simp [arrayOf]

theorem isPrimitive_arrayOf (n : Nat) (name : String) :
    isPrimitive (arrayOf n (ofClass name)) = false := by
  have h := two_le_utf8ByteSize_ofClass name
  rw [isPrimitive, beq_eq_false_iff_ne, arrayOf, String.utf8ByteSize_append]
  omega

/-- Between arrays of classes only the same type fits. -/
theorem isSome_knownFit_arrayOf {n : Nat} {a b : String} :
    (ix.knownFit (arrayOf (n + 1) (ofClass a)) (arrayOf (n + 1) (ofClass b))).isSome ↔ a = b := by
  by_cases hab : a = b
  · simp [hab, knownFit_same]
  have hne : arrayOf (n + 1) (ofClass a) ≠ arrayOf (n + 1) (ofClass b) := fun e =>
    hab (ofClass_inj.1 (arrayOf_inj.1 e))
  rw [knownFit_reference hne (isPrimitive_arrayOf _ a) (isPrimitive_arrayOf _ b)]
  have hsuper : arrayOf (n + 1) (ofClass b) ∉ objectDescriptor :: arraySupertypes := by
    intro hmem
    have hall : ∀ s ∈ objectDescriptor :: arraySupertypes, s.toList.head? ≠ some '[' := by decide
    exact hall _ hmem (by rw [arrayOf_succ, List.head?_cons])
  simp only [arraySupertypes, List.mem_cons, List.not_mem_nil, or_false, not_or] at hsuper
  simp [referenceFit, hsuper, isArray, arrayOf_succ, hab]

/-! ## Arguments of a subtype -/

/-- A class or an array of it, to be passed as a supertype or as an array of that. -/
structure Upcast (ix : ClassIndex) where
  lower : ix.ClassId
  upper : ix.ClassId
  isSupertype : upper ∈ ix.supertypes lower
  dimensions : Nat

namespace Upcast

variable (u : Upcast ix)

def lowerName : String := (ix.decl u.lower).internalName

def upperName : String := (ix.decl u.upper).internalName

/-- The type of the argument. -/
def source : String := arrayOf u.dimensions (ofClass u.lowerName)

/-- The type of the parameter. -/
def target : String := arrayOf u.dimensions (ofClass u.upperName)

/-- The argument has the type of the parameter, or it is no array and either an `Object` is asked for
or the index sees the class under its name. -/
def Upheld : Prop :=
  u.lowerName = u.upperName ∨
    u.dimensions = 0 ∧ (u.upperName = "java/lang/Object" ∨ ix.MayExtend u.lowerName u.upperName)

theorem isSome_fit_iff : (ix.fit (.known u.source) u.target).isSome ↔ u.Upheld := by
  unfold source target Upheld
  cases u.dimensions with
  | zero =>
    rw [arrayOf_zero, arrayOf_zero]
    simpa [fit] using isSome_knownFit_ofClass
  | succ n => simpa [fit] using isSome_knownFit_arrayOf

/-- A class whose name leads back to it is accepted as each of its supertypes. -/
theorem upheld_of_byName? (hd : u.dimensions = 0) (h : ix.byName? u.lowerName = some u.lower) :
    u.Upheld := by
  refine .inr ⟨hd, .inr ?_⟩
  simp [MayExtend, h, upperName, isSubtype?_of_mem u.isSupertype]

end Upcast

/-! ## Candidates -/

variable {m : ix.MethodId} {uses : List (Upcast ix)}

/-- The arguments of a call, each to be passed as a supertype. -/
def upcastArguments (uses : List (Upcast ix)) : List ArgumentType :=
  uses.map fun u => .known u.source

/-- Where the argument stands, the candidate asks for the supertype. -/
theorem takenAs?_of_upcast (hparams : ix.parameterDescriptors m = uses.map Upcast.target) {i : Nat}
    {u : Upcast ix} (hi : uses[i]? = some u) (h : (ix.method m).varargs = false ∨ u.Upheld) :
    ix.takenAs? m (upcastArguments uses).length i (.known u.source) = some u.target := by
  have hlength : (upcastArguments uses).length = (ix.parameterDescriptors m).length := by
    rw [hparams, upcastArguments, List.length_map, List.length_map]
  have hparam : (ix.parameterDescriptors m)[i]? = some u.target := by
    rw [hparams, List.getElem?_map, hi, Option.map_some]
  exact takenAs?_of_getElem? hlength hparam (h.imp_right u.isSome_fit_iff.2)

/-- A candidate takes all arguments that are upheld. -/
theorem isSome_applicability_of_upheld (hparams : ix.parameterDescriptors m = uses.map Upcast.target)
    (h : ∀ u ∈ uses, u.Upheld) : (ix.applicability m (upcastArguments uses)).isSome := by
  rw [applicability_isSome_iff]
  intro i arg hi
  rw [upcastArguments, List.getElem?_map, Option.map_eq_some_iff] at hi
  obtain ⟨u, hu, rfl⟩ := hi
  have hupheld := h u (List.mem_of_getElem? hu)
  rw [takenAs?_of_upcast hparams hu (.inr hupheld), Option.bind_some]
  exact u.isSome_fit_iff.2 hupheld

/-- A candidate of fixed arity takes no other arguments. -/
theorem upheld_of_isSome_applicability (hfixed : (ix.method m).varargs = false)
    (hparams : ix.parameterDescriptors m = uses.map Upcast.target)
    (h : (ix.applicability m (upcastArguments uses)).isSome) : ∀ u ∈ uses, u.Upheld := by
  intro u hu
  obtain ⟨i, hi⟩ := List.getElem?_of_mem hu
  have harg : (upcastArguments uses)[i]? = some (.known u.source) := by
    rw [upcastArguments, List.getElem?_map, hi, Option.map_some]
  have htakes := applicability_isSome_iff.1 h i _ harg
  rw [takenAs?_of_upcast hparams hi (.inl hfixed), Option.bind_some] at htakes
  exact u.isSome_fit_iff.1 htakes

/-- A class, or an array, is accepted as a supertype of it exactly if it is upheld; a class whose
name leads back to it is. A candidate with such parameters takes all arguments if they are upheld,
and is left out only for a greater total; one of fixed arity takes no others, and is then left out
whenever some candidate takes them. -/
theorem upcast_isSome_iff (ix : ClassIndex) :
    (∀ u : Upcast ix, (ix.fit (.known u.source) u.target).isSome ↔ u.Upheld) ∧
    (∀ u : Upcast ix, u.dimensions = 0 → ix.byName? u.lowerName = some u.lower → u.Upheld) ∧
    ∀ (m : ix.MethodId) (uses : List (Upcast ix)),
      ix.parameterDescriptors m = uses.map Upcast.target →
      ((∀ u ∈ uses, u.Upheld) → ∀ candidates, m ∈ candidates →
        ∃ total, ix.applicability m (upcastArguments uses) = some total ∧
          (m ∈ ix.bestOverloads candidates (upcastArguments uses) ∨ ∃ n ∈ candidates, ∃ other,
            ix.applicability n (upcastArguments uses) = some other ∧ total < other)) ∧
      ((ix.method m).varargs = false → (∃ u ∈ uses, ¬u.Upheld) →
        ix.applicability m (upcastArguments uses) = none ∧
          ∀ candidates, (∃ n ∈ candidates, (ix.applicability n (upcastArguments uses)).isSome) →
            m ∉ ix.bestOverloads candidates (upcastArguments uses)) := by
  refine ⟨Upcast.isSome_fit_iff, fun u => u.upheld_of_byName?, fun m uses hparams =>
    ⟨fun hall candidates hm => ?_, fun hfixed hrefused => ?_⟩⟩
  · have hsome := isSome_applicability_of_upheld hparams hall
    obtain ⟨total, htotal⟩ := Option.isSome_iff_exists.1 hsome
    refine ⟨total, htotal, ?_⟩
    by_contra hleft
    push Not at hleft
    exact hleft.1 ((mem_bestOverloads_iff ⟨m, hm, hsome⟩).2 ⟨hm, total, htotal, hleft.2⟩)
  · obtain ⟨u, hu, hnot⟩ := hrefused
    have hnone : ix.applicability m (upcastArguments uses) = none := by
      rw [← Option.not_isSome_iff_eq_none]
      exact fun h => hnot (upheld_of_isSome_applicability hfixed hparams h u hu)
    refine ⟨hnone, fun candidates hsome hm => ?_⟩
    obtain ⟨-, total, htotal, -⟩ := (mem_bestOverloads_iff hsome).1 hm
    simp [hnone] at htotal

/-! ## An array that is refused -/

def dogIndex : ClassIndex :=
  (Workspace.empty.addFile "A.java" "class Animal\x7b\x7dclass Dog extends Animal\x7b\x7d").index

/-- Every dog is an animal, but an array of dogs is refused where one of animals is asked for. -/
theorem dogs_are_no_animals : ¬∀ (ix : ClassIndex) (c d : ix.ClassId), d ∈ ix.supertypes c →
    ∀ k, (ix.fit (.known (arrayOf k (ofClass (ix.decl c).internalName)))
      (arrayOf k (ofClass (ix.decl d).internalName))).isSome := by
  intro hall
  have hrun : ∃ (animal : 0 < dogIndex.classes.length) (dog : 1 < dogIndex.classes.length),
      ⟨0, animal⟩ ∈ dogIndex.supertypes ⟨1, dog⟩ ∧
        dogIndex.fit (.known (arrayOf 1 (ofClass (dogIndex.decl ⟨1, dog⟩).internalName)))
          (arrayOf 1 (ofClass (dogIndex.decl ⟨0, animal⟩).internalName)) = none := by
    decide +kernel
  obtain ⟨animal, dog, hsuper, hnone⟩ := hrun
  simpa [hnone] using hall dogIndex _ _ hsuper 1

end InjectionPoints.ClassIndex
