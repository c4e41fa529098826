/-
Whether a class is a subtype of another: a question with three answers. It is affirmed for the names
that the class and its supertypes bear, also those of supertypes outside the index (`Bears`); it is
denied for other names where all supertypes are in the index; and it is left open where some are not.
All of this depends on which classes the walk meets, not on their order: `isSubtype?_answers`.
-/
import InjectionPoints.ClassIndex.Overload
import InjectionPoints.Proofs.Hierarchy.Supertypes
import InjectionPoints.Workspace

namespace InjectionPoints.ClassIndex

open Java

variable (ix : ClassIndex)

/-- The supertypes that a class declares and that are not in the index, as they are written. -/
def absentSupers (d : ix.ClassId) : List String :=
  (ix.decl d).supers.filter fun type => (ix.resolve? (ix.decl d).file type).isNone

/-- A class has the internal name, or it declares a supertype outside the index that is spelled so in
its file. -/
def Bears (d : ix.ClassId) (internal : String) : Prop :=
  (ix.decl d).internalName = internal ∨ ∃ type ∈ ix.absentSupers d,
    ix.internalTypeName (ix.decl d).file (TypeText.erasedName type) = internal

/-- All supertypes that a class declares are in the index. -/
def Closed (d : ix.ClassId) : Prop :=
  ∀ type ∈ (ix.decl d).supers, (ix.resolve? (ix.decl d).file type).isSome = true

instance (d : ix.ClassId) (internal : String) : Decidable (ix.Bears d internal) :=
  inferInstanceAs (Decidable (_ ∨ _))

instance (d : ix.ClassId) : Decidable (ix.Closed d) := inferInstanceAs (Decidable (∀ _ ∈ _, _))

variable {ix} {d : ix.ClassId} {ds ds' : List ix.ClassId} {internal : String} {unknown : Bool}

theorem absentSupers_eq_nil_iff : ix.absentSupers d = [] ↔ ix.Closed d := by
  simp [absentSupers, Closed, List.filter_eq_nil_iff, Option.isSome_iff_ne_none]

/-! ## One class, and all that are met -/

/-- The first class that bears the name settles the question; one that does not only adds to what is
unknown. -/
theorem subtypeAmong_cons : ix.subtypeAmong internal unknown (d :: ds) =
    if ix.Bears d internal then some true
    else ix.subtypeAmong internal (unknown || !(ix.absentSupers d).isEmpty) ds := by
  simp only [subtypeAmong, absentSupers, List.any_eq_true, beq_iff_eq, Bears]
  by_cases hname : (ix.decl d).internalName = internal <;>
    simp only [hname, true_or, false_or, if_true, if_false]

theorem subtypeAmong_eq_some_true_iff :
    ix.subtypeAmong internal unknown ds = some true ↔ ∃ d ∈ ds, ix.Bears d internal := by
  induction ds generalizing unknown with
  | nil => cases unknown <;> simp [subtypeAmong]
  | cons d ds ih =>
    rw [subtypeAmong_cons, List.exists_mem_cons_iff]
    split
    · next h => simp [h]
    · next h => rw [ih, or_iff_right h]

theorem subtypeAmong_eq_none_iff : ix.subtypeAmong internal unknown ds = none ↔
    (¬∃ d ∈ ds, ix.Bears d internal) ∧ (unknown = true ∨ ¬∀ d ∈ ds, ix.Closed d) := by
  induction ds generalizing unknown with
  | nil => cases unknown <;> simp [subtypeAmong]
  | cons d ds ih =>
    rw [subtypeAmong_cons, List.exists_mem_cons_iff, List.forall_mem_cons]
    split
    · next h => simp [h]
    · next h =>
      have hunknown : (unknown || !(ix.absentSupers d).isEmpty) = true ↔
          unknown = true ∨ ¬ix.Closed d := by
        simp [← absentSupers_eq_nil_iff]
      rw [ih, hunknown, or_iff_right h, or_assoc, not_and_or]

theorem subtypeAmong_eq_some_false_iff : ix.subtypeAmong internal unknown ds = some false ↔
    (¬∃ d ∈ ds, ix.Bears d internal) ∧ unknown = false ∧ ∀ d ∈ ds, ix.Closed d := by
  have hrest : ix.subtypeAmong internal unknown ds = some false ↔
      ix.subtypeAmong internal unknown ds ≠ some true ∧
        ix.subtypeAmong internal unknown ds ≠ none := by
    rcases ix.subtypeAmong internal unknown ds with _ | _ | _ <;> simp
  rw [hrest, ne_eq, subtypeAmong_eq_some_true_iff, ne_eq, subtypeAmong_eq_none_iff]
  refine and_congr_right fun hnames => ?_
  rw [and_iff_right hnames, not_or, not_not, Bool.not_eq_true]

/-- What is answered depends only on which classes are met. -/
theorem subtypeAmong_congr (h : ∀ d, d ∈ ds ↔ d ∈ ds') :
    ix.subtypeAmong internal unknown ds = ix.subtypeAmong internal unknown ds' := by
  refine Option.ext fun answer => ?_
  cases answer with
  | true => simp only [subtypeAmong_eq_some_true_iff, h]
  | false => simp only [subtypeAmong_eq_some_false_iff, h]

/-! ## The three answers -/

/-- The answer is yes exactly if the class or one of its supertypes has the internal name, or declares
a supertype outside the index that is spelled so; it is no exactly if this is not so and every
supertype that one of them declares is in the index; and otherwise there is none. Any walk that meets
exactly what can be reached gives the same answer, whatever its order and however often it meets a
class. -/
theorem isSubtype?_answers (ix : ClassIndex) (c : ix.ClassId) (internal : String) :
    (ix.isSubtype? c internal = some true ↔ ∃ d ∈ ix.supertypes c, ix.Bears d internal) ∧
    (ix.isSubtype? c internal = some false ↔
      (¬∃ d ∈ ix.supertypes c, ix.Bears d internal) ∧ ∀ d ∈ ix.supertypes c, ix.Closed d) ∧
    (ix.isSubtype? c internal = none ↔
      (¬∃ d ∈ ix.supertypes c, ix.Bears d internal) ∧ ¬∀ d ∈ ix.supertypes c, ix.Closed d) ∧
    ∀ walk : List ix.ClassId, (∀ d, d ∈ walk ↔ ∃ n, InSteps ix.parents c n d) →
      ix.subtypeAmong internal false walk = ix.isSubtype? c internal := by
  refine ⟨subtypeAmong_eq_some_true_iff, ?_, ?_, fun walk hwalk => subtypeAmong_congr fun d => ?_⟩
  · rw [isSubtype?, subtypeAmong_eq_some_false_iff, eq_self, true_and]
  · rw [isSubtype?, subtypeAmong_eq_none_iff, or_iff_right Bool.false_ne_true]
  · rw [hwalk, (ix.supertypes_isWalk c).mem_iff]

/-! ### A cycle with a way out of the index -/

/-- `A` and `B` extend each other; `I`, which `A` implements, extends an interface that is not in the
index. -/
def wayOutText : String :=
  "class A extends B implements I\x7b\x7d class B extends A implements J\x7b\x7d" ++
    "interface I extends gone.K\x7b\x7d interface J\x7b\x7d"

def wayOutIndex : ClassIndex := (Workspace.empty.addFile "A.java" wayOutText).index

theorem length_wayOutIndex : wayOutIndex.classes.length = 4 := by
  decide +kernel

def wayOutClass (n : Fin 4) : wayOutIndex.ClassId := n.cast length_wayOutIndex.symm

/-- Depth first, the interface of `B` is met before that of `A`. -/
theorem isSubtype?_answers_wayOut :
    (∀ d, d ∈ [wayOutClass 0, wayOutClass 1, wayOutClass 3, wayOutClass 2] ↔
      ∃ n, InSteps wayOutIndex.parents (wayOutClass 0) n d) ∧
    wayOutIndex.supertypes (wayOutClass 0) =
      [wayOutClass 0, wayOutClass 1, wayOutClass 2, wayOutClass 3] ∧
    wayOutIndex.subtypeAmong "gone/K" false
      [wayOutClass 0, wayOutClass 1, wayOutClass 3, wayOutClass 2] = some true ∧
    wayOutIndex.isSubtype? (wayOutClass 0) "L" = none ∧
    wayOutIndex.isSubtype? (wayOutClass 3) "L" = some false := by
  obtain ⟨hwalk, hbears, hleftOpen, hdenied⟩ :
      wayOutIndex.supertypes (wayOutClass 0) =
        [wayOutClass 0, wayOutClass 1, wayOutClass 2, wayOutClass 3] ∧
      (∃ d ∈ wayOutIndex.supertypes (wayOutClass 0), wayOutIndex.Bears d "gone/K") ∧
      ((¬∃ d ∈ wayOutIndex.supertypes (wayOutClass 0), wayOutIndex.Bears d "L") ∧
        ¬∀ d ∈ wayOutIndex.supertypes (wayOutClass 0), wayOutIndex.Closed d) ∧
      (¬∃ d ∈ wayOutIndex.supertypes (wayOutClass 3), wayOutIndex.Bears d "L") ∧
        ∀ d ∈ wayOutIndex.supertypes (wayOutClass 3), wayOutIndex.Closed d := by
    decide +kernel
  have hsame : ∀ d, d ∈ [wayOutClass 0, wayOutClass 1, wayOutClass 3, wayOutClass 2] ↔
      ∃ n, InSteps wayOutIndex.parents (wayOutClass 0) n d := by
    intro d
    rw [← (wayOutIndex.supertypes_isWalk (wayOutClass 0)).mem_iff, hwalk]
    exact (((List.Perm.swap _ _ _).cons _).cons _).mem_iff
  obtain ⟨hyes, -, -, horder⟩ := isSubtype?_answers wayOutIndex (wayOutClass 0) "gone/K"
  obtain ⟨-, -, hopen, -⟩ := isSubtype?_answers wayOutIndex (wayOutClass 0) "L"
  obtain ⟨-, hno, -⟩ := isSubtype?_answers wayOutIndex (wayOutClass 3) "L"
  exact ⟨hsame, hwalk, (horder _ hsame).trans (hyes.2 hbears), hopen.2 hleftOpen, hno.2 hdenied⟩

end InjectionPoints.ClassIndex
