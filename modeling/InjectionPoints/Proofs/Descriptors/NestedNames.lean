/-
The simple name of a class, written as a type. A file looks a simple name up among all its classes, at
any depth and in the order of the text, whichever class the name is written in. So inside a class the
name of a class nested in it stands for that class only if the file declares no class of the same name
before (`descriptor_of_simpleName`).
-/
import InjectionPoints.Proofs.ClassNames
import InjectionPoints.Proofs.Descriptors.Resolution

namespace InjectionPoints

open Java Text TypeText

namespace ClassIndex

variable {ix : ClassIndex} {file : FileId} {c d : ix.ClassId} {vars : List TypeParam}
  {type name descriptor : String}

/-- A field, a parameter or a result of a class has a type that is written as `type` where `vars` are
in scope, and has this descriptor. -/
inductive Writes (ix : ClassIndex) (c : ix.ClassId) : List TypeParam → String → String → Prop
  | field {f : ix.FieldId} (owner : f.owner = c) :
      Writes ix c (ix.classVariables c) (ix.field f).type (ix.fieldDescriptor f)
  | parameter {m : ix.MethodId} {i : Nat} {type descriptor : String} (owner : m.owner = c)
      (written : (ix.method m).params[i]? = some type)
      (spelled : (ix.parameterDescriptors m)[i]? = some descriptor) :
      Writes ix c (ix.methodVariables m) type descriptor
  | result {m : ix.MethodId} {type : String} (owner : m.owner = c)
      (written : (ix.method m).returnType = some type) :
      Writes ix c (ix.methodVariables m) type (ix.returnDescriptor m)

theorem Writes.descriptor_eq (h : Writes ix c vars type descriptor) :
    descriptor = ix.erasedDescriptor (ix.decl c).file vars type := by
  cases h with
  | field owner =>
    subst owner
    rfl
  | parameter owner written spelled =>
    subst owner
    rw [parameterDescriptors, List.getElem?_map, written, Option.map_some, Option.some.injEq] at spelled
    exact spelled.symm
  | result owner written =>
    subst owner
    rw [returnDescriptor, written]
    rfl

/-- The class is the first one of a file that has the simple name. -/
structure IsFirst (ix : ClassIndex) (file : FileId) (name : String) (c : ix.ClassId) : Prop where
  inside : (ix.decl c).file = file
  called : (ix.decl c).name = name
  le : ∀ d, (ix.decl d).file = file → (ix.decl d).name = name → c ≤ d

theorem inFile?_eq_some_iff : ix.inFile? file name = some c ↔ IsFirst ix file name c := by
  rw [inFile?, findFirst?_eq_some_iff]
  constructor
  · intro ⟨hc, hbefore⟩
    rw [Bool.and_eq_true, beq_iff_eq, beq_iff_eq] at hc
    refine ⟨hc.1, hc.2, fun d hfile hname => Fin.not_lt.1 fun hlt => ?_⟩
    have hno := hbefore d hlt
    rw [Bool.and_eq_false_iff, beq_eq_false_iff_ne, beq_eq_false_iff_ne] at hno
    exact hno.elim (absurd hfile) (absurd hname)
  · intro h
    refine ⟨?_, fun d hlt => ?_⟩
    · rw [Bool.and_eq_true, beq_iff_eq, beq_iff_eq]
      exact ⟨h.inside, h.called⟩
    · rw [Bool.and_eq_false_iff, beq_eq_false_iff_ne, beq_eq_false_iff_ne, ← not_and_or]
      exact fun hboth => absurd (h.le d hboth.1 hboth.2) (Fin.not_le.2 hlt)

/-- Where some class of a file has the name, the first one is found. -/
theorem exists_isFirst (ix : ClassIndex) (d : ix.ClassId) :
    ∃ c, IsFirst ix (ix.decl d).file (ix.decl d).name c := by
  cases h : ix.inFile? (ix.decl d).file (ix.decl d).name with
  | some c => exact ⟨c, inFile?_eq_some_iff.1 h⟩
  | none =>
    rw [inFile?, findFirst?_eq_none_iff] at h
    simpa [decl] using h d

theorem Denotes.of_isWord (h : IsWord name) : Denotes name name 0 := (spells_part h).denotes

/-- A name without dots means the first class of the file that has it. -/
theorem resolve?_of_isFirst (hw : IsWord name) (hp : primitive? name = none)
    (h : IsFirst ix file name c) : ix.resolve? file name = some c := by
  have hne : name.isEmpty = false := by
    rw [← Bool.not_eq_true, String.isEmpty_iff]
    rintro rfl
    exact hw.1 rfl
  have hdot : cutFirst (· == '.') name.toList = none := by
    refine cutFirst_eq_none_iff.2 fun b hb => beq_eq_false_iff_ne.2 ?_
    rintro rfl
    exact absurd (hw.chars _ hb) (by decide)
  rw [resolve?, (Denotes.of_isWord hw).erasedName_eq, hne, hp]
  simp only [Option.isSome_none, Bool.or_false, Bool.false_eq_true, if_false, resolveName?, hdot,
    resolveSimple?, inFile?_eq_some_iff.2 h]

/-- A word outside its variables is spelled without brackets. -/
theorem erasedDescriptor_of_isWord (hw : IsWord name) (free : ∀ v ∈ vars, v.name ≠ name) :
    ix.erasedDescriptor file vars name = ix.baseDescriptor file name := by
  have herasure := (Denotes.of_isWord hw).erasure_eq
  rw [erasedDescriptor_of_free (by rwa [herasure]), herasure]
  simp [arrayOf]

end ClassIndex

namespace Workspace

open ClassIndex

/-- A nested class is in the file of the class around it. -/
theorem file_of_outer (files : List (String × String)) {c d : (ofFiles files).index.ClassId}
    (hd : ((ofFiles files).index.decl d).outer = some c.val) :
    ((ofFiles files).index.decl c).file = ((ofFiles files).index.decl d).file := by
  obtain ⟨hnamed, -⟩ := ofFiles_invariant files
  obtain ⟨-, around, haround, hfile, -⟩ :=
    (hnamed d _ (List.getElem?_eq_getElem d.isLt)).2.inner c.val hd
  rw [List.getElem?_eq_getElem c.isLt, Option.some.injEq] at haround
  subst haround
  exact hfile

/-- In a class, the simple name of a class nested in it is spelled as the first class of the file with
this name: as the nested class itself if no class of the name is declared before it, at any depth. The
keyword of a primitive type is spelled by its letter. -/
theorem descriptor_of_simpleName (files : List (String × String))
    {c d : (ofFiles files).index.ClassId} {vars : List TypeParam} {descriptor : String}
    (hd : ((ofFiles files).index.decl d).outer = some c.val)
    (hw : Writes (ofFiles files).index c vars ((ofFiles files).index.decl d).name descriptor)
    (free : ∀ v ∈ vars, v.name ≠ ((ofFiles files).index.decl d).name) :
    (∃ first, IsFirst (ofFiles files).index ((ofFiles files).index.decl d).file
        ((ofFiles files).index.decl d).name first ∧
      (primitive? ((ofFiles files).index.decl d).name = none →
        descriptor = "L" ++ ((ofFiles files).index.decl first).internalName ++ ";")) ∧
    ∀ letter, (((ofFiles files).index.decl d).name, letter) ∈ primitives → descriptor = letter := by
  have hword : IsWord ((ofFiles files).index.decl d).name := isWord_name files (List.getElem_mem _)
  have hfile := file_of_outer files hd
  have hspelled : descriptor = (ofFiles files).index.baseDescriptor
      ((ofFiles files).index.decl d).file ((ofFiles files).index.decl d).name := by
    rw [hw.descriptor_eq, hfile, erasedDescriptor_of_isWord hword free]
  obtain ⟨first, hfirst⟩ := exists_isFirst (ofFiles files).index d
  refine ⟨⟨first, hfirst, fun hp => ?_⟩, fun letter hletter => ?_⟩
  · rw [hspelled]
    simp only [baseDescriptor, hp, internalTypeName, resolve?_of_isFirst hword hp hfirst]
  · rw [hspelled]
    simp only [baseDescriptor, primitive?_of_mem hletter]

/-! ### A nested class behind another one of its name, and one with the name of a primitive type -/

/-- The first class of the file that is called `N` is not the one in `B`. -/
def twinText : String :=
  "class A\x7bclass N\x7b\x7d\x7d class B\x7bclass N\x7b\x7d class int\x7b\x7d N n; int k;\x7d"

/-- The index of that text. -/
def twinIndex : ClassIndex := (ofFiles [("A.java", twinText)]).index

theorem length_twinIndex : twinIndex.classes.length = 5 := by
  decide +kernel

def twinAround : twinIndex.ClassId := ⟨2, by simp [length_twinIndex]⟩

def twinNested : twinIndex.ClassId := ⟨3, by simp [length_twinIndex]⟩

def twinKeyword : twinIndex.ClassId := ⟨4, by simp [length_twinIndex]⟩

theorem length_twinAround : (twinIndex.decl twinAround).fields.length = 2 := by
  decide +kernel

def nestedField : twinIndex.FieldId := ⟨twinAround, ⟨0, by simp [length_twinAround]⟩⟩

def keywordField : twinIndex.FieldId := ⟨twinAround, ⟨1, by simp [length_twinAround]⟩⟩

theorem descriptor_of_simpleName_twin :
    (twinIndex.decl twinNested).outer = some twinAround.val ∧
      Writes twinIndex twinAround (twinIndex.classVariables twinAround)
        (twinIndex.decl twinNested).name (twinIndex.fieldDescriptor nestedField) ∧
      (∀ v ∈ twinIndex.classVariables twinAround, v.name ≠ (twinIndex.decl twinNested).name) ∧
      ∃ first, IsFirst twinIndex (twinIndex.decl twinNested).file (twinIndex.decl twinNested).name
          first ∧
        twinIndex.fieldDescriptor nestedField = "L" ++ (twinIndex.decl first).internalName ++ ";" := by
  obtain ⟨hd, htype, free, hp⟩ : (twinIndex.decl twinNested).outer = some twinAround.val ∧
      (twinIndex.field nestedField).type = (twinIndex.decl twinNested).name ∧
      (∀ v ∈ twinIndex.classVariables twinAround, v.name ≠ (twinIndex.decl twinNested).name) ∧
      primitive? (twinIndex.decl twinNested).name = none := by decide +kernel
  have hw : Writes twinIndex twinAround (twinIndex.classVariables twinAround)
      (twinIndex.decl twinNested).name (twinIndex.fieldDescriptor nestedField) := by
    rw [← htype]
    exact .field rfl
  obtain ⟨⟨first, hfirst, hspelled⟩, -⟩ := descriptor_of_simpleName _ hd hw free
  exact ⟨hd, hw, free, first, hfirst, hspelled hp⟩

/-- Neither `N` nor `int` is spelled as the class of this name that is nested in `B`. -/
theorem not_descriptor_of_nested :
    (twinIndex.decl twinNested).outer = some twinAround.val ∧
      (twinIndex.field nestedField).type = (twinIndex.decl twinNested).name ∧
      twinIndex.fieldDescriptor nestedField ≠
        "L" ++ (twinIndex.decl twinNested).internalName ++ ";" ∧
      (twinIndex.decl twinKeyword).outer = some twinAround.val ∧
      (twinIndex.field keywordField).type = (twinIndex.decl twinKeyword).name ∧
      twinIndex.fieldDescriptor keywordField ≠
        "L" ++ (twinIndex.decl twinKeyword).internalName ++ ";" ∧
      twinIndex.classVariables twinAround = [] := by
  decide +kernel

end Workspace

end InjectionPoints
