/-
Two indexes that hold the same declarations under other numbers (`Renumbering`). Positions in texts
are left out of the comparison. Whatever a name stands for in one index, the renumbered thing is
what it stands for in the other (`resolve?_renumbered`), and the supertypes of a class correspond
in their order (`supertypes_renumbered`).
-/
import Mathlib.Algebra.BigOperators.Fin
import InjectionPoints.ClassIndex.Hierarchy
import InjectionPoints.Proofs.Renumbering.Lists

namespace InjectionPoints

open Java

/-! ## Declarations without numbers and positions -/

/-- A field without its position. -/
def FieldDecl.bare (f : FieldDecl) : FieldDecl := { f with nameSpan := ⟨0, 0⟩ }

/-- A method without its position. -/
def MethodDecl.bare (m : MethodDecl) : MethodDecl :=
  { m with nameSpan := ⟨0, 0⟩, declSpan := ⟨0, 0⟩ }

namespace ClassDecl

/-- A class without the positions in its text. -/
def bare (c : ClassDecl) : ClassDecl :=
  { c with
    nameSpan := ⟨0, 0⟩
    fields := c.fields.map FieldDecl.bare
    methods := c.methods.map MethodDecl.bare }

/-- A class under other numbers of files and classes. -/
def renumber (file cls : Nat → Nat) (c : ClassDecl) : ClassDecl :=
  { c with file := file c.file, outer := c.outer.map cls }

end ClassDecl

/-- New numbers for the files and classes of an index, under which another index holds the same
declarations. Numbers of classes of one file, and of one source name, keep their order. -/
structure Renumbering (ix ix' : ClassIndex) where
  file : Equiv.Perm Nat
  cls : Equiv.Perm Nat
  decl_eq : ∀ n, (ix'.classes[cls n]?).map ClassDecl.bare =
    (ix.classes[n]?).map fun c => (c.renumber file cls).bare
  scope_eq : ∀ f, ix'.scopes[file f]? = ix.scopes[f]?
  order : ∀ {m n : Nat} {c d : ClassDecl}, ix.classes[m]? = some c → ix.classes[n]? = some d →
    c.file = d.file ∨ c.sourceName = d.sourceName → m < n → cls m < cls n

namespace Renumbering

variable {ix ix' : ClassIndex} (r : Renumbering ix ix')

/-! ## Classes -/

theorem cls_lt_iff {n : Nat} : r.cls n < ix'.classes.length ↔ n < ix.classes.length := by
  have h := congrArg (· = none) (r.decl_eq n)
  simp only [Option.map_eq_none_iff, List.getElem?_eq_none_iff, eq_iff_iff] at h
  omega

/-- The class under its new number. -/
def classId (c : ix.ClassId) : ix'.ClassId := ⟨r.cls c, r.cls_lt_iff.2 c.isLt⟩

theorem classId_injective : Function.Injective r.classId := fun _ _ h =>
  Fin.ext (r.cls.injective (congrArg Fin.val h))

theorem classId_surjective : Function.Surjective r.classId := fun c' => by
  have hc : r.cls (r.cls.symm c') < ix'.classes.length := by simp
  exact ⟨⟨r.cls.symm c', r.cls_lt_iff.1 hc⟩, Fin.ext (by simp [classId])⟩

@[simp] theorem classId_inj {c d : ix.ClassId} : r.classId c = r.classId d ↔ c = d :=
  r.classId_injective.eq_iff

theorem bare_decl (c : ix.ClassId) :
    (ix'.decl (r.classId c)).bare = ((ix.decl c).renumber r.file r.cls).bare := by
  have h := r.decl_eq c
  rw [List.getElem?_eq_getElem (r.cls_lt_iff.2 c.isLt), List.getElem?_eq_getElem c.isLt] at h
  exact Option.some.inj h

@[simp] theorem decl_file (c : ix.ClassId) :
    (ix'.decl (r.classId c)).file = r.file (ix.decl c).file :=
  (congrArg ClassDecl.file (r.bare_decl c) :)

@[simp] theorem decl_name (c : ix.ClassId) : (ix'.decl (r.classId c)).name = (ix.decl c).name :=
  (congrArg ClassDecl.name (r.bare_decl c) :)

@[simp] theorem decl_sourceName (c : ix.ClassId) :
    (ix'.decl (r.classId c)).sourceName = (ix.decl c).sourceName :=
  (congrArg ClassDecl.sourceName (r.bare_decl c) :)

@[simp] theorem decl_internalName (c : ix.ClassId) :
    (ix'.decl (r.classId c)).internalName = (ix.decl c).internalName :=
  (congrArg (fun d => internalForm (ClassDecl.binaryName d)) (r.bare_decl c) :)

@[simp] theorem decl_outer (c : ix.ClassId) :
    (ix'.decl (r.classId c)).outer = (ix.decl c).outer.map r.cls :=
  (congrArg ClassDecl.outer (r.bare_decl c) :)

@[simp] theorem decl_typeParams (c : ix.ClassId) :
    (ix'.decl (r.classId c)).typeParams = (ix.decl c).typeParams :=
  (congrArg ClassDecl.typeParams (r.bare_decl c) :)

@[simp] theorem decl_superclass (c : ix.ClassId) :
    (ix'.decl (r.classId c)).superclass = (ix.decl c).superclass :=
  (congrArg ClassDecl.superclass (r.bare_decl c) :)

@[simp] theorem decl_supers (c : ix.ClassId) :
    (ix'.decl (r.classId c)).supers = (ix.decl c).supers :=
  (congrArg ClassDecl.supers (r.bare_decl c) :)

theorem bare_fields (c : ix.ClassId) :
    (ix'.decl (r.classId c)).fields.map FieldDecl.bare = (ix.decl c).fields.map FieldDecl.bare :=
  congrArg ClassDecl.fields (r.bare_decl c)

theorem bare_methods (c : ix.ClassId) :
    (ix'.decl (r.classId c)).methods.map MethodDecl.bare =
      (ix.decl c).methods.map MethodDecl.bare :=
  (congrArg ClassDecl.methods (r.bare_decl c) :)

/-! ## Names -/

@[simp] theorem scope?_renumbered (f : FileId) : ix'.scope? (r.file f) = ix.scope? f :=
  r.scope_eq f

theorem bySourceName?_renumbered (name : String) :
    ix'.bySourceName? name = (ix.bySourceName? name).map r.classId := by
  refine findLast?_renumbered r.classId_surjective
    (fun c => congrArg (· == name) (r.decl_sourceName c)) fun c d hc hd hlt => ?_
  have hname : (ix.decl c).sourceName = (ix.decl d).sourceName :=
    (beq_iff_eq.1 hc).trans (beq_iff_eq.1 hd).symm
  exact r.order (List.getElem?_eq_getElem c.isLt) (List.getElem?_eq_getElem d.isLt) (.inr hname) hlt

theorem byName?_renumbered (name : String) :
    ix'.byName? name = (ix.byName? name).map r.classId :=
  r.bySourceName?_renumbered _

@[simp] theorem inFile?_renumbered (f : FileId) (name : String) :
    ix'.inFile? (r.file f) name = (ix.inFile? f name).map r.classId := by
  refine findFirst?_renumbered r.classId_surjective (fun c => ?_) fun c d hc hd hlt => ?_
  · have hfile : (r.file (ix.decl c).file == r.file f) = ((ix.decl c).file == f) := by
      rw [Bool.eq_iff_iff, beq_iff_eq, beq_iff_eq, r.file.apply_eq_iff_eq]
    show ((ix'.decl (r.classId c)).file == r.file f && (ix'.decl (r.classId c)).name == name) =
      ((ix.decl c).file == f && (ix.decl c).name == name)
    rw [r.decl_file, r.decl_name, hfile]
  · rw [Bool.and_eq_true] at hc hd
    have hfile : (ix.decl c).file = (ix.decl d).file :=
      (beq_iff_eq.1 hc.1).trans (beq_iff_eq.1 hd.1).symm
    exact r.order (List.getElem?_eq_getElem c.isLt) (List.getElem?_eq_getElem d.isLt) (.inl hfile)
      hlt

@[simp] theorem resolveSimple?_renumbered (f : FileId) (name : String) :
    ix'.resolveSimple? (r.file f) name = (ix.resolveSimple? f name).map r.classId := by
  simp only [ClassIndex.resolveSimple?, inFile?_renumbered, scope?_renumbered,
    funext r.bySourceName?_renumbered]
  cases ix.inFile? f name with
  | some c => rfl
  | none =>
    cases ix.scope? f with
    | none => rfl
    | some scope =>
      simp only [Option.map_none]
      cases scope.singleImport? name with
      | some imported => rfl
      | none => exact List.map_findSome?.symm

theorem resolveName?_renumbered (f : FileId) (name : String) :
    ix'.resolveName? (r.file f) name = (ix.resolveName? f name).map r.classId := by
  simp only [ClassIndex.resolveName?, r.bySourceName?_renumbered, resolveSimple?_renumbered]
  cases Text.cutFirst (· == '.') name.toList with
  | none => rfl
  | some cut =>
    cases ix.bySourceName? name with
    | some c => rfl
    | none =>
      cases h : ix.resolveSimple? f (String.ofList cut.1) with
      | none => simp [h]
      | some outer => simp [h]

/-- A type mentions the renumbered class in the renumbered file. -/
@[simp] theorem resolve?_renumbered (f : FileId) (type : String) :
    ix'.resolve? (r.file f) type = (ix.resolve? f type).map r.classId := by
  simp only [ClassIndex.resolve?, resolveName?_renumbered]
  split <;> rfl

@[simp] theorem staticOwners_renumbered (f : FileId) (name : String) :
    ix'.staticOwners (r.file f) name = (ix.staticOwners f name).map r.classId := by
  simp only [ClassIndex.staticOwners, scope?_renumbered]
  cases ix.scope? f with
  | none => rfl
  | some scope =>
    have howners (owners : List String) : owners.filterMap ix'.byName? =
        (owners.filterMap ix.byName?).map r.classId := by
      rw [List.map_filterMap]
      exact List.filterMap_congr fun name _ => r.byName?_renumbered name
    simp only [howners]
    have hid (c : ix.ClassId) : id (r.classId c) = r.classId (id c) := rfl
    exact firstsBy_map r.classId_injective hid [] _

/-! ## Supertypes -/

theorem superclass?_renumbered (c : ix.ClassId) :
    ix'.superclass? (r.classId c) = (ix.superclass? c).map r.classId := by
  simp only [ClassIndex.superclass?, decl_superclass, decl_file, resolve?_renumbered,
    Option.map_bind, Function.comp_def]

theorem parents_renumbered (c : ix.ClassId) :
    ix'.parents (r.classId c) = (ix.parents c).map r.classId := by
  simp only [ClassIndex.parents, decl_supers, decl_file, resolve?_renumbered, List.map_filterMap]

include r in
theorem length_eq : ix'.classes.length = ix.classes.length := by
  have h := Fintype.card_of_bijective ⟨r.classId_injective, r.classId_surjective⟩
  simpa using h.symm

include r in
theorem hierarchySize_eq : ix'.hierarchySize = ix.hierarchySize := by
  have hsum : ∑ c : ix.ClassId, (ix.decl c).supers.length =
      ∑ c' : ix'.ClassId, (ix'.decl c').supers.length :=
    Fintype.sum_bijective r.classId ⟨r.classId_injective, r.classId_surjective⟩ _ _
      fun c => by rw [decl_supers]
  rw [ClassIndex.hierarchySize, ClassIndex.hierarchySize, List.length_flatMap, List.length_flatMap,
    ← Fin.sum_univ_fun_getElem, ← Fin.sum_univ_fun_getElem]
  exact congrArg (· + 1) hsum.symm

/-- A class has the renumbered supertypes, in the same order. -/
@[simp] theorem supertypes_renumbered (c : ix.ClassId) :
    ix'.supertypes (r.classId c) = (ix.supertypes c).map r.classId := by
  rw [ClassIndex.supertypes, r.hierarchySize_eq]
  exact breadthFirst_map r.classId_injective r.parents_renumbered ix.hierarchySize [c] []

end Renumbering

end InjectionPoints
