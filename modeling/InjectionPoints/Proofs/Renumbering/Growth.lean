/-
How a file adds its classes to an index. They are the classes that the file adds to an empty index,
with the numbers moved up (`classes_addFile`). What each class keeps that is put behind others, a
file keeps (`addTypes_kept`); so the classes around its classes are among them
(`isNested_classesOf`).
-/
import InjectionPoints.ClassIndex.Build
import InjectionPoints.Proofs.Tree.Ordered

namespace InjectionPoints

open Java

/-- A class of a file that is added behind `base` classes. -/
def ClassDecl.place (file : FileId) (base : Nat) (c : ClassDecl) : ClassDecl :=
  { c with file, outer := c.outer.map (· + base) }

/-- What a list begins with has the same places in it. -/
theorem getElem?_of_initial {α : Type} {l l' : List α} {i : Nat} {a : α} (h : l <+: l')
    (ha : l[i]? = some a) : l'[i]? = some a := by
  obtain ⟨hi, rfl⟩ := List.getElem?_eq_some_iff.1 ha
  exact List.prefix_iff_getElem?.1 h i hi

namespace ClassIndex

variable {source : String} {package : Option String}

/-! ## Moving numbers up -/

section Placed

variable {f file : FileId} {before : List ClassDecl}

/-- The class around the classes to come, moved up. -/
def placeAround (file : FileId) (base : Nat) (around : Nat × ClassDecl) : Nat × ClassDecl :=
  (around.1 + base, around.2.place file base)

theorem ofTree?_placed (base : Nat) (outer : Option (Nat × ClassDecl)) (t : Tree) :
    ClassDecl.ofTree? source file package (outer.map (placeAround file base)) t =
      (ClassDecl.ofTree? source f package outer t).map (ClassDecl.place file base) := by
  unfold ClassDecl.ofTree?
  cases t.child? .name with
  | none => rfl
  | some nameNode => cases outer <;> rfl

mutual

/-- Behind other classes a node adds the same classes, moved up. -/
theorem addType_placed (outer : Option (Nat × ClassDecl)) (classes : List ClassDecl) (t : Tree) :
    addType source file package (outer.map (placeAround file before.length))
        (before ++ classes.map (ClassDecl.place file before.length)) t =
      before ++ (addType source f package outer classes t).map
        (ClassDecl.place file before.length) := by
  match t with
  | .node k fd s cs =>
    rw [addType, addType, ofTree?_placed]
    cases ClassDecl.ofTree? source f package outer (.node k fd s cs) with
    | none => rfl
    | some c =>
      have hcount : (before ++ classes.map (ClassDecl.place file before.length)).length =
          classes.length + before.length := by
        rw [List.length_append, List.length_map, Nat.add_comm]
      have hbody := addBody_placed (some (classes.length, c)) (classes ++ [c]) cs
      rw [List.map_append, ← List.append_assoc] at hbody
      simp only [Option.map_some, hcount]
      exact hbody

theorem addBody_placed (outer : Option (Nat × ClassDecl)) (classes : List ClassDecl)
    (ts : List Tree) :
    addBody source file package (outer.map (placeAround file before.length))
        (before ++ classes.map (ClassDecl.place file before.length)) ts =
      before ++ (addBody source f package outer classes ts).map
        (ClassDecl.place file before.length) := by
  match ts with
  | [] => rfl
  | .node k fd s cs :: ts =>
    rw [addBody, addBody]
    split
    · exact addMembers_placed outer classes cs
    · exact addBody_placed outer classes ts

theorem addMembers_placed (outer : Option (Nat × ClassDecl)) (classes : List ClassDecl)
    (ts : List Tree) :
    addMembers source file package (outer.map (placeAround file before.length))
        (before ++ classes.map (ClassDecl.place file before.length)) ts =
      before ++ (addMembers source f package outer classes ts).map
        (ClassDecl.place file before.length) := by
  match ts with
  | [] => rfl
  | .node k fd s cs :: ts =>
    simp only [addMembers]
    split
    · rw [addMembers_placed outer classes cs, addMembers_placed outer _ ts]
    · split
      · rw [addType_placed outer classes (.node k fd s cs), addMembers_placed outer _ ts]
      · exact addMembers_placed outer classes ts

end

theorem addTypes_placed (classes : List ClassDecl) (nodes : List Tree) :
    addTypes source file package (before ++ classes.map (ClassDecl.place file before.length))
        nodes =
      before ++ (addTypes source f package classes nodes).map
        (ClassDecl.place file before.length) := by
  unfold addTypes
  induction nodes generalizing classes with
  | nil => rfl
  | cons t nodes ih =>
    rw [List.foldl_cons, List.foldl_cons]
    split
    · have ht : addType source file package none
          (before ++ classes.map (ClassDecl.place file before.length)) t =
            before ++ (addType source f package none classes t).map
              (ClassDecl.place file before.length) := addType_placed none classes t
      rw [ht]
      exact ih _
    · exact ih classes

end Placed

/-- The classes that a file declares, numbered by themselves. -/
def classesOf (source : String) (root : Tree) : List ClassDecl :=
  (ClassIndex.empty.addFile source root).classes

/-- A file adds its classes behind those that are there. -/
theorem classes_addFile (ix : ClassIndex) (source : String) (root : Tree) :
    (ix.addFile source root).classes =
      ix.classes ++ (classesOf source root).map
        (ClassDecl.place ix.scopes.length ix.classes.length) := by
  have hnil : ix.classes = ix.classes ++ [].map (ClassDecl.place ix.scopes.length ix.classes.length) :=
    (List.append_nil _).symm
  show addTypes source ix.scopes.length _ ix.classes root.children = _
  conv => lhs; rw [hnil]
  exact addTypes_placed [] root.children

/-! ## What stays when classes are added -/

/-- The class around others, if any, has its number among `classes` and is in the same file. -/
def IsAround (file : FileId) (classes : List ClassDecl) (outer : Option (Nat × ClassDecl)) : Prop :=
  ∀ a ∈ outer, classes[a.1]? = some a.2 ∧ a.2.file = file

theorem IsAround.mono {file : FileId} {classes classes' : List ClassDecl}
    {outer : Option (Nat × ClassDecl)} (ho : IsAround file classes outer)
    (h : classes <+: classes') : IsAround file classes' outer :=
  fun a ha => ⟨getElem?_of_initial h (ho a ha).1, (ho a ha).2⟩

/-- A class that is put behind others keeps `P`, when it is declared by one of the `nodes` and the
class around it is one of the others. -/
def KeptByClass (source : String) (file : FileId) (package : Option String) (nodes : Tree → Prop)
    (P : List ClassDecl → Prop) : Prop :=
  ∀ {classes : List ClassDecl} {outer : Option (Nat × ClassDecl)} {t : Tree} {c : ClassDecl},
    nodes t → P classes → IsAround file classes outer →
      ClassDecl.ofTree? source file package outer t = some c → P (classes ++ [c])

theorem file_of_ofTree? {file : FileId} {outer : Option (Nat × ClassDecl)} {t : Tree}
    {c : ClassDecl} (h : ClassDecl.ofTree? source file package outer t = some c) :
    c.file = file := by
  unfold ClassDecl.ofTree? at h
  obtain ⟨nameNode, _, h⟩ := Option.bind_eq_some_iff.1 h
  rw [← Option.some.inj h]

theorem outer_of_ofTree? {file : FileId} {outer : Option (Nat × ClassDecl)} {t : Tree}
    {c : ClassDecl} (h : ClassDecl.ofTree? source file package outer t = some c) :
    c.outer = outer.map Prod.fst := by
  unfold ClassDecl.ofTree? at h
  obtain ⟨nameNode, _, h⟩ := Option.bind_eq_some_iff.1 h
  rw [← Option.some.inj h]

section Kept

variable {file : FileId} {nodes : Tree → Prop} {P : List ClassDecl → Prop}

mutual

theorem addType_kept (hP : KeptByClass source file package nodes P)
    {outer : Option (Nat × ClassDecl)} {classes : List ClassDecl} (h : P classes)
    (ho : IsAround file classes outer) (t : Tree)
    (ht : ∀ u ∈ t.preorder, Kind.typeDeclarations.contains u.kind = true → nodes u)
    (hk : Kind.typeDeclarations.contains t.kind = true) :
    P (addType source file package outer classes t) ∧
      classes <+: addType source file package outer classes t := by
  match t with
  | .node k f s cs =>
    rw [addType]
    cases hc : ClassDecl.ofTree? source file package outer (.node k f s cs) with
    | none => exact ⟨h, List.prefix_refl _⟩
    | some c =>
      have hself : IsAround file (classes ++ [c]) (some (classes.length, c)) := by
        intro a ha
        rw [← Option.some.inj ha]
        exact ⟨List.getElem?_concat_length, file_of_ofTree? hc⟩
      obtain ⟨hbody, hpre⟩ := addBody_kept hP (hP (ht _ (Tree.self_mem_preorder _) hk) h ho hc) hself cs
        fun d hd u hu => ht u (Tree.mem_preorder_iff.2 (.inr ⟨d, hd, hu⟩))
      exact ⟨hbody, (List.prefix_append _ _).trans hpre⟩

theorem addBody_kept (hP : KeptByClass source file package nodes P)
    {outer : Option (Nat × ClassDecl)} {classes : List ClassDecl} (h : P classes)
    (ho : IsAround file classes outer) (ts : List Tree)
    (hts : ∀ t ∈ ts, ∀ u ∈ t.preorder, Kind.typeDeclarations.contains u.kind = true → nodes u) :
    P (addBody source file package outer classes ts) ∧
      classes <+: addBody source file package outer classes ts := by
  match ts with
  | [] => exact ⟨h, List.prefix_refl _⟩
  | .node k f s cs :: ts =>
    obtain ⟨ht, hts⟩ := List.forall_mem_cons.1 hts
    rw [addBody]
    split
    · exact addMembers_kept hP h ho cs fun d hd u hu =>
        ht u (Tree.mem_preorder_iff.2 (.inr ⟨d, hd, hu⟩))
    · exact addBody_kept hP h ho ts hts

theorem addMembers_kept (hP : KeptByClass source file package nodes P)
    {outer : Option (Nat × ClassDecl)} {classes : List ClassDecl} (h : P classes)
    (ho : IsAround file classes outer) (ts : List Tree)
    (hts : ∀ t ∈ ts, ∀ u ∈ t.preorder, Kind.typeDeclarations.contains u.kind = true → nodes u) :
    P (addMembers source file package outer classes ts) ∧
      classes <+: addMembers source file package outer classes ts := by
  match ts with
  | [] => exact ⟨h, List.prefix_refl _⟩
  | .node k f s cs :: ts =>
    obtain ⟨ht, hts⟩ := List.forall_mem_cons.1 hts
    simp only [addMembers]
    split
    · obtain ⟨hin, hpre⟩ := addMembers_kept hP h ho cs fun d hd u hu =>
        ht u (Tree.mem_preorder_iff.2 (.inr ⟨d, hd, hu⟩))
      obtain ⟨hrest, hpre'⟩ := addMembers_kept hP hin (ho.mono hpre) ts hts
      exact ⟨hrest, hpre.trans hpre'⟩
    · split
      · next hk =>
        obtain ⟨hin, hpre⟩ := addType_kept hP h ho (.node k f s cs) ht hk
        obtain ⟨hrest, hpre'⟩ := addMembers_kept hP hin (ho.mono hpre) ts hts
        exact ⟨hrest, hpre.trans hpre'⟩
      · exact addMembers_kept hP h ho ts hts

end

/-- What every class keeps that a file declares, holds behind the whole file. -/
theorem addTypes_kept (hP : KeptByClass source file package nodes P) {classes : List ClassDecl}
    (h : P classes) (ts : List Tree)
    (hts : ∀ t ∈ ts, ∀ u ∈ t.preorder, Kind.typeDeclarations.contains u.kind = true → nodes u) :
    P (addTypes source file package classes ts) := by
  unfold addTypes
  induction ts generalizing classes with
  | nil => exact h
  | cons t ts ih =>
    obtain ⟨ht, hts⟩ := List.forall_mem_cons.1 hts
    rw [List.foldl_cons]
    split
    · next hk => exact ih (addType_kept hP h (by simp [IsAround]) t ht hk).1 hts
    · exact ih h hts

end Kept

/-! ## Classes around classes -/

/-- The classes around classes are among them. -/
def IsNested (classes : List ClassDecl) : Prop :=
  ∀ c ∈ classes, ∀ o ∈ c.outer, o < classes.length

theorem IsNested.append_one {classes : List ClassDecl} {c : ClassDecl} (h : IsNested classes)
    (hc : ∀ o ∈ c.outer, o < classes.length) : IsNested (classes ++ [c]) := by
  intro d hd o ho
  rw [List.length_append, List.length_singleton]
  rcases List.mem_append.1 hd with hd | hd
  · exact Nat.lt_succ_of_lt (h d hd o ho)
  · rw [List.mem_singleton.1 hd] at ho
    exact Nat.lt_succ_of_lt (hc o ho)

theorem isNested_kept (file : FileId) :
    KeptByClass source file package (fun _ => True) IsNested := by
  intro classes outer t c _ h ho hc
  refine h.append_one fun o hoc => ?_
  rw [outer_of_ofTree? hc] at hoc
  obtain ⟨a, ha, rfl⟩ := Option.map_eq_some_iff.1 hoc
  exact (List.getElem?_eq_some_iff.1 (ho a ha).1).1

theorem isNested_classesOf (source : String) (root : Tree) : IsNested (classesOf source root) :=
  addTypes_kept (isNested_kept 0) (by simp [IsNested, ClassIndex.empty]) root.children
    fun _ _ _ _ _ => trivial

end ClassIndex

end InjectionPoints
