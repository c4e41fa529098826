/-
Descriptors and members under other numbers. Descriptors are the same (`methodDescriptor_renumbered`,
`fieldDescriptor_renumbered`), and a name finds the renumbered members in the same order
(`methodsNamed_renumbered`, `findField?_renumbered`).
-/
import InjectionPoints.ClassIndex.Members
import InjectionPoints.Proofs.Renumbering.Index

namespace InjectionPoints.Renumbering

open Java

variable {ix ix' : ClassIndex} (r : Renumbering ix ix')

/-! ## Types -/

@[simp] theorem assumedName_renumbered (f : FileId) (name : String) :
    ix'.assumedName (r.file f) name = ix.assumedName f name := by
  simp only [ClassIndex.assumedName, scope?_renumbered]

@[simp] theorem internalTypeName_renumbered (f : FileId) (name : String) :
    ix'.internalTypeName (r.file f) name = ix.internalTypeName f name := by
  simp only [ClassIndex.internalTypeName, resolve?_renumbered, assumedName_renumbered]
  cases ix.resolve? f name with
  | none => rfl
  | some c => exact r.decl_internalName c

@[simp] theorem baseDescriptor_renumbered (f : FileId) (base : String) :
    ix'.baseDescriptor (r.file f) base = ix.baseDescriptor f base := by
  simp only [ClassIndex.baseDescriptor, internalTypeName_renumbered]

theorem descriptorWithin_renumbered (f : FileId) (n : Nat) (vars : List TypeParam) (type : String) :
    ix'.descriptorWithin (r.file f) n vars type = ix.descriptorWithin f n vars type := by
  induction n generalizing vars type with
  | zero => simp only [ClassIndex.descriptorWithin, baseDescriptor_renumbered]
  | succ n ih => simp only [ClassIndex.descriptorWithin, baseDescriptor_renumbered, ih]

@[simp] theorem erasedDescriptor_renumbered (f : FileId) (vars : List TypeParam) (type : String) :
    ix'.erasedDescriptor (r.file f) vars type = ix.erasedDescriptor f vars type :=
  r.descriptorWithin_renumbered f vars.length vars type

theorem typeDescriptor_renumbered (f : FileId) (type : String) :
    ix'.typeDescriptor (r.file f) type = ix.typeDescriptor f type :=
  r.erasedDescriptor_renumbered f [] type

/-! ## Type variables -/

theorem typeParams_around (outer : Option Nat) (fuel : Nat) :
    (ix'.around (outer.map r.cls) fuel).map ClassDecl.typeParams =
      (ix.around outer fuel).map ClassDecl.typeParams := by
  induction fuel generalizing outer with
  | zero => rfl
  | succ fuel ih =>
    cases outer with
    | none => rfl
    | some n =>
      have h := r.decl_eq n
      simp only [ClassIndex.around, Option.map_some, Option.bind_some]
      cases hn : ix.classes[n]? with
      | none =>
        rw [hn, Option.map_none, Option.map_eq_none_iff] at h
        rw [h]
      | some c =>
        rw [hn, Option.map_some, Option.map_eq_some_iff] at h
        obtain ⟨c', hc', h⟩ := h
        have houter : c'.outer = c.outer.map r.cls := (congrArg ClassDecl.outer h :)
        have hparams : c'.typeParams = c.typeParams := (congrArg ClassDecl.typeParams h :)
        rw [hc', List.map_cons, List.map_cons, houter, ih, hparams]

@[simp] theorem classVariables_renumbered (c : ix.ClassId) :
    ix'.classVariables (r.classId c) = ix.classVariables c := by
  have h : (ix'.enclosing (r.classId c)).map ClassDecl.typeParams =
      (ix.enclosing c).map ClassDecl.typeParams := by
    rw [ClassIndex.enclosing, ClassIndex.enclosing, List.map_cons, List.map_cons, decl_outer,
      r.length_eq, typeParams_around, decl_typeParams]
  rw [ClassIndex.classVariables, ClassIndex.classVariables, List.flatMap_def, List.flatMap_def, h]

/-! ## Methods and fields -/

/-- The method under the new number of its class. -/
def methodId (m : ix.MethodId) : ix'.MethodId :=
  ⟨r.classId m.owner, m.slot.cast (by simpa using congrArg List.length (r.bare_methods m.owner).symm)⟩

/-- The field under the new number of its class. -/
def fieldId (f : ix.FieldId) : ix'.FieldId :=
  ⟨r.classId f.owner, f.slot.cast (by simpa using congrArg List.length (r.bare_fields f.owner).symm)⟩

@[simp] theorem methodId_owner (m : ix.MethodId) : (r.methodId m).owner = r.classId m.owner := rfl

@[simp] theorem fieldId_owner (f : ix.FieldId) : (r.fieldId f).owner = r.classId f.owner := rfl

theorem bare_method (m : ix.MethodId) : (ix'.method (r.methodId m)).bare = (ix.method m).bare :=
  getElem_of_map_eq (r.bare_methods m.owner) (r.methodId m).slot.isLt m.slot.isLt

theorem bare_field (f : ix.FieldId) : (ix'.field (r.fieldId f)).bare = (ix.field f).bare :=
  getElem_of_map_eq (r.bare_fields f.owner) (r.fieldId f).slot.isLt f.slot.isLt

@[simp] theorem method_name (m : ix.MethodId) :
    (ix'.method (r.methodId m)).name = (ix.method m).name :=
  (congrArg MethodDecl.name (r.bare_method m) :)

@[simp] theorem method_typeParams (m : ix.MethodId) :
    (ix'.method (r.methodId m)).typeParams = (ix.method m).typeParams :=
  (congrArg MethodDecl.typeParams (r.bare_method m) :)

@[simp] theorem method_params (m : ix.MethodId) :
    (ix'.method (r.methodId m)).params = (ix.method m).params :=
  (congrArg MethodDecl.params (r.bare_method m) :)

@[simp] theorem method_varargs (m : ix.MethodId) :
    (ix'.method (r.methodId m)).varargs = (ix.method m).varargs :=
  (congrArg MethodDecl.varargs (r.bare_method m) :)

@[simp] theorem method_returnType (m : ix.MethodId) :
    (ix'.method (r.methodId m)).returnType = (ix.method m).returnType :=
  (congrArg MethodDecl.returnType (r.bare_method m) :)

@[simp] theorem method_hasBody (m : ix.MethodId) :
    (ix'.method (r.methodId m)).hasBody = (ix.method m).hasBody :=
  (congrArg MethodDecl.hasBody (r.bare_method m) :)

@[simp] theorem method_isConstructor (m : ix.MethodId) :
    (ix'.method (r.methodId m)).isConstructor = (ix.method m).isConstructor :=
  (congrArg MethodDecl.isConstructor (r.bare_method m) :)

@[simp] theorem method_acceptsArity (m : ix.MethodId) (n : Nat) :
    (ix'.method (r.methodId m)).acceptsArity n = (ix.method m).acceptsArity n :=
  (congrArg (MethodDecl.acceptsArity · n) (r.bare_method m) :)

@[simp] theorem field_name (f : ix.FieldId) :
    (ix'.field (r.fieldId f)).name = (ix.field f).name :=
  (congrArg FieldDecl.name (r.bare_field f) :)

@[simp] theorem field_type (f : ix.FieldId) :
    (ix'.field (r.fieldId f)).type = (ix.field f).type :=
  (congrArg FieldDecl.type (r.bare_field f) :)

/-! ## Descriptors of members -/

@[simp] theorem methodVariables_renumbered (m : ix.MethodId) :
    ix'.methodVariables (r.methodId m) = ix.methodVariables m := by
  simp only [ClassIndex.methodVariables, method_typeParams, methodId_owner,
    classVariables_renumbered]

@[simp] theorem methodTypeDescriptor_renumbered (m : ix.MethodId) (type : String) :
    ix'.methodTypeDescriptor (r.methodId m) type = ix.methodTypeDescriptor m type := by
  simp only [ClassIndex.methodTypeDescriptor, methodId_owner, decl_file,
    methodVariables_renumbered, erasedDescriptor_renumbered]

@[simp] theorem parameterDescriptors_renumbered (m : ix.MethodId) :
    ix'.parameterDescriptors (r.methodId m) = ix.parameterDescriptors m := by
  rw [ClassIndex.parameterDescriptors, method_params,
    funext (r.methodTypeDescriptor_renumbered m)]
  rfl

@[simp] theorem returnDescriptor_renumbered (m : ix.MethodId) :
    ix'.returnDescriptor (r.methodId m) = ix.returnDescriptor m := by
  simp only [ClassIndex.returnDescriptor, method_returnType, methodTypeDescriptor_renumbered]

/-- Methods keep their descriptors. -/
@[simp] theorem methodDescriptor_renumbered (m : ix.MethodId) :
    ix'.methodDescriptor (r.methodId m) = ix.methodDescriptor m := by
  simp only [ClassIndex.methodDescriptor, parameterDescriptors_renumbered,
    returnDescriptor_renumbered]

/-- Fields keep their descriptors. -/
@[simp] theorem fieldDescriptor_renumbered (f : ix.FieldId) :
    ix'.fieldDescriptor (r.fieldId f) = ix.fieldDescriptor f := by
  simp only [ClassIndex.fieldDescriptor, fieldId_owner, decl_file, classVariables_renumbered,
    field_type, erasedDescriptor_renumbered]

/-! ## Members of a name -/

@[simp] theorem methodsOf_renumbered (c : ix.ClassId) :
    ix'.methodsOf (r.classId c) = (ix.methodsOf c).map r.methodId := by
  have hlen : (ix.decl c).methods.length = (ix'.decl (r.classId c)).methods.length := by
    simpa using congrArg List.length (r.bare_methods c).symm
  have hslots : (List.finRange (ix.decl c).methods.length).map (Fin.cast hlen) =
      List.finRange (ix'.decl (r.classId c)).methods.length := by
    refine List.ext_getElem (by simp [hlen]) fun i hi hi' => ?_
    simp
  rw [ClassIndex.methodsOf, ← hslots, ClassIndex.methodsOf, List.map_map, List.map_map]
  rfl

theorem methodsNamed_renumbered (c : ix.ClassId) (name : String) (arity : Nat) :
    ix'.methodsNamed (r.classId c) name arity = (ix.methodsNamed c name arity).map r.methodId := by
  have hall : (ix'.supertypes (r.classId c)).flatMap ix'.methodsOf =
      ((ix.supertypes c).flatMap ix.methodsOf).map r.methodId := by
    rw [supertypes_renumbered, List.flatMap_map, List.map_flatMap]
    exact List.flatMap_congr fun d _ => r.methodsOf_renumbered d
  have hwanted : (fun m => (ix'.method m).name == name && !(ix'.method m).isConstructor &&
      (ix'.method m).acceptsArity arity) ∘ r.methodId = fun m => (ix.method m).name == name &&
        !(ix.method m).isConstructor && (ix.method m).acceptsArity arity := by
    funext m
    simp only [Function.comp_apply, method_name, method_isConstructor, method_acceptsArity]
  rw [ClassIndex.methodsNamed, hall, List.filter_map, hwanted, ClassIndex.methodsNamed]
  have hkey (m : ix.MethodId) :
      ix'.methodDescriptor (r.methodId m) = id (ix.methodDescriptor m) :=
    r.methodDescriptor_renumbered m
  exact firstsBy_map Function.injective_id hkey [] _

@[simp] theorem constructorsOf_renumbered (c : ix.ClassId) (arity : Nat) :
    ix'.constructorsOf (r.classId c) arity = (ix.constructorsOf c arity).map r.methodId := by
  have hwanted : (fun m => (ix'.method m).isConstructor && (ix'.method m).acceptsArity arity) ∘
      r.methodId = fun m => (ix.method m).isConstructor && (ix.method m).acceptsArity arity := by
    funext m
    simp only [Function.comp_apply, method_isConstructor, method_acceptsArity]
  rw [ClassIndex.constructorsOf, methodsOf_renumbered, List.filter_map, hwanted,
    ClassIndex.constructorsOf]

theorem findMethod?_renumbered (c : ix.ClassId) (name : String) (arity : Nat) :
    ix'.findMethod? (r.classId c) name arity = (ix.findMethod? c name arity).map r.methodId := by
  rw [ClassIndex.findMethod?, methodsNamed_renumbered, List.head?_map]
  rfl

theorem findConstructor?_renumbered (c : ix.ClassId) (arity : Nat) :
    ix'.findConstructor? (r.classId c) arity = (ix.findConstructor? c arity).map r.methodId := by
  rw [ClassIndex.findConstructor?, constructorsOf_renumbered, List.head?_map]
  rfl

theorem fieldOf?_renumbered (name : String) (c : ix.ClassId) :
    ix'.fieldOf? name (r.classId c) = (ix.fieldOf? name c).map r.fieldId := by
  have hlen : (ix.decl c).fields.length = (ix'.decl (r.classId c)).fields.length := by
    simpa using congrArg List.length (r.bare_fields c).symm
  have hfirst : findFirst? (fun f => f.name == name) (ix'.decl (r.classId c)).fields =
      (findFirst? (fun f => f.name == name) (ix.decl c).fields).map (Fin.cast hlen) := by
    refine findFirst?_renumbered (fun i => ⟨i.cast hlen.symm, rfl⟩) (fun i => ?_)
      fun i j _ _ hij => hij
    exact congrArg (· == name) (r.field_name ⟨c, i⟩)
  rw [ClassIndex.fieldOf?, hfirst, ClassIndex.fieldOf?, Option.map_map, Option.map_map]
  rfl

@[simp] theorem findField?_renumbered (c : ix.ClassId) (name : String) :
    ix'.findField? (r.classId c) name = (ix.findField? c name).map r.fieldId := by
  rw [ClassIndex.findField?, supertypes_renumbered, List.findSome?_map, ClassIndex.findField?,
    List.map_findSome?]
  exact congrArg (List.findSome? · _) (funext (r.fieldOf?_renumbered name))

end InjectionPoints.Renumbering
