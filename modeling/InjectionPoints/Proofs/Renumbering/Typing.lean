/-
Overloads and types of expressions under other numbers. Arguments fit the renumbered methods as well
as the methods (`applicability_renumbered`), so a call means the renumbered method, and the types
of expressions correspond however deep they are looked for (`typing_renumbered`).
-/
import InjectionPoints.Proofs.Renumbering.Members
import InjectionPoints.Scope.Typing

namespace InjectionPoints

open Java

variable {ix ix' : ClassIndex} (r : Renumbering ix ix')

/-! ## Overloads -/

namespace Renumbering

theorem subtypeAmong_renumbered (internal : String) (unknown : Bool) (cs : List ix.ClassId) :
    ix'.subtypeAmong internal unknown (cs.map r.classId) = ix.subtypeAmong internal unknown cs := by
  induction cs generalizing unknown with
  | nil => rfl
  | cons c cs ih =>
    simp only [List.map_cons, ClassIndex.subtypeAmong, decl_supers, decl_file, decl_internalName,
      resolve?_renumbered, Option.isNone_map, internalTypeName_renumbered, ih]

theorem isSubtype?_renumbered (c : ix.ClassId) (internal : String) :
    ix'.isSubtype? (r.classId c) internal = ix.isSubtype? c internal := by
  rw [ClassIndex.isSubtype?, supertypes_renumbered, subtypeAmong_renumbered, ClassIndex.isSubtype?]

include r in
theorem referenceFit_eq (arg param : String) : ix'.referenceFit arg param = ix.referenceFit arg param := by
  unfold ClassIndex.referenceFit
  cases ClassIndex.classOf? arg with
  | none => rfl
  | some arg =>
    cases ClassIndex.classOf? param with
    | none => rfl
    | some param =>
      simp only [r.byName?_renumbered, Option.isSome_map]
      cases ix.byName? arg with
      | none => rfl
      | some c => simp only [Option.map_some, isSubtype?_renumbered]

include r in
theorem fit_eq (arg : ArgumentType) (param : String) : ix'.fit arg param = ix.fit arg param := by
  cases arg with
  | unknown => rfl
  | null => rfl
  | known arg => simp only [ClassIndex.fit, ClassIndex.knownFit, r.referenceFit_eq]

include r in
theorem fitAt_eq (params : List String) (fixed arity position : Nat) (arg : ArgumentType) :
    ix'.fitAt params fixed arity position arg = ix.fitAt params fixed arity position arg := by
  simp only [ClassIndex.fitAt, r.fit_eq]

theorem fits_renumbered (m : ix.MethodId) (args : List ArgumentType) :
    ix'.fits (r.methodId m) args = ix.fits m args := by
  simp only [ClassIndex.fits, parameterDescriptors_renumbered, ClassIndex.fixedCount,
    method_varargs, method_params, r.fitAt_eq]

/-- Arguments fit the renumbered method as well as the method. -/
theorem applicability_renumbered (m : ix.MethodId) (args : List ArgumentType) :
    ix'.applicability (r.methodId m) args = ix.applicability m args := by
  rw [ClassIndex.applicability, fits_renumbered, ClassIndex.applicability]

theorem bestOverloads_renumbered (candidates : List ix.MethodId) (args : List ArgumentType) :
    ix'.bestOverloads (candidates.map r.methodId) args =
      (ix.bestOverloads candidates args).map r.methodId := by
  unfold ClassIndex.bestOverloads
  rw [List.length_map]
  split
  · rfl
  · let scored := candidates.filterMap fun m =>
      (ix.applicability m args).map fun score => (m, score)
    have hscored : ((candidates.map r.methodId).filterMap fun m =>
        (ix'.applicability m args).map fun score => (m, score)) =
          scored.map fun s => (r.methodId s.1, s.2) := by
      rw [List.filterMap_map, List.map_filterMap]
      refine List.filterMap_congr fun m _ => ?_
      simp [applicability_renumbered, Function.comp_def]
    have hscores : (scored.map fun s => (r.methodId s.1, s.2)).map Prod.snd = scored.map Prod.snd := by
      rw [List.map_map]
      rfl
    simp only [hscored, hscores]
    cases (scored.map Prod.snd).max? with
    | none => rfl
    | some best =>
      simp only [List.filter_map, List.map_map, Function.comp_def]
      rfl

end Renumbering

/-! ## Types of expressions -/

/-- What is known of types, in terms of the renumbered classes. -/
def Typing.renumber (t : Typing ix) : Typing ix' :=
  ⟨fun e => (t.classOf e).map r.classId, t.typeOf⟩

namespace Scope

/-- A scope in terms of the renumbered method. -/
def renumber (s : Scope ix) : Scope ix' :=
  { source := s.source, method := r.methodId s.method, declaration := s.declaration,
    locals := s.locals }

variable (s : Scope ix)

@[simp] theorem owner_renumber : (s.renumber r).owner = r.classId s.owner := rfl

@[simp] theorem file_renumber : (s.renumber r).file = r.file s.file :=
  r.decl_file s.owner

@[simp] theorem text_renumber (p : Place) : (s.renumber r).text p = s.text p := rfl

@[simp] theorem local?_renumber (name : String) (use : Place) :
    (s.renumber r).local? name use = s.local? name use := rfl

@[simp] theorem isLocal_renumber (name : String) (use : Place) :
    (s.renumber r).isLocal name use = s.isLocal name use := rfl

@[simp] theorem fieldNamed?_renumber (name : String) :
    (s.renumber r).fieldNamed? name = (s.fieldNamed? name).map r.fieldId := by
  simp only [fieldNamed?, owner_renumber, file_renumber, Renumbering.findField?_renumbered,
    Renumbering.staticOwners_renumbered, List.findSome?_map]
  cases ix.findField? s.owner name with
  | some f => rfl
  | none =>
    simp only [Option.map_none, Option.orElse_eq_orElse, Option.orElse_eq_or, Option.none_or,
      List.map_findSome?]
    exact congrArg (List.findSome? · _) (funext fun c => r.findField?_renumbered c name)

@[simp] theorem isVariable_renumber (name : String) (use : Place) :
    (s.renumber r).isVariable name use = s.isVariable name use := by
  simp only [isVariable, isLocal_renumber, fieldNamed?_renumber, Option.isSome_map]

@[simp] theorem namedClass?_renumber (p : Place) :
    (s.renumber r).namedClass? p = (s.namedClass? p).map r.classId := by
  simp only [namedClass?, text_renumber, isVariable_renumber, file_renumber,
    Renumbering.resolve?_renumbered]
  split <;> rfl

variable (t : Typing ix)

@[simp] theorem qualifier?_renumber (object : Option Place) :
    (s.renumber r).qualifier? (t.renumber r) object = (s.qualifier? t object).map r.classId := by
  cases object with
  | none => rfl
  | some q =>
    simp only [qualifier?, namedClass?_renumber, Typing.renumber]
    split
    · rfl
    · cases s.namedClass? q <;> rfl

@[simp] theorem receiver?_renumber (object : Option Place) :
    (s.renumber r).receiver? (t.renumber r) object = (s.receiver? t object).map r.classId := by
  cases object with
  | none => rfl
  | some q =>
    simp only [receiver?, owner_renumber, qualifier?_renumber, r.superclass?_renumbered]
    split
    · rfl
    · split <;> rfl

theorem selectOverloads_renumber (p : Place) (candidates : List ix.MethodId) :
    selectOverloads (t.renumber r) p (candidates.map r.methodId) =
      (selectOverloads t p candidates).map r.methodId := by
  simp only [selectOverloads, List.length_map, r.bestOverloads_renumbered]
  split <;> rfl

@[simp] theorem callCandidates_renumber (call : Place) :
    (s.renumber r).callCandidates (t.renumber r) call =
      (s.callCandidates t call).map r.methodId := by
  simp only [callCandidates, receiver?_renumber, text_renumber, file_renumber,
    Renumbering.staticOwners_renumbered, List.flatMap_map, r.methodsNamed_renumbered,
    Option.map_map, Function.comp_def]
  cases call.child? .name with
  | none => rfl
  | some nameNode =>
    let own := ((s.receiver? t (call.child? .object)).map fun c =>
      ix.methodsNamed c (s.text nameNode) (arguments call).length).getD []
    have hown : (((s.receiver? t (call.child? .object)).map fun c =>
        (ix.methodsNamed c (s.text nameNode) (arguments call).length).map r.methodId).getD []) =
          own.map r.methodId := by
      show _ = (Option.getD (Option.map _ (s.receiver? t (call.child? .object))) []).map r.methodId
      cases s.receiver? t (call.child? .object) <;> rfl
    simp only [hown, List.isEmpty_map, ← List.map_flatMap]
    rw [← selectOverloads_renumber, apply_ite (List.map r.methodId)]

@[simp] theorem calledMethod?_renumber (call : Place) :
    (s.renumber r).calledMethod? (t.renumber r) call = (s.calledMethod? t call).map r.methodId := by
  rw [calledMethod?, callCandidates_renumber, List.head?_map, calledMethod?]

@[simp] theorem accessedField?_renumber (access : Place) :
    (s.renumber r).accessedField? (t.renumber r) access =
      (s.accessedField? t access).map r.fieldId := by
  simp only [accessedField?, receiver?_renumber, text_renumber]
  cases s.receiver? t (access.child? .object) with
  | none => rfl
  | some c =>
    cases access.child? .field with
    | none => rfl
    | some name => exact r.findField?_renumbered c (s.text name)

@[simp] theorem constructionCandidates_renumber (creation : Place) :
    (s.renumber r).constructionCandidates (t.renumber r) creation =
      (s.constructionCandidates t creation).map r.methodId := by
  simp only [constructionCandidates, text_renumber, file_renumber,
    Renumbering.resolve?_renumbered]
  cases creation.child? .type with
  | none => rfl
  | some type =>
    simp only [Option.bind_some]
    cases ix.resolve? s.file (s.text type) with
    | none => rfl
    | some c =>
      simp only [Option.map_some, Renumbering.constructorsOf_renumbered, selectOverloads_renumber]

theorem fieldClass?_renumber (f : ix.FieldId) :
    fieldClass? (r.fieldId f) = (fieldClass? f).map r.classId := by
  simp only [fieldClass?, Renumbering.fieldId_owner, Renumbering.decl_file, Renumbering.field_type,
    Renumbering.resolve?_renumbered]

theorem expressionClass?_renumber (e : Place) :
    (s.renumber r).expressionClass? (t.renumber r) e = (s.expressionClass? t e).map r.classId := by
  unfold expressionClass?
  split
  case h_1 => rfl
  case h_2 => exact r.superclass?_renumbered s.owner
  case h_3 =>
    rw [local?_renumber, text_renumber]
    cases s.local? (s.text e) e with
    | none =>
      simp only [fieldNamed?_renumber, Option.bind_map, Option.map_bind, Function.comp_def,
        fieldClass?_renumber]
    | some v =>
      simp only [file_renumber, Renumbering.resolve?_renumbered]
      cases v.type with
      | none => rfl
      | some type =>
        simp only [Option.bind_some]
        split
        · exact Option.map_bind.symm
        · rfl
  case h_4 =>
    simp only [accessedField?_renumber, Option.bind_map, Option.map_bind, Function.comp_def,
      fieldClass?_renumber]
  case h_5 =>
    simp only [calledMethod?_renumber, Option.bind_map, Option.map_bind, Function.comp_def,
      Renumbering.method_returnType, Renumbering.methodId_owner, Renumbering.decl_file,
      Renumbering.resolve?_renumbered]
  case h_6 | h_7 =>
    simp only [text_renumber, file_renumber, Renumbering.resolve?_renumbered, Option.map_bind,
      Function.comp_def]
  case h_8 => exact Option.map_bind.symm
  case h_9 => exact r.byName?_renumbered _
  case h_10 => rfl

theorem methodTypeDescriptor_renumber (type : String) :
    ix'.methodTypeDescriptor (s.renumber r).method type = ix.methodTypeDescriptor s.method type :=
  r.methodTypeDescriptor_renumbered s.method type

theorem variableType_renumber (v : LocalVariable) :
    (s.renumber r).variableType (t.renumber r) v = s.variableType t v := by
  simp only [variableType, methodTypeDescriptor_renumber, Typing.renumber]

theorem expressionType_renumber (e : Place) :
    (s.renumber r).expressionType (t.renumber r) e = s.expressionType t e := by
  unfold expressionType
  split
  case h_14 => rw [owner_renumber, Renumbering.decl_internalName]
  case h_15 =>
    rw [local?_renumber, text_renumber]
    cases s.local? (s.text e) e with
    | none =>
      simp only [fieldNamed?_renumber, Option.map_map, Function.comp_def,
        Renumbering.fieldDescriptor_renumbered]
    | some v => exact s.variableType_renumber r t v
  case h_16 =>
    simp only [accessedField?_renumber, Option.map_map, Function.comp_def,
      Renumbering.fieldDescriptor_renumbered]
  case h_17 =>
    simp only [calledMethod?_renumber, Option.map_map, Function.comp_def,
      Renumbering.returnDescriptor_renumbered]
  case h_18 | h_19 => simp only [text_renumber, methodTypeDescriptor_renumber]
  all_goals rfl

/-- However deep types are looked for, those under other numbers correspond. -/
theorem typing_renumbered (n : Nat) : (s.renumber r).typing n = (s.typing n).renumber r := by
  induction n with
  | zero => rfl
  | succ n ih =>
    rw [typing, typing, ih, funext (s.expressionType_renumber r _),
      funext (s.expressionClass?_renumber r _), Typing.renumber]

@[simp] theorem fullTyping_renumbered : (s.renumber r).fullTyping = s.fullTyping.renumber r :=
  s.typing_renumbered r maxDepth

end Scope

end InjectionPoints
