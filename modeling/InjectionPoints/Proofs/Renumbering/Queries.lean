/-
Queries under other numbers. A workspace that holds the same files under other numbers
(`Workspace.Renumbering`) finds the renumbered members in a body and the renumbered method for an
injector, and so every query has the same answer, with the same log.
-/
import InjectionPoints.Proofs.Renumbering.Typing
import InjectionPoints.Query

namespace InjectionPoints

open Java

section Body

variable {ix ix' : ClassIndex} (r : Renumbering ix ix')

/-! ## Members -/

namespace Member

/-- A member in terms of the renumbered index. -/
def renumber : Member ix → Member ix'
  | method m => method (r.methodId m)
  | field f => field (r.fieldId f)

variable (m : Member ix)

@[simp] theorem declaringClass_renumber :
    (m.renumber r).declaringClass = r.classId m.declaringClass := by
  cases m <;> rfl

@[simp] theorem name_renumber : (m.renumber r).name = m.name := by
  cases m with
  | method m => exact r.method_name m
  | field f => exact r.field_name f

@[simp] theorem descriptor_renumber : (m.renumber r).descriptor = m.descriptor := by
  cases m with
  | method m => exact r.methodDescriptor_renumbered m
  | field f => exact r.fieldDescriptor_renumbered f

@[simp] theorem isField_renumber : (m.renumber r).isField = m.isField := by
  cases m <;> rfl

end Member

namespace QualifiedMember

/-- A member and its qualifier in terms of the renumbered index. -/
def renumber (m : QualifiedMember ix) : QualifiedMember ix' :=
  ⟨m.member.renumber r, m.qualifier.map r.classId⟩

variable (m : QualifiedMember ix)

theorem owner_renumber : (m.renumber r).owner = r.classId m.owner := by
  rw [owner, owner, renumber, Member.declaringClass_renumber]
  cases m.qualifier <;> rfl

@[simp] theorem isSelectedBy_renumber (selector : Selector) :
    (m.renumber r).isSelectedBy selector = m.isSelectedBy selector := by
  rw [isSelectedBy, owner_renumber, Renumbering.decl_internalName]
  simp only [renumber, Member.name_renumber, Member.descriptor_renumber, isSelectedBy]

@[simp] theorem literal_renumber : (m.renumber r).literal = m.literal := by
  rw [literal, selector, owner_renumber, Renumbering.decl_internalName]
  simp only [renumber, Member.name_renumber, Member.descriptor_renumber, Member.isField_renumber,
    literal, selector]

end QualifiedMember

/-! ## Elements of a body -/

namespace Usage

variable (s : Scope ix)

theorem calls_renumber (p : Place) :
    calls (s.renumber r) p = (calls s p).map (QualifiedMember.renumber r) := by
  simp only [calls, Scope.fullTyping_renumbered, Scope.qualifier?_renumber,
    Scope.callCandidates_renumber, List.map_map]
  split
  · simp only [List.map_map]
    rfl
  · rfl

theorem constructions_renumber (p : Place) :
    constructions (s.renumber r) p = (constructions s p).map (QualifiedMember.renumber r) := by
  simp only [constructions, Scope.fullTyping_renumbered, Scope.constructionCandidates_renumber,
    List.map_map]
  split
  · simp only [List.map_map]
    rfl
  · rfl

theorem fieldAccess?_renumber (p : Place) :
    fieldAccess? (s.renumber r) p = (fieldAccess? s p).map (QualifiedMember.renumber r) := by
  simp only [fieldAccess?, Scope.fullTyping_renumbered, Scope.accessedField?_renumber,
    Scope.qualifier?_renumber, Scope.isLocal_renumber, Scope.text_renumber,
    Scope.fieldNamed?_renumber, Option.map_map]
  split
  · simp only [Option.map_map]
    rfl
  · split
    · simp only [Option.map_map]
      rfl
    · rfl

/-- A node stands for the renumbered members. -/
theorem members_renumber (element : Element) (p : Place) :
    members (s.renumber r) element p = (members s element p).map (QualifiedMember.renumber r) := by
  cases element with
  | call => exact calls_renumber r s p
  | construction => exact constructions_renumber r s p
  | stringArgument => rfl
  | fieldAccess =>
    simp only [members, fieldAccess?_renumber]
    cases fieldAccess? s p <;> rfl

/-- A text selects the same elements of a body. -/
theorem find?_renumber (element : Element) (body : Place) (text : String) (firstOnly : Bool) :
    find? (s.renumber r) element body text firstOnly = find? s element body text firstOnly := by
  simp only [find?, members_renumber, List.any_map, Function.comp_def,
    QualifiedMember.isSelectedBy_renumber]
  rfl

theorem memberVariant_renumber (m : QualifiedMember ix) :
    memberVariant (s.renumber r) (m.renumber r) = memberVariant s m := by
  have hown : (r.classId m.member.declaringClass == r.classId s.owner) =
      (m.member.declaringClass == s.owner) := by
    rw [Bool.eq_iff_iff, beq_iff_eq, beq_iff_eq, r.classId_inj]
  simp only [memberVariant, QualifiedMember.literal_renumber, Scope.owner_renumber]
  simp only [QualifiedMember.renumber, Member.declaringClass_renumber, Member.name_renumber,
    Member.descriptor_renumber, Renumbering.decl_name, hown]

/-- A body offers the same variants. -/
theorem variants_renumber (element : Element) (body : Place) :
    variants (s.renumber r) element body = variants s element body := by
  have h (p : Place) : variant? (s.renumber r) element p = variant? s element p := by
    simp only [variant?, members_renumber, List.head?_map, Option.map_map, Function.comp_def,
      memberVariant_renumber]
    rfl
  rw [variants, funext h, variants]

end Usage

end Body

/-! ## Targets of injectors -/

/-- Two workspaces with the same files under other numbers. -/
structure Workspace.Renumbering (ws ws' : Workspace) extends
    InjectionPoints.Renumbering ws.index ws'.index where
  file_eq : ∀ f, ws'.files[file f]? = ws.files[f]?
  /-- Classes keep their positions in the texts too. -/
  class_eq : ∀ c, ws'.index.decl (toRenumbering.classId c) = (ws.index.decl c).renumber file cls
  fileId?_eq : ∀ path, ws'.fileId? path = (ws.fileId? path).map file

namespace Workspace.Renumbering

variable {ws ws' : Workspace} (r : Renumbering ws ws')

@[simp] theorem text_renumbered (f : FileId) : ws'.text (r.file f) = ws.text f := by
  rw [text, r.file_eq, text]

@[simp] theorem root?_renumbered (f : FileId) : ws'.root? (r.file f) = ws.root? f := by
  rw [root?, r.file_eq, root?]

@[simp] theorem path_renumbered (f : FileId) : ws'.path (r.file f) = ws.path f := by
  rw [path, r.file_eq, path]

@[simp] theorem method_eq (m : ws.index.MethodId) :
    ws'.index.method (r.methodId m) = ws.index.method m :=
  List.getElem_of_eq (congrArg ClassDecl.methods (r.class_eq m.owner)) (r.methodId m).slot.isLt

end Workspace.Renumbering

/-- A method with its declaration, in terms of the renumbered index. -/
def TargetMethod.renumber {ix ix' : ClassIndex} (r : Renumbering ix ix') (m : TargetMethod ix) :
    TargetMethod ix' :=
  ⟨r.methodId m.method, m.declaration, m.body⟩

namespace Target

variable {ws ws' : Workspace} (r : ws.Renumbering ws')

theorem classesNamed_renumbered (source : String) (f : FileId) (mixin : Place) :
    classesNamed ws' source (r.file f) mixin =
      (classesNamed ws source f mixin).map r.classId := by
  have hbyName : ws'.index.byName? = fun name => (ws.index.byName? name).map r.classId :=
    funext r.byName?_renumbered
  rw [classesNamed, classesNamed, ← eraseReps_map r.classId_injective, List.map_append,
    List.map_filterMap, List.map_filterMap, funext (r.resolve?_renumbered f), hbyName]

theorem class?_renumbered (source : String) (f : FileId) (p : Place) :
    class? ws' source (r.file f) p = (class? ws source f p).map r.classId := by
  unfold class?
  cases mixin? source p with
  | none => rfl
  | some mixin =>
    simp only [orObstacle, bind, Except.bind, classesNamed_renumbered]
    rcases classesNamed ws source f mixin with _ | ⟨c, _ | ⟨d, cs⟩⟩
    · rfl
    · rfl
    · simp [Except.map]

theorem method?_renumbered (c : ws.index.ClassId) (text : String) :
    method? ws' (r.classId c) text = (method? ws c text).map r.methodId := by
  unfold method?
  cases Selector.parse? text with
  | none => rfl
  | some selector =>
    have hselected : ((ws'.index.methodsOf (r.classId c)).filter fun m =>
        selector.selects (ws'.index.method m).name (ws'.index.methodDescriptor m)
          (ws'.index.decl (r.classId c)).internalName) =
        ((ws.index.methodsOf c).filter fun m =>
          selector.selects (ws.index.method m).name (ws.index.methodDescriptor m)
            (ws.index.decl c).internalName).map r.methodId := by
      rw [r.methodsOf_renumbered, List.filter_map]
      simp only [Function.comp_def, r.method_eq, r.methodDescriptor_renumbered,
        r.decl_internalName]
    simp only [orObstacle, bind, Except.bind, hselected]
    rcases (ws.index.methodsOf c).filter fun m =>
        selector.selects (ws.index.method m).name (ws.index.methodDescriptor m)
          (ws.index.decl c).internalName with _ | ⟨m, _ | ⟨n, ms⟩⟩
    · rfl
    · rfl
    · rfl

theorem declaration?_renumbered (m : ws.index.MethodId) :
    declaration? ws' (r.methodId m) =
      (declaration? ws m).map (TargetMethod.renumber r.toRenumbering) := by
  simp only [declaration?, r.methodId_owner, r.decl_file, r.root?_renumbered, r.method_eq]
  cases ws.root? (ws.index.decl m.owner).file with
  | none => rfl
  | some root =>
    simp only [Option.bind_eq_bind, Option.bind_some]
    cases root.exactly? (ws.index.method m).declSpan Kind.methodDeclarations.contains with
    | none => rfl
    | some declaration =>
      simp only [Option.bind_some]
      cases declaration.child? .body <;> rfl

/-- An injector names the renumbered method. -/
theorem resolve_renumbered (f : FileId) (point : Place) :
    resolve ws' (r.file f) point =
      (resolve ws f point).map (TargetMethod.renumber r.toRenumbering) := by
  simp only [resolve, r.text_renumbered]
  cases orObstacle .noInjector (Annotations.enclosing? point) with
  | error o => rfl
  | ok injector =>
    simp only [bind, Except.bind]
    cases selector? (ws.text f) injector with
    | error o => rfl
    | ok text =>
      simp only [class?_renumbered]
      cases class? ws (ws.text f) f point with
      | error o => rfl
      | ok c =>
        simp only [Except.map, method?_renumbered]
        cases method? ws c text with
        | error o => rfl
        | ok m =>
          simp only [r.method_eq, declaration?_renumbered]
          split
          · cases declaration? ws m <;> rfl
          · rfl

end Target

/-! ## References -/

namespace Reference

variable {ws ws' : Workspace} (r : ws.Renumbering ws')

/-- A reference under the new number of its file. -/
def renumber (ref : Reference) : Reference := { ref with file := r.file ref.file }

theorem ofLiteral?_renumbered (f : FileId) (literal : Place) :
    ofLiteral? ws' (r.file f) literal = (ofLiteral? ws f literal).map (renumber r) := by
  simp only [ofLiteral?, r.text_renumbered]
  cases Annotations.enclosing? literal with
  | none => rfl
  | some point =>
    simp only [Option.bind_eq_bind, Option.bind_some]
    split
    · cases Annotations.attribute? (ws.text f) "target" point with
      | none => rfl
      | some target =>
        simp only [Option.bind_some]
        split <;> rfl
    · rfl

theorem at?_renumbered (path : String) (offset : Nat) :
    at? ws' path offset = (at? ws path offset).map (renumber r) := by
  simp only [at?, r.fileId?_eq]
  cases ws.fileId? path with
  | none => rfl
  | some f =>
    simp only [Option.map_some, Option.bind_eq_bind, Option.bind_some, r.root?_renumbered]
    cases ws.root? f with
    | none => rfl
    | some root =>
      simp only [Option.bind_some, ofLiteral?_renumbered]
      cases ((root.descend offset offset) :: (root.descend offset offset).ancestors).find? fun a =>
          a.kind == .stringLiteral || a.kind == .elementValuePair with
      | none => rfl
      | some near =>
        simp only [Option.bind_some]
        split <;> rfl

theorem scope_renumbered (m : TargetMethod ws.index) :
    scope ws' (m.renumber r.toRenumbering) = (scope ws m).renumber r.toRenumbering := by
  simp only [scope, TargetMethod.renumber, r.methodId_owner, r.decl_file, r.text_renumbered,
    Scope.ofMethod, Scope.renumber]

/-- A reference selects the same elements of the renumbered file. -/
theorem elements_renumbered (ref : Reference) (firstOnly : Bool) :
    (ref.renumber r).elements ws' firstOnly =
      (ref.elements ws firstOnly).map fun (f, found) => (r.file f, found) := by
  have helement : (ref.renumber r).element = ref.element := rfl
  have htext : (ref.renumber r).text = ref.text := rfl
  have htarget : Target.resolve ws' (ref.renumber r).file (ref.renumber r).point =
      (Target.resolve ws ref.file ref.point).map (TargetMethod.renumber r.toRenumbering) :=
    Target.resolve_renumbered r ref.file ref.point
  rw [elements, helement, htarget, htext, elements]
  cases ref.element with
  | error o => rfl
  | ok element =>
    cases Target.resolve ws ref.file ref.point with
    | error o => rfl
    | ok m =>
      have hbody : (m.renumber r.toRenumbering).body = m.body := rfl
      have hfile : (ws'.index.decl (m.renumber r.toRenumbering).method.owner).file =
          r.file (ws.index.decl m.method.owner).file := r.decl_file m.method.owner
      simp only [bind, Except.bind, Except.map, scope_renumbered, Usage.find?_renumber, hbody,
        hfile]
      cases Usage.find? (scope ws m) element m.body ref.text firstOnly <;> rfl

theorem variants_renumbered (ref : Reference) :
    (ref.renumber r).variants ws' = ref.variants ws := by
  have helement : (ref.renumber r).element = ref.element := rfl
  have htarget : Target.resolve ws' (ref.renumber r).file (ref.renumber r).point =
      (Target.resolve ws ref.file ref.point).map (TargetMethod.renumber r.toRenumbering) :=
    Target.resolve_renumbered r ref.file ref.point
  rw [variants, helement, htarget, variants]
  cases ref.element with
  | error o => rfl
  | ok element =>
    cases Target.resolve ws ref.file ref.point with
    | error o => rfl
    | ok m =>
      have hbody : (m.renumber r.toRenumbering).body = m.body := rfl
      simp only [bind, Except.bind, Except.map, scope_renumbered, Usage.variants_renumber, hbody]

theorem isUnresolved_renumbered (ref : Reference) :
    (ref.renumber r).isUnresolved ws' = ref.isUnresolved ws := by
  rw [isUnresolved, elements_renumbered, isUnresolved]
  cases ref.elements ws true <;> rfl

end Reference

/-! ## Queries -/

namespace Query

variable {ws ws' : Workspace} (r : ws.Renumbering ws')

/-- A question that has the same answer for a renumbered reference has it at every cursor. -/
theorem ask_renumbered {α : Type} {default : α} {question question' : Reference → Except Obstacle α}
    (h : ∀ ref : Reference, question' (ref.renumber r) = question ref) (path : String)
    (offset : Nat) : ask ws' default question' path offset = ask ws default question path offset := by
  simp only [ask, Reference.at?_renumbered r]
  cases Reference.at? ws path offset with
  | none => rfl
  | some ref => simp only [Option.map_some, h]

include r

theorem isUnresolved_eq : isUnresolved ws' = isUnresolved ws :=
  funext fun path => funext fun offset =>
    ask_renumbered r (Reference.isUnresolved_renumbered r) path offset

theorem resolveReference_eq : resolveReference ws' = resolveReference ws := by
  refine funext fun path => funext fun offset => ask_renumbered r (fun ref => ?_) path offset
  rw [Reference.elements_renumbered]
  cases ref.elements ws false with
  | error o => rfl
  | ok found => simp only [Except.map, r.path_renumbered]

theorem resolveTarget_eq : resolveTarget ws' = resolveTarget ws := by
  funext path offset
  rw [resolveTarget, resolveReference_eq r, resolveTarget]

theorem completions_eq : completions ws' = completions ws := by
  refine funext fun path => funext fun offset => ask_renumbered r (fun ref => ?_) path offset
  rw [Reference.variants_renumbered]
  rfl

theorem usesMember_eq : usesMember ws' = usesMember ws :=
  funext fun path => funext fun offset => ask_renumbered r (fun _ => rfl) path offset

theorem references_renumbered (path : String) :
    references ws' path = (references ws path).map (Reference.renumber r) := by
  simp only [references, r.fileId?_eq]
  cases ws.fileId? path with
  | none => rfl
  | some f =>
    simp only [Option.map_some, r.root?_renumbered]
    cases ws.root? f with
    | none => rfl
    | some root =>
      simp only [List.map_filterMap]
      exact List.filterMap_congr fun literal _ => Reference.ofLiteral?_renumbered r f literal

theorem diagnostics_eq : diagnostics ws' = diagnostics ws := by
  funext path
  have hunresolved (ref : Reference) : Diagnostic.unresolved (ref.renumber r) = .unresolved ref := rfl
  simp only [diagnostics, references_renumbered r, List.map_map, Function.comp_def,
    Reference.isUnresolved_renumbered, List.filter_map, List.flatMap_map, hunresolved]

end Query

end InjectionPoints
