/-
The class of an expression beside its type as an argument. Both are read off one source, for most
expressions a written type (`exists_source`). The class forgets array dimensions and knows no type
variables, the argument type keeps both; `typeOf_eq_classDescriptor_iff` says where that makes a
difference, and `boxes_is_no_box` is such an expression.
-/
import Mathlib.Tactic.ByContra
import InjectionPoints.Proofs.TypeText
import InjectionPoints.Proofs.Typing.Depth

namespace InjectionPoints

open Java

variable {ix : ClassIndex}

/-- The descriptor of a class. -/
def ClassIndex.classDescriptor (ix : ClassIndex) (c : ix.ClassId) : String :=
  "L" ++ (ix.decl c).internalName ++ ";"

/-! ## Written types -/

/-- A type as it is written, with its file and the type variables that are in scope there. -/
structure WrittenType where
  file : FileId
  vars : List TypeParam
  text : String

namespace WrittenType

/-- The element type, without generic arguments. -/
def name (w : WrittenType) : String := (TypeText.erasure w.text).1

def dimensions (w : WrittenType) : Nat := (TypeText.erasure w.text).2

/-- Which type variable the element type is, if it is one. -/
def varIndex? (w : WrittenType) : Option Nat := w.vars.findIdx? fun var => var.name == w.name

def class? (ix : ClassIndex) (w : WrittenType) : Option ix.ClassId := ix.resolve? w.file w.text

def descriptor (ix : ClassIndex) (w : WrittenType) : String :=
  ix.erasedDescriptor w.file w.vars w.text

/-- The descriptor that a type variable erases to. -/
def boundDescriptor (ix : ClassIndex) (w : WrittenType) (i : Nat) : String :=
  match (w.vars[i]?).bind TypeParam.bound with
  | some bound => ix.erasedDescriptor w.file (w.vars.eraseIdx i) bound
  | none => ClassIndex.objectDescriptor

/-- The type stands for the objects of the class that it mentions: it is no array, and if it is a
type variable, this one erases to the class. -/
def Means (ix : ClassIndex) (w : WrittenType) (c : ix.ClassId) : Prop :=
  w.dimensions = 0 ∧
    match w.varIndex? with
    | some i => w.boundDescriptor ix i = ix.classDescriptor c
    | none =>
      -- `...` inside a type, where Java has none, is left out of one of the names only
      w.name = TypeText.erasedName w.text ∨ ix.baseDescriptor w.file w.name = ix.classDescriptor c

theorem descriptor_eq (ix : ClassIndex) (w : WrittenType) :
    w.descriptor ix = ClassIndex.arrayOf w.dimensions
      (match w.varIndex? with
      | some i => w.boundDescriptor ix i
      | none => ix.baseDescriptor w.file w.name) := by
  obtain ⟨file, vars, text⟩ := w
  simp only [descriptor, ClassIndex.erasedDescriptor, dimensions, varIndex?, name, boundDescriptor]
  cases vars with
  | nil => rfl
  | cons var vars =>
    rw [List.length_cons, ClassIndex.descriptorWithin]
    cases hi : (var :: vars).findIdx? fun v => v.name == (TypeText.erasure text).1 with
    | none => simp [hi]
    | some i =>
      have hlt : i < (var :: vars).length := (List.findIdx?_eq_some_iff_getElem.1 hi).1
      have hlen : ((var :: vars).eraseIdx i).length = vars.length := by
        rw [List.length_eraseIdx_of_lt hlt, List.length_cons, Nat.add_sub_cancel]
      simp only [hi, hlen] <;> rfl

/-- An array is spelled with a bracket, a class is not. -/
theorem arrayOf_eq_classDescriptor_iff {n : Nat} {d : String} {c : ix.ClassId} :
    ClassIndex.arrayOf n d = ix.classDescriptor c ↔ n = 0 ∧ d = ix.classDescriptor c := by
  cases n with
  | zero => simp [ClassIndex.arrayOf]
  | succ n =>
    have hne : ClassIndex.arrayOf (n + 1) d ≠ ix.classDescriptor c := by
      intro h
      have := congrArg String.toList h
      simp [ClassIndex.arrayOf, ClassIndex.classDescriptor, List.replicate_succ] at this
    simp [hne]

/-- A name that is resolved to a class has the descriptor of the class. -/
theorem baseDescriptor_of_class? {w : WrittenType} {c : ix.ClassId} (hc : w.class? ix = some c)
    (hname : w.name = TypeText.erasedName w.text) :
    ix.baseDescriptor w.file w.name = ix.classDescriptor c := by
  simp only [class?, ClassIndex.resolve?] at hc
  split at hc
  · cases hc
  · next hplain =>
    have hprim : TypeText.primitive? (TypeText.erasedName w.text) = none := by
      simpa using (not_or.1 (mt Bool.or_eq_true_iff.2 hplain)).2
    -- the erased name is resolved as the type is
    have hagain : ix.resolve? w.file (TypeText.erasedName w.text) = some c := by
      simp only [ClassIndex.resolve?, TypeText.erasedName_erasedName]
      rw [if_neg hplain, hc]
    simp only [ClassIndex.baseDescriptor, ClassIndex.internalTypeName, hname, hprim, hagain,
      ClassIndex.classDescriptor]

theorem descriptor_eq_iff {w : WrittenType} {c : ix.ClassId} (hc : w.class? ix = some c) :
    w.descriptor ix = ix.classDescriptor c ↔ w.Means ix c := by
  rw [descriptor_eq, arrayOf_eq_classDescriptor_iff, Means]
  cases w.varIndex? with
  | some i => exact Iff.rfl
  | none =>
    refine and_congr_right fun _ => ?_
    constructor
    · exact .inr
    · exact fun h => h.elim (baseDescriptor_of_class? hc) id

end WrittenType

/-! ## Sources of types -/

/-- What an expression takes its type from. -/
inductive TypeSource where
  /-- The class around the method. -/
  | self
  /-- A string literal. -/
  | string
  | written (type : WrittenType)

namespace TypeSource

variable (s : Scope ix)

def class? : TypeSource → Option ix.ClassId
  | self => some s.owner
  | string => ix.byName? "java.lang.String"
  | written type => type.class? ix

def descriptor : TypeSource → String
  | self => ix.classDescriptor s.owner
  | string => Scope.stringDescriptor
  | written type => type.descriptor ix

/-- The source stands for the objects of the class that it mentions. -/
def Means (ix : ClassIndex) (c : ix.ClassId) : TypeSource → Prop
  | self => True
  | string => (ix.decl c).internalName = "java/lang/String"
  | written type => type.Means ix c

theorem descriptor_eq_iff {src : TypeSource} {c : ix.ClassId} (hc : src.class? s = some c) :
    src.descriptor s = ix.classDescriptor c ↔ src.Means ix c := by
  cases src with
  | self => simp [descriptor, Means, Option.some.inj hc]
  | string =>
    have hstring : Scope.stringDescriptor = "L" ++ "java/lang/String" ++ ";" := by decide
    rw [descriptor, Means, hstring, ClassIndex.classDescriptor, String.append_left_inj,
      String.append_right_inj, eq_comm]
  | written type => exact WrittenType.descriptor_eq_iff hc

end TypeSource

namespace Scope

variable (s : Scope ix)

/-- A type as it is written inside the method. -/
def writtenHere (text : String) : WrittenType := ⟨s.file, ix.methodVariables s.method, text⟩

/-- The written type of a field. -/
def fieldSource (f : ix.FieldId) : WrittenType :=
  ⟨(ix.decl f.owner).file, ix.classVariables f.owner, (ix.field f).type⟩

/-- The written type of what a method returns. -/
def returnSource? (m : ix.MethodId) : Option WrittenType :=
  (ix.method m).returnType.map fun type =>
    ⟨(ix.decl m.owner).file, ix.methodVariables m, type⟩

/-- What an expression takes its type from: parentheses and variables without a type of their own
take that of the expression below. -/
def source? : Nat → Place → Option TypeSource
  | 0, _ => none
  | depth + 1, e =>
    match e.kind with
    | .this => some .self
    | .stringLiteral => some .string
    | .identifier =>
      match s.local? (s.text e) e with
      | some v =>
        v.type.bind fun type =>
          if type == inferredType then v.init.bind (source? depth)
          else some (.written (s.writtenHere type))
      | none => (s.fieldNamed? (s.text e)).map fun f => .written (fieldSource f)
    | .fieldAccess => (s.accessedField? (s.typing depth) e).map fun f => .written (fieldSource f)
    | .methodInvocation =>
      ((s.calledMethod? (s.typing depth) e).bind returnSource?).map .written
    | .objectCreationExpression | .castExpression =>
      (e.child? .type).map fun type => .written (s.writtenHere (s.text type))
    | .parenthesizedExpression => e.namedChildren.head?.bind (source? depth)
    | _ => none

variable {s} {n : Nat} {e : Place} {c : ix.ClassId} {d : String}

/-- Where an expression has a class and an argument type, both come from its source. -/
theorem exists_source (hc : (s.typing n).classOf e = some c)
    (hd : (s.typing n).typeOf e = .known d) :
    ∃ src, s.source? n e = some src ∧ src.class? s = some c ∧ src.descriptor s = d := by
  induction n generalizing e with
  | zero => simp [typing, Typing.none] at hc
  | succ n ih =>
    simp only [typing, expressionClass?, expressionType] at hc hd
    unfold source?
    split at hc
    case h_1 hk =>
      simp only [hk] at hd ⊢
      exact ⟨.self, rfl, hc, ArgumentType.known.inj hd⟩
    case h_2 hk => simp [hk] at hd
    case h_3 hk =>
      simp only [hk] at hd ⊢
      cases hv : s.local? (s.text e) e with
      | some v =>
        simp only [hv, variableType] at hc hd ⊢
        obtain ⟨type, htype, hc⟩ := Option.bind_eq_some_iff.1 hc
        simp only [htype, Option.bind_some] at hd ⊢
        by_cases hvar : (type == inferredType) = true
        · rw [if_pos hvar] at hc hd ⊢
          obtain ⟨init, hinit, hc⟩ := Option.bind_eq_some_iff.1 hc
          rw [hinit] at hd ⊢
          exact ih hc hd
        · rw [if_neg hvar] at hc hd ⊢
          exact ⟨_, rfl, hc, ArgumentType.known.inj hd⟩
      | none =>
        simp only [hv] at hc hd ⊢
        obtain ⟨f, hf, hc⟩ := Option.bind_eq_some_iff.1 hc
        rw [hf] at hd ⊢
        exact ⟨_, rfl, hc, ArgumentType.known.inj hd⟩
    case h_4 hk =>
      simp only [hk] at hd ⊢
      obtain ⟨f, hf, hc⟩ := Option.bind_eq_some_iff.1 hc
      rw [hf] at hd ⊢
      exact ⟨_, rfl, hc, ArgumentType.known.inj hd⟩
    case h_5 hk =>
      simp only [hk] at hd ⊢
      obtain ⟨m, hm, hc⟩ := Option.bind_eq_some_iff.1 hc
      obtain ⟨type, htype, hc⟩ := Option.bind_eq_some_iff.1 hc
      rw [hm] at hd ⊢
      refine ⟨.written ⟨(ix.decl m.owner).file, ix.methodVariables m, type⟩, ?_, hc, ?_⟩
      · simp [returnSource?, htype]
      · rw [← ArgumentType.known.inj hd]
        simp [ClassIndex.returnDescriptor, htype, TypeSource.descriptor, WrittenType.descriptor,
          ClassIndex.methodTypeDescriptor]
    case h_6 hk | h_7 hk =>
      simp only [hk] at hd ⊢
      obtain ⟨type, htype, hc⟩ := Option.bind_eq_some_iff.1 hc
      rw [htype] at hd ⊢
      exact ⟨_, rfl, hc, ArgumentType.known.inj hd⟩
    case h_8 hk =>
      simp only [hk] at hd ⊢
      obtain ⟨e', he', hc⟩ := Option.bind_eq_some_iff.1 hc
      rw [he'] at hd ⊢
      exact ih hc hd
    case h_9 hk =>
      simp only [hk] at hd ⊢
      exact ⟨.string, rfl, hc, ArgumentType.known.inj hd⟩
    case h_10 hk => cases hc

/-- An expression with a class has the type of the class as an argument exactly when its source
means that class. -/
theorem typeOf_eq_classDescriptor_iff (hc : (s.typing n).classOf e = some c)
    (hd : (s.typing n).typeOf e = .known d) :
    d = ix.classDescriptor c ↔ ∃ src, s.source? n e = some src ∧ src.Means ix c := by
  obtain ⟨src, hsrc, hclass, rfl⟩ := exists_source hc hd
  rw [TypeSource.descriptor_eq_iff s hclass]
  constructor
  · exact fun h => ⟨src, hsrc, h⟩
  · intro hx
    obtain ⟨src', hsrc', h⟩ := hx
    rw [hsrc] at hsrc'
    rwa [Option.some.inj hsrc']

/-! ## One box, and several -/

def boxText : String := "class Box\x7bvoid m(Box a)\x7bf((a));\x7d\x7d"

def boxWorkspace : Workspace := Workspace.empty.addFile "Box.java" boxText

def boxSample : Place × Place :=
  (Place.inMethod? .parenthesizedExpression boxText).get (by decide +kernel)

def boxScope : Scope boxWorkspace.index :=
  .ofMethod boxText ⟨⟨0, by decide +kernel⟩, ⟨0, by decide +kernel⟩⟩ boxSample.1

theorem box_is_box :
    (boxScope.typing 2).classOf boxSample.2 = some ⟨0, by decide +kernel⟩ ∧
      (boxScope.typing 2).typeOf boxSample.2 = .known "LBox;" ∧
      ∃ src, boxScope.source? 2 boxSample.2 = some src ∧
        src.Means boxWorkspace.index ⟨0, by decide +kernel⟩ := by
  have hc : (boxScope.typing 2).classOf boxSample.2 = some ⟨0, by decide +kernel⟩ := by
    decide +kernel
  have hd : (boxScope.typing 2).typeOf boxSample.2 = .known "LBox;" := by decide +kernel
  exact ⟨hc, hd, (typeOf_eq_classDescriptor_iff hc hd).1 (by decide +kernel)⟩

def boxesText : String := "class Box\x7bvoid m(Box[] a)\x7bf((a));\x7d\x7d"

def boxesWorkspace : Workspace := Workspace.empty.addFile "Box.java" boxesText

def boxesSample : Place × Place :=
  (Place.inMethod? .parenthesizedExpression boxesText).get (by decide +kernel)

def boxesScope : Scope boxesWorkspace.index :=
  .ofMethod boxesText ⟨⟨0, by decide +kernel⟩, ⟨0, by decide +kernel⟩⟩ boxesSample.1

/-- An array of boxes has the class `Box`, and another type. -/
theorem boxes_is_no_box :
    ¬∀ (ix : ClassIndex) (s : Scope ix) (n : Nat) (e : Place) (c : ix.ClassId) (d : String),
      (s.typing n).classOf e = some c → (s.typing n).typeOf e = .known d →
        d = ix.classDescriptor c := by
  intro hall
  have hc : (boxesScope.typing 2).classOf boxesSample.2 = some ⟨0, by decide +kernel⟩ := by
    decide +kernel
  have hd : (boxesScope.typing 2).typeOf boxesSample.2 = .known "[LBox;" := by decide +kernel
  exact absurd (hall _ boxesScope 2 boxesSample.2 _ _ hc hd) (by decide +kernel)

end Scope

end InjectionPoints
