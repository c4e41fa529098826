/-
What the bound on the depth of typing does to the types that are found. A type found with fewer
levels is found with more of them (`keeps_typing`), except where a call with overloads is chosen by
an argument that only the deeper typing knows (`Misled`); `classOf_f_changes` is such a call.
-/
import Mathlib.Tactic.ByContra
import Mathlib.Tactic.Push
import InjectionPoints.Scope.Typing
import InjectionPoints.Workspace

namespace InjectionPoints

open Java

variable {ix : ClassIndex} {t t' : Typing ix} {e e' call : Place}

/-- Whatever one typing finds out about an expression, another finds out as well. -/
structure Typing.Keeps (t t' : Typing ix) (e : Place) : Prop where
  classOf : ∀ c, t.classOf e = some c → t'.classOf e = some c
  typeOf : t.typeOf e ≠ .unknown → t'.typeOf e = t.typeOf e

/-- The first node of a kind that stands in a method, behind the declaration of the method. -/
def Java.Place.inMethod? (k : Kind) (source : String) : Option (Place × Place) :=
  (Tree.ofText? source).bind fun t =>
    ((Place.root t).preorder.filter fun m => m.kind == .methodDeclaration).findSome? fun m =>
      (m.preorder.find? fun e => e.kind == k).map fun e => (m, e)

namespace Scope

variable (s : Scope ix)

/-! ## Calls -/

/-- The methods of the name of a call, before its arguments are looked at. -/
def overloads (t : Typing ix) (call : Place) : List ix.MethodId :=
  match call.child? .name with
  | none => []
  | some nameNode =>
    let name := s.text nameNode
    let arity := (arguments call).length
    let own :=
      ((s.receiver? t (call.child? .object)).map fun c => ix.methodsNamed c name arity).getD []
    if own.isEmpty && (call.child? .object).isNone then
      (ix.staticOwners s.file name).flatMap fun c => ix.methodsNamed c name arity
    else own

theorem callCandidates_eq (t : Typing ix) (call : Place) :
    s.callCandidates t call = selectOverloads t call (s.overloads t call) := by
  unfold callCandidates overloads
  cases call.child? .name with
  | none => simp [selectOverloads]
  | some nameNode => rfl

theorem selectOverloads_nil (t : Typing ix) (call : Place) :
    selectOverloads t call ([] : List ix.MethodId) = [] := rfl

/-- Only the types of the arguments matter for the choice, and none for a single method. -/
theorem selectOverloads_congr {candidates : List ix.MethodId}
    (h : 2 ≤ candidates.length → ∀ a ∈ arguments call, t'.typeOf a = t.typeOf a) :
    selectOverloads t' call candidates = selectOverloads t call candidates := by
  unfold selectOverloads
  split
  · rfl
  · next hlen => rw [List.map_congr_left (h (by omega))]

/-- A call that turns to another method once the type of an argument is known. -/
structure Misled (t t' : Typing ix) (call : Place) : Prop where
  isCall : call.kind = .methodInvocation
  overloaded : 2 ≤ (s.overloads t call).length
  unknown : ∃ a ∈ arguments call, t.typeOf a = .unknown ∧ t'.typeOf a ≠ .unknown
  turns : s.calledMethod? t' call ≠ s.calledMethod? t call

variable {s}

theorem receiver?_keeps {object : Option Place} (h : ∀ q ∈ object, t.Keeps t' q) {c : ix.ClassId}
    (hc : s.receiver? t object = some c) : s.receiver? t' object = some c := by
  cases object with
  | none => exact hc
  | some q =>
    simp only [receiver?, qualifier?] at hc ⊢
    by_cases hthis : (q.kind == .this) = true
    · rw [if_pos hthis] at hc ⊢
      exact hc
    · rw [if_neg hthis] at hc ⊢
      by_cases hsuper : (q.kind == .super) = true
      · rw [if_pos hsuper] at hc ⊢
        exact hc
      · rw [if_neg hsuper, if_neg hthis, Option.orElse_eq_orElse, Option.orElse_eq_or, Option.or_eq_some_iff] at hc ⊢
        exact hc.imp_right fun ⟨hn, hq⟩ => ⟨hn, (h q rfl).classOf c hq⟩

theorem overloads_keeps (hq : ∀ q ∈ call.child? .object, t.Keeps t' q)
    (hne : s.overloads t call ≠ []) : s.overloads t' call = s.overloads t call := by
  unfold overloads at hne ⊢
  cases hname : call.child? .name with
  | none => rfl
  | some nameNode =>
    simp only [hname] at hne ⊢
    cases hr : s.receiver? t (call.child? .object) with
    | some c => rw [receiver?_keeps hq hr]
    | none =>
      -- without a receiver nothing is found, but a call without qualifier has one
      rw [hr] at hne
      cases ho : call.child? .object with
      | none => simp [ho, receiver?] at hr
      | some q => simp [ho] at hne

/-- A method that is called with what one typing knows is called with what a better one knows. -/
theorem calledMethod?_keeps (hk : call.kind = .methodInvocation)
    (hq : ∀ q ∈ call.child? .object, t.Keeps t' q)
    (ha : 2 ≤ (s.overloads t call).length → ∀ a ∈ arguments call, t.Keeps t' a)
    (hm : ¬s.Misled t t' call) {m : ix.MethodId} (h : s.calledMethod? t call = some m) :
    s.calledMethod? t' call = some m := by
  have hne : s.overloads t call ≠ [] := by
    intro he
    simp [calledMethod?, callCandidates_eq, he, selectOverloads_nil] at h
  by_cases hsame : 2 ≤ (s.overloads t call).length →
      ∀ a ∈ arguments call, t'.typeOf a = t.typeOf a
  · rw [calledMethod?, callCandidates_eq] at h ⊢
    rw [overloads_keeps hq hne, selectOverloads_congr hsame, h]
  · push Not at hsame
    obtain ⟨hlen, a, haa, hdiff⟩ := hsame
    have hunknown : t.typeOf a = .unknown := by
      by_contra hknown
      exact hdiff ((ha hlen a haa).typeOf hknown)
    by_contra hturn
    exact hm ⟨hk, hlen, ⟨a, haa, hunknown, hunknown ▸ hdiff⟩, h ▸ hturn⟩

/-! ## One level -/

variable (s)

/-- The expressions whose types may decide the type of another one. -/
inductive Below (t : Typing ix) : Place → Place → Prop
  /-- The first value of a variable that takes its type from it. -/
  | value {e init : Place} {v : LocalVariable} : e.kind = .identifier →
      s.local? (s.text e) e = some v → v.type = some inferredType → v.init = some init →
        Below t e init
  | inner {e e' : Place} : e.kind = .parenthesizedExpression → e.namedChildren.head? = some e' →
      Below t e e'
  | qualifier {e q : Place} : e.kind = .fieldAccess ∨ e.kind = .methodInvocation →
      e.child? .object = some q → Below t e q
  /-- An argument of a call that may mean several methods. -/
  | argument {e a : Place} : e.kind = .methodInvocation → 2 ≤ (s.overloads t e).length →
      a ∈ arguments e → Below t e a
  | operand {e a : Place} {side : Field} : e.kind = .binaryExpression →
      (e.child? .operator).map s.text = some "+" → e.child? side = some a → Below t e a

variable {s}

/-- The types of the expressions below carry over to an expression. -/
theorem expressionClass?_keeps (hbelow : ∀ e', s.Below t e e' → t.Keeps t' e')
    (hm : ¬s.Misled t t' e) {c : ix.ClassId} (hc : s.expressionClass? t e = some c) :
    s.expressionClass? t' e = some c := by
  unfold expressionClass? at hc ⊢
  split at hc
  case h_1 hk => exact hc
  case h_2 hk => exact hc
  case h_3 hk =>
    split at hc
    · next v hv =>
      obtain ⟨type, htype, hc⟩ := Option.bind_eq_some_iff.1 hc
      rw [htype, Option.bind_some]
      split at hc
      · next hvar =>
        obtain ⟨init, hinit, hc⟩ := Option.bind_eq_some_iff.1 hc
        rw [if_pos hvar, hinit, Option.bind_some]
        exact (hbelow init (.value hk hv (by rw [htype, beq_iff_eq.1 hvar]) hinit)).classOf c hc
      · next hvar => rw [if_neg hvar, hc]
    · exact hc
  case h_4 hk =>
    obtain ⟨f, hf, hc⟩ := Option.bind_eq_some_iff.1 hc
    obtain ⟨r, hr, hf⟩ := Option.bind_eq_some_iff.1 hf
    have hr' := receiver?_keeps (fun q hq => hbelow q (.qualifier (.inl hk) hq)) hr
    rw [accessedField?, hr', Option.bind_eq_bind, Option.bind_some, hf, Option.bind_some, hc]
  case h_5 hk =>
    obtain ⟨m, hcall, hc⟩ := Option.bind_eq_some_iff.1 hc
    have hcall' := calledMethod?_keeps hk (fun q hq => hbelow q (.qualifier (.inr hk) hq))
      (fun hlen a ha => hbelow a (.argument hk hlen ha)) hm hcall
    rw [hcall', Option.bind_some, hc]
  case h_6 hk => exact hc
  case h_7 hk => exact hc
  case h_8 hk =>
    obtain ⟨e', he', hc⟩ := Option.bind_eq_some_iff.1 hc
    rw [he', Option.bind_some]
    exact (hbelow e' (.inner hk he')).classOf c hc
  case h_9 hk => exact hc
  case h_10 hk => exact absurd hc (by simp)

theorem variableType_keeps {v : LocalVariable}
    (h : ∀ init ∈ v.init, v.type = some inferredType → t.Keeps t' init)
    (hne : s.variableType t v ≠ .unknown) : s.variableType t' v = s.variableType t v := by
  unfold variableType at hne ⊢
  cases htype : v.type with
  | none => rfl
  | some type =>
    simp only [htype] at hne ⊢
    split
    · next hvar =>
      cases hinit : v.init with
      | none => rfl
      | some init =>
        rw [if_pos hvar, hinit] at hne
        exact (h init hinit (by rw [htype, beq_iff_eq.1 hvar])).typeOf hne
    · rfl

theorem binaryType_keeps
    (h : (e.child? .operator).map s.text = some "+" →
      ∀ (side : Field) (a : Place), e.child? side = some a → t.Keeps t' a)
    (hne : s.binaryType t e ≠ .unknown) : s.binaryType t' e = s.binaryType t e := by
  unfold binaryType at hne ⊢
  cases hop : (e.child? .operator).map s.text with
  | none => rfl
  | some operator =>
    simp only [hop] at hne ⊢
    split
    · rfl
    · next hcmp =>
      rw [if_neg hcmp] at hne
      split at hne
      · next hplus =>
        -- a text operand stays one
        have hplus' := hplus
        simp only [Bool.and_eq_true, beq_iff_eq, List.any_eq_true, Option.any_eq_true] at hplus'
        obtain ⟨ho, side, hside, a, ha, hstring⟩ := hplus'
        have hkeep := (h (by rw [hop, ho]) side a ha).typeOf (by rw [hstring]; simp)
        rw [if_pos hplus, if_pos]
        simp only [Bool.and_eq_true, beq_iff_eq, List.any_eq_true, Option.any_eq_true]
        exact ⟨ho, side, hside, a, ha, hkeep.trans hstring⟩
      · exact absurd rfl hne

/-- The types of the expressions below carry over to the argument type of an expression. -/
theorem expressionType_keeps (hbelow : ∀ e', s.Below t e e' → t.Keeps t' e')
    (hm : ¬s.Misled t t' e) (hne : s.expressionType t e ≠ .unknown) :
    s.expressionType t' e = s.expressionType t e := by
  unfold expressionType at hne ⊢
  split
  case h_15 hk =>
    simp only [hk] at hne
    split
    · next v hv =>
      rw [hv] at hne
      exact variableType_keeps (fun init hinit htype => hbelow init (.value hk hv htype hinit)) hne
    · rfl
  case h_16 hk =>
    simp only [hk] at hne
    cases hf : s.accessedField? t e with
    | none => simp [hf] at hne
    | some f =>
      obtain ⟨r, hr, hf⟩ := Option.bind_eq_some_iff.1 hf
      have hr' := receiver?_keeps (fun q hq => hbelow q (.qualifier (.inl hk) hq)) hr
      rw [accessedField?, hr', Option.bind_eq_bind, Option.bind_some, hf]
  case h_17 hk =>
    simp only [hk] at hne
    cases hcall : s.calledMethod? t e with
    | none => simp [hcall] at hne
    | some m =>
      rw [calledMethod?_keeps hk (fun q hq => hbelow q (.qualifier (.inr hk) hq))
        (fun hlen a ha => hbelow a (.argument hk hlen ha)) hm hcall]
  case h_20 hk =>
    simp only [hk] at hne
    cases he' : e.namedChildren.head? with
    | none => rfl
    | some e' =>
      rw [he'] at hne
      exact (hbelow e' (.inner hk he')).typeOf hne
  case h_21 hk =>
    simp only [hk] at hne
    exact binaryType_keeps (fun hplus side a ha => hbelow a (.operand hk hplus ha)) hne
  all_goals rfl

/-! ## Any number of levels -/

variable (s)

/-- With `n` levels for `e`, the expression `e'` below it is typed with `k` levels. -/
inductive Reaches : Nat → Place → Nat → Place → Prop
  | here {n : Nat} {e : Place} : Reaches n e n e
  | there {n k : Nat} {e e₁ e' : Place} : s.Below (s.typing n) e e₁ → Reaches n e₁ k e' →
      Reaches (n + 1) e k e'

variable {s}

theorem Reaches.le {n k : Nat} {e e' : Place} (h : s.Reaches n e k e') : k ≤ n := by
  induction h with
  | here => exact Nat.le_refl _
  | there _ _ ih => exact Nat.le_succ_of_le ih

/-- With `d` more levels all that was found stays, when no call on the way is misled. -/
theorem keeps_typing (d : Nat) {n : Nat} {e : Place}
    (hcalls : ∀ k call, s.Reaches n e (k + 1) call →
      ¬s.Misled (s.typing k) (s.typing (k + d)) call) :
    (s.typing n).Keeps (s.typing (n + d)) e := by
  induction n generalizing e with
  | zero => exact ⟨fun c hc => by simp [typing, Typing.none] at hc, fun hne => absurd rfl hne⟩
  | succ n ih =>
    have hbelow : ∀ e', s.Below (s.typing n) e e' → (s.typing n).Keeps (s.typing (n + d)) e' :=
      fun e' he' => ih fun k call hr => hcalls k call (.there he' hr)
    have hm := hcalls n e .here
    rw [Nat.add_right_comm]
    exact ⟨fun c hc => expressionClass?_keeps hbelow hm hc, expressionType_keeps hbelow hm⟩

/-- A class found with fewer levels is found with more, when no call on the way is misled. -/
theorem classOf_typing_of_le {m n : Nat} (hmn : m ≤ n) {e : Place}
    (hcalls : ∀ k call, s.Reaches m e (k + 1) call →
      ¬s.Misled (s.typing k) (s.typing (k + (n - m))) call)
    {c : ix.ClassId} (hc : (s.typing m).classOf e = some c) : (s.typing n).classOf e = some c := by
  have h := (keeps_typing (n - m) hcalls).classOf c hc
  rwa [Nat.add_sub_cancel' hmn] at h

/-! ## A call that the type of its argument decides -/

def overloadText : String :=
  "class A\x7bA f(int i)\x7b\x7dB f(A a)\x7bf(a);\x7d\x7dclass B\x7b\x7d"

def overloadWorkspace : Workspace := Workspace.empty.addFile "A.java" overloadText

def overloadSample : Place × Place :=
  (Place.inMethod? .methodInvocation overloadText).get (by decide +kernel)

def overloadScope : Scope overloadWorkspace.index :=
  .ofMethod overloadText ⟨⟨0, by decide +kernel⟩, ⟨1, by decide +kernel⟩⟩ overloadSample.1

/-- Two levels find the type of the argument, and with it the method `f(A)` that is called. -/
theorem classOf_f_stays :
    (overloadScope.typing 2).classOf overloadSample.2 = some ⟨1, by decide +kernel⟩ ∧
      (overloadScope.typing maxDepth).classOf overloadSample.2 = some ⟨1, by decide +kernel⟩ := by
  have hc : (overloadScope.typing 2).classOf overloadSample.2 = some ⟨1, by decide +kernel⟩ := by
    decide +kernel
  refine ⟨hc, classOf_typing_of_le (by decide) (fun k call hr hm => ?_) hc⟩
  have hk : overloadSample.2.kind = .methodInvocation := by decide +kernel
  cases hr with
  | here =>
    obtain ⟨a, ha, hunknown, _⟩ := hm.unknown
    have hall : ((arguments overloadSample.2).all fun a =>
        (overloadScope.typing 1).typeOf a != .unknown) = true := by decide +kernel
    simpa [hunknown] using List.all_eq_true.1 hall a ha
  | there hb hr =>
    cases hb with
    | value hk' | inner hk' | operand hk' => rw [hk] at hk'; cases hk'
    | qualifier _ hq =>
      have hnone : overloadSample.2.child? .object = none := by decide +kernel
      rw [hnone] at hq
      cases hq
    | argument _ _ ha =>
      cases hr with
      | here =>
        have hall : ((arguments overloadSample.2).all fun a => a.kind != .methodInvocation) = true := by
          decide +kernel
        simpa [hm.isCall] using List.all_eq_true.1 hall call ha
      | there _ hr => exact absurd hr.le (by omega)

/-- One level takes the call for one of `f(int)`, two levels for one of `f(A)`. -/
theorem classOf_f_changes :
    ¬∀ (ix : ClassIndex) (s : Scope ix) (e : Place) (m n : Nat) (c : ix.ClassId), m ≤ n →
      n ≤ maxDepth → (s.typing m).classOf e = some c → (s.typing n).classOf e = some c := by
  intro hall
  have hone : (overloadScope.typing 1).classOf overloadSample.2 = some ⟨0, by decide +kernel⟩ := by
    decide +kernel
  have htwo : (overloadScope.typing 2).classOf overloadSample.2 = some ⟨1, by decide +kernel⟩ := by
    decide +kernel
  have h := hall _ overloadScope overloadSample.2 1 2 _ (by decide) (by decide) hone
  rw [htwo] at h
  exact absurd h (by decide +kernel)

end Scope

end InjectionPoints
