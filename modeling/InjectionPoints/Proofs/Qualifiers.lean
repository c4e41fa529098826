/-
The qualifier of an access beside the class in which its member is looked up. Both are found apart,
with different treatment of `this` and `super`, but behind any other qualifier than `this` they are the
same class (`receiver?_eq_qualifier?`). So a member belongs to the class that its qualifier names, and
without a qualifier to the scanned class or to one that is imported (`qualifier_of_access`).
-/
import InjectionPoints.Proofs.Hierarchy.Members
import InjectionPoints.Proofs.Overloads.Ranking
import InjectionPoints.Proofs.Typing.Depth
import InjectionPoints.Usage

namespace InjectionPoints

open Java

variable {ix : ClassIndex}

/-! ## Members of a name -/

namespace ClassIndex

/-- A method of a name is one of the class or of a supertype, and has the name. -/
theorem of_mem_methodsNamed {c : ix.ClassId} {name : String} {arity : Nat} {m : ix.MethodId}
    (h : m ∈ ix.methodsNamed c name arity) :
    m.owner ∈ ix.supertypes c ∧ (ix.method m).name = name :=
  have hoffered := (mem_methodsNamed_iff.1 h).1
  ⟨hoffered.owner, hoffered.name⟩

/-- A field of a name is one of the class or of a supertype, and has the name. -/
theorem of_findField? {c : ix.ClassId} {name : String} {f : ix.FieldId}
    (h : ix.findField? c name = some f) :
    f.owner ∈ ix.supertypes c ∧ (ix.field f).name = name :=
  have hoffered := (findField?_eq_some_iff.1 h).1
  ⟨hoffered.owner, hoffered.name⟩

end ClassIndex

/-! ## The class behind a qualifier -/

namespace Scope

variable {s : Scope ix}

theorem classOf_super {q : Place} (hq : q.kind = .super) :
    s.fullTyping.classOf q = ix.superclass? s.owner := by
  show s.expressionClass? (s.typing (maxDepth - 1)) q = _
  unfold expressionClass?
  rw [hq]

theorem qualifier?_super {q : Place} (hq : q.kind = .super) :
    s.qualifier? s.fullTyping (some q) = ix.superclass? s.owner := by
  have hname : s.namedClass? q = none := by simp [namedClass?, hq, isNameKind]
  simp [qualifier?, hq, hname, classOf_super hq]

/-- Behind any qualifier but `this` a member is looked up in the class that the qualifier stands
for. -/
theorem receiver?_eq_qualifier? {q : Place} (hq : q.kind ≠ .this) :
    s.receiver? s.fullTyping (some q) = s.qualifier? s.fullTyping (some q) := by
  by_cases hsuper : q.kind = .super
  · rw [qualifier?_super hsuper]
    simp [receiver?, hsuper]
  · simp [receiver?, hq, hsuper]

variable (s) in
/-- The classes in which a member of a name may be looked up, each beside the class that is recorded
for the qualifier. -/
inductive LooksIn (name : String) : Option Place → Option ix.ClassId → ix.ClassId → Prop
  | qualified {q : Place} {c : ix.ClassId} : q.kind ≠ .this →
      s.qualifier? s.fullTyping (some q) = some c → LooksIn name (some q) (some c) c
  | this {q : Place} : q.kind = .this → LooksIn name (some q) none s.owner
  | own : LooksIn name none none s.owner
  /-- Only a name without qualifier may be an imported one. -/
  | imported {c : ix.ClassId} : c ∈ ix.staticOwners s.file name → LooksIn name none none c

theorem looksIn_of_receiver? (name : String) {object : Option Place} {c : ix.ClassId}
    (h : s.receiver? s.fullTyping object = some c) :
    s.LooksIn name object (s.qualifier? s.fullTyping object) c := by
  cases object with
  | none =>
    obtain rfl : s.owner = c := Option.some.inj h
    exact .own
  | some q =>
    by_cases hq : q.kind = .this
    · obtain rfl : s.owner = c := by simpa [receiver?, hq] using h
      have hnone : s.qualifier? s.fullTyping (some q) = none := by simp [qualifier?, hq]
      exact hnone ▸ .this hq
    · have hc : s.qualifier? s.fullTyping (some q) = some c :=
        (receiver?_eq_qualifier? hq).symm.trans h
      exact hc.symm ▸ .qualified hq hc

variable (s) in
/-- A member has the name, and is declared in or above a class in which it may be looked up. -/
def IsFound (name : String) (object : Option Place) (m : QualifiedMember ix) : Prop :=
  m.member.name = name ∧
    ∃ c, s.LooksIn name object m.qualifier c ∧ m.member.declaringClass ∈ ix.supertypes c

theorem selectOverloads_sublist (t : Typing ix) (call : Place) (candidates : List ix.MethodId) :
    (selectOverloads t call candidates).Sublist candidates := by
  unfold selectOverloads
  split
  · exact .refl _
  · exact ix.bestOverloads_sublist _ _

theorem isFound_of_mem_callCandidates {call : Place} {id : ix.MethodId}
    (h : id ∈ s.callCandidates s.fullTyping call) :
    ∃ nameNode, call.child? .name = some nameNode ∧
      s.IsFound (s.text nameNode) (call.child? .object)
        ⟨.method id, s.qualifier? s.fullTyping (call.child? .object)⟩ := by
  rw [callCandidates_eq] at h
  replace h := (selectOverloads_sublist _ _ _).subset h
  unfold overloads at h
  split at h
  case h_1 => cases h
  case h_2 nameNode hname =>
    dsimp only at h
    split at h
    · next hempty =>
      have hobject : call.child? .object = none :=
        Option.isNone_iff_eq_none.1 (Bool.and_eq_true_iff.1 hempty).2
      obtain ⟨c, hc, hid⟩ := List.mem_flatMap.1 h
      obtain ⟨hmem, hidname⟩ := ClassIndex.of_mem_methodsNamed hid
      rw [hobject]
      exact ⟨nameNode, hname, hidname, c, .imported hc, hmem⟩
    · cases hr : s.receiver? s.fullTyping (call.child? .object) with
      | none => simp [hr] at h
      | some c =>
        rw [hr] at h
        obtain ⟨hmem, hidname⟩ := ClassIndex.of_mem_methodsNamed h
        exact ⟨nameNode, hname, hidname, c, looksIn_of_receiver? _ hr, hmem⟩

theorem isFound_of_accessedField? {access : Place} {id : ix.FieldId}
    (h : s.accessedField? s.fullTyping access = some id) :
    ∃ nameNode, access.child? .field = some nameNode ∧
      s.IsFound (s.text nameNode) (access.child? .object)
        ⟨.field id, s.qualifier? s.fullTyping (access.child? .object)⟩ := by
  obtain ⟨c, hc, h⟩ := Option.bind_eq_some_iff.1 h
  obtain ⟨nameNode, hname, h⟩ := Option.bind_eq_some_iff.1 h
  obtain ⟨hmem, hidname⟩ := ClassIndex.of_findField? h
  exact ⟨nameNode, hname, hidname, c, looksIn_of_receiver? _ hc, hmem⟩

theorem isFound_of_fieldNamed? {name : String} {id : ix.FieldId}
    (h : s.fieldNamed? name = some id) : s.IsFound name none ⟨.field id, none⟩ := by
  rw [fieldNamed?, Option.orElse_eq_orElse, Option.orElse_eq_or, Option.or_eq_some_iff] at h
  rcases h with h | ⟨-, h⟩
  · obtain ⟨hmem, hidname⟩ := ClassIndex.of_findField? h
    exact ⟨hidname, s.owner, .own, hmem⟩
  · obtain ⟨c, hc, h⟩ := List.exists_of_findSome?_eq_some h
    obtain ⟨hmem, hidname⟩ := ClassIndex.of_findField? h
    exact ⟨hidname, c, .imported hc, hmem⟩

end Scope

/-! ## Accesses -/

namespace Usage

open Scope

variable {s : Scope ix} {p : Place} {m : QualifiedMember ix}

/-- The expression in front of the dot of an access; a name alone has none. -/
def object? (p : Place) : Option Place :=
  if p.kind == .identifier then none else p.child? .object

/-- The node that names the member of an access. -/
def nameNode? (p : Place) : Option Place :=
  match p.kind with
  | .methodInvocation => p.child? .name
  | .fieldAccess => p.child? .field
  | _ => some p

theorem isFound_of_access (h : m ∈ calls s p ∨ fieldAccess? s p = some m) :
    ∃ nameNode, nameNode? p = some nameNode ∧ s.IsFound (s.text nameNode) (object? p) m := by
  rcases h with h | h
  · unfold calls at h
    split at h
    · next hk =>
      obtain ⟨id, hid, rfl⟩ := List.mem_map.1 h
      simpa [object?, nameNode?, beq_iff_eq.1 hk] using isFound_of_mem_callCandidates hid
    · cases h
  · unfold fieldAccess? at h
    split at h
    · next hk =>
      obtain ⟨id, hid, rfl⟩ := Option.map_eq_some_iff.1 h
      simpa [object?, nameNode?, beq_iff_eq.1 hk] using isFound_of_accessedField? hid
    · split at h
      · next hk =>
        obtain ⟨id, hid, rfl⟩ := Option.map_eq_some_iff.1 h
        simp only [Bool.and_eq_true, beq_iff_eq] at hk
        simpa [object?, nameNode?, hk.1.1] using isFound_of_fieldNamed? hid
      · cases h

/-- The member of an access has the name that is written. A qualifier other than `this` stands for a
class, the superclass in the case of `super`, and the member is declared in or above this class.
Behind `this` and without a qualifier no class is recorded, and the member is declared in or above
the scanned class; or else there is no qualifier at all, and the member is declared in or above a
class from which the name is imported. -/
theorem qualifier_of_access (h : m ∈ calls s p ∨ fieldAccess? s p = some m) :
    (∃ nameNode, nameNode? p = some nameNode ∧ m.member.name = s.text nameNode) ∧
      (∀ q, object? p = some q → q.kind ≠ .this →
        ∃ c, s.qualifier? s.fullTyping (some q) = some c ∧ m.qualifier = some c ∧
          m.member.declaringClass ∈ ix.supertypes c ∧
          (q.kind = .super → ix.superclass? s.owner = some c)) ∧
      ((∀ q, object? p = some q → q.kind = .this) →
        m.qualifier = none ∧
          (m.member.declaringClass ∈ ix.supertypes s.owner ∨
            object? p = none ∧ ∃ c ∈ ix.staticOwners s.file m.member.name,
              m.member.declaringClass ∈ ix.supertypes c)) := by
  obtain ⟨nameNode, hnode, hname, c, hc, hmem⟩ := isFound_of_access h
  refine ⟨⟨nameNode, hnode, hname⟩, ?_, ?_⟩
  · intro q hq hthis
    rw [hq] at hc
    generalize m.qualifier = qualifier at hc
    cases hc with
    | qualified _ hqc =>
      exact ⟨c, hqc, rfl, hmem, fun hsuper => (qualifier?_super hsuper).symm.trans hqc⟩
    | this hq' => exact absurd hq' hthis
  · intro hthis
    generalize object? p = object at hc hthis
    generalize m.qualifier = qualifier at hc
    cases hc with
    | qualified hne _ => exact absurd (hthis _ rfl) hne
    | this => exact ⟨rfl, .inl hmem⟩
    | own => exact ⟨rfl, .inl hmem⟩
    | imported hc => exact ⟨rfl, .inr ⟨rfl, c, hname ▸ hc, hmem⟩⟩

def superText : String :=
  "class A\x7bvoid g()\x7b\x7d\x7dclass B extends A\x7b\x7d" ++
    "class C extends B\x7bvoid f()\x7bsuper.g();\x7d\x7d"

def superWorkspace : Workspace := Workspace.empty.addFile "C.java" superText

def superSample : Place × Place :=
  (Place.inMethod? .methodInvocation superText).get (by decide +kernel)

def superScope : Scope superWorkspace.index :=
  .ofMethod superText ⟨⟨2, by decide +kernel⟩, ⟨0, by decide +kernel⟩⟩ superSample.1

/-- The method of `A` is called through `B`, the superclass of the scanned class. -/
theorem qualifier_of_super :
    ∃ m ∈ calls superScope superSample.2, ∃ c, m.qualifier = some c ∧
      m.member.declaringClass ∈ superWorkspace.index.supertypes c ∧
      superWorkspace.index.superclass? superScope.owner = some c := by
  have hrun : (calls superScope superSample.2 ≠ []) ∧
      (object? superSample.2).map Place.kind = some .super := by
    decide +kernel
  obtain ⟨m, hm⟩ := List.exists_mem_of_ne_nil _ hrun.1
  obtain ⟨q, hq, hkind⟩ := Option.map_eq_some_iff.1 hrun.2
  obtain ⟨-, hqual, -⟩ := qualifier_of_access (.inl hm)
  obtain ⟨c, -, hc, hmem, hsuper⟩ := hqual q hq (by rw [hkind]; decide)
  exact ⟨m, hm, c, hc, hmem, hsuper hkind⟩

end Usage

end InjectionPoints
