/-
The Java grammar and layout. All its rules are blind (`blind`), so from the same code in other
layout it reads the same nodes, moved (`read?_shift`). Where a rule asks whether tokens touch is
decided by a test on the list of names (`names_seamed`); what it asks about a sibling is a short list
(`testsOf`).
-/
import InjectionPoints.Proofs.Layout.Reading

namespace InjectionPoints.Java.Grammar

open Rule

/-! ## What rules ask -/

/-- Whether the rule asks if tokens touch only where they may make one symbol. -/
def Rule.seamed : Rule → Bool
  | joined parts apart _ =>
    decide (parts.IsChain Seam) && parts.getLast?.all fun x => apart.all fun y => Seam x y
  | seq a b | alt a b => a.seamed && b.seamed
  | node _ a => a.pushes && a.seamed
  | many a | onto _ _ a | field _ a => a.seamed
  | _ => true

/-- The tests that a rule puts to the last sibling. -/
def Rule.tests : Rule → List (Tree → Bool)
  | given test => [test]
  | seq a b | alt a b => a.tests ++ b.tests
  | many a | node _ a | onto _ _ a | field _ a => a.tests
  | _ => []

/-- A test that looks at no place. -/
def Steady (test : Tree → Bool) : Prop := ∀ (m : Shift) (t : Tree), test (m.tree t) = test t

theorem Rule.blind_iff {rule : Rule} :
    rule.Blind ↔ rule.seamed = true ∧ ∀ test ∈ rule.tests, Steady test := by
  induction rule with
  | joined parts apart kind => simp [Blind, seamed, tests, Option.all_eq_true]
  | given test => simp [Blind, seamed, tests, Steady]
  | seq a b iha ihb | alt a b iha ihb =>
    simp only [Blind, seamed, tests, iha, ihb, Bool.and_eq_true, List.forall_mem_append]
    exact and_and_and_comm
  | node kind a ih => simp only [Blind, seamed, tests, ih, Bool.and_eq_true, and_assoc]
  | many a ih | onto role kind a ih | field role a ih => exact ih
  | _ => simp [Blind, seamed, tests]

theorem steady_isOne (kinds : List Kind) : Steady (isOne kinds) := fun m t => by
  rw [isOne, isOne, Shift.kind_tree]

theorem steady_isPlainName : Steady isPlainName := fun m t => by
  simp [isPlainName, isOne, Shift.preorder_tree, Function.comp_def]

/-! ## Levels of operators -/

theorem blind_of_untested {rule : Rule} (hs : rule.seamed = true) (ht : rule.tests = []) :
    rule.Blind :=
  blind_iff.2 ⟨hs, by simp [ht]⟩

theorem blind_oneOf {rules : List Rule} (h : ∀ a ∈ rules, a.Blind) : (oneOf rules).Blind := by
  fun_induction oneOf rules with
  | case1 => exact fun _ _ => rfl
  | case2 a => exact h a List.mem_cons_self
  | case3 a as _ ih =>
    exact ⟨h a List.mem_cons_self, ih fun b hb => h b (List.mem_cons_of_mem a hb)⟩

theorem operators_seamed :
    (binaryOperators.all fun x => x.1.seamed && x.1.tests.isEmpty) = true := by
  decide +kernel

/-- At a level stand some of the binary operators, so no table has all the cases. -/
theorem blind_steps (level : Nat) (arrows : Bool) : (steps level arrows).Blind := by
  refine blind_oneOf fun a ha => ?_
  rw [List.mem_append, List.mem_append] at ha
  rcases ha with (ha | ha) | ha
  · obtain ⟨x, hx, rfl⟩ := List.mem_map.1 ha
    have hop := List.all_eq_true.1 operators_seamed x (List.mem_filter.1 hx).1
    rw [Bool.and_eq_true, List.isEmpty_iff] at hop
    exact ⟨blind_of_untested hop.1 hop.2, trivial⟩
  · split at ha
    · rw [List.mem_singleton.1 ha]
      exact blind_of_untested (by decide +kernel) rfl
    · simp at ha
  · split at ha
    · rw [List.mem_singleton.1 ha]
      cases arrows <;> exact blind_of_untested (by decide +kernel) rfl
    · simp at ha

/-! ## The rules of names -/

theorem names_seamed : (names.all fun name => (flat name).seamed) = true := by
  decide +kernel

theorem seamed_flat (name : Name) : (flat name).seamed = true := by
  obtain ⟨n, hn, hf, _⟩ := exists_mem_names name
  rw [← hf]
  exact List.all_eq_true.1 names_seamed n hn

/-- The tests in the rule of a name. -/
def testsOf : Name → List (Tree → Bool)
  | .primary _ =>
    [fun t => t.kind != .annotatedType, fun t => !isPlainName t, isOne [.identifier],
      isOne [.identifier, .fieldAccess, .arrayAccess]]
  | .simpleType =>
    [isOne [.typeIdentifier, .scopedTypeIdentifier],
      isOne [.typeIdentifier, .scopedTypeIdentifier, .genericType]]
  | .recordPattern => [isOne [.genericType]]
  | .switch => List.replicate 4 (isOne [.genericType])
  | .statement _ => List.replicate 2 (isOne [.identifier, .fieldAccess])
  | _ => []

theorem tests_flat (name : Name) : (flat name).tests = testsOf name := by
  cases name with
  | expression arrows | joined _ arrows | operand arrows | signed arrows | primary arrows
  | statement arrows => cases arrows <;> rfl
  | _ => rfl

theorem steady_testsOf (name : Name) : ∀ test ∈ testsOf name, Steady test := by
  cases name with
  | primary arrows =>
    simp only [testsOf, List.forall_mem_cons]
    have hkind : Steady fun t => t.kind != .annotatedType := fun m t =>
      congrArg (· != Kind.annotatedType) (m.kind_tree t)
    have hname : Steady fun t => !isPlainName t := fun m t =>
      congrArg (!·) (steady_isPlainName m t)
    exact ⟨hkind, hname, steady_isOne _, steady_isOne _, by simp⟩
  | simpleType | recordPattern | switch | statement => simp [testsOf, steady_isOne]
  | _ => simp [testsOf]

theorem blind (name : Name) : (rule name).Blind := by
  have hflat : (flat name).Blind :=
    blind_iff.2 ⟨seamed_flat name, by rw [tests_flat]; exact steady_testsOf name⟩
  cases name with
  | joined level arrows => exact ⟨trivial, blind_steps level arrows⟩
  | _ => exact hflat

theorem pushes_rule (name : Name) : (rule name).pushes = true := by
  have h := (grounded name).1
  cases name with
  | joined level arrows => rfl
  | _ => exact h

variable {m : Shift} {ts : List Token}

/-- The grammar reads the same nodes from moved tokens, at the places to which the tokens move. -/
theorem read?_shift (hl : Token.lexemes (ts.map m.token) = Token.lexemes ts) :
    read? (ts.map m.token) = (read? ts).map (List.map m.tree) := by
  have hread : program.read rule (depth ts.length) [] (ts.map m.token) =
      (program.read rule (depth ts.length) [] ts).map
        (Prod.map (List.map m.tree) (List.map m.token)) :=
    read_shift (s := []) pushes_rule blind trivial hl
  rw [read?, read?, List.length_map, hread]
  cases program.read rule (depth ts.length) [] ts with
  | none => rfl
  | some r =>
    obtain ⟨nodes, rest⟩ := r
    cases rest with
    | nil => simp
    | cons t rest => rfl

end InjectionPoints.Java.Grammar
