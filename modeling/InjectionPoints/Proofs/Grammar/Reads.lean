/-
What a rule reads, as a relation: `Reads` has one case for each way in which `Rule.read` succeeds
(`reads_of_read`), and forgets the fuel and which alternatives failed before. So a grammar with more
alternatives reads at least as much (`Reads.widen`), and the levels of operators, which are without
end, may be taken for one (`Reads.flat`).
-/
import InjectionPoints.Java.Grammar

namespace InjectionPoints.Java.Grammar

namespace Rule

/-- A rule leads from the siblings `s` and the tokens `ts` to those behind it. -/
inductive Reads (grammar : Name → Rule) :
    Rule → List Tree → List Token → List Tree → List Token → Prop where
  | empty {s : List Tree} {ts : List Token} : Reads grammar .empty s ts s ts
  | joined {parts apart : List String} {kind : Kind} {s : List Tree} {ts rest : List Token}
      {span : Span} :
      takeJoined parts none ts = some (some span, rest) →
        Reads grammar (.joined parts apart kind) s ts (.leaf kind span :: s) rest
  | word {reserved : List String} {kind : Kind} {s : List Tree} {t : Token} {ts : List Token} :
      t.kind = .word → Reads grammar (.word reserved kind) s (t :: ts) (.leaf kind t.span :: s) ts
  | piece {kinds : List Kind} {kind : Kind} {s : List Tree} {t : Token} {ts : List Token} :
      kind ∈ kinds → t.kind = .piece kind →
        Reads grammar (.piece kinds) s (t :: ts) (.leaf kind t.span :: s) ts
  | silent {s : List Tree} {t : Token} {ts : List Token} :
      t.kind = .silent → Reads grammar .silent s (t :: ts) s ts
  | avoid {words : List String} {s : List Tree} {ts : List Token} :
      Reads grammar (.avoid words) s ts s ts
  | given {test : Tree → Bool} {t : Tree} {s : List Tree} {ts : List Token} :
      test t = true → Reads grammar (.given test) (t :: s) ts (t :: s) ts
  | seq {a b : Rule} {s s₁ s₂ : List Tree} {ts ts₁ ts₂ : List Token} :
      Reads grammar a s ts s₁ ts₁ → Reads grammar b s₁ ts₁ s₂ ts₂ →
        Reads grammar (.seq a b) s ts s₂ ts₂
  | left {a b : Rule} {s s' : List Tree} {ts ts' : List Token} :
      Reads grammar a s ts s' ts' → Reads grammar (.alt a b) s ts s' ts'
  | right {a b : Rule} {s s' : List Tree} {ts ts' : List Token} :
      Reads grammar b s ts s' ts' → Reads grammar (.alt a b) s ts s' ts'
  | done {a : Rule} {s : List Tree} {ts : List Token} : Reads grammar (.many a) s ts s ts
  | again {a : Rule} {s s₁ s₂ : List Tree} {ts ts₁ ts₂ : List Token} :
      Reads grammar a s ts s₁ ts₁ → Reads grammar (.many a) s₁ ts₁ s₂ ts₂ →
        Reads grammar (.many a) s ts s₂ ts₂
  | node {kind : Kind} {a : Rule} {s children : List Tree} {ts ts' : List Token} :
      Reads grammar a [] ts children ts' →
        Reads grammar (.node kind a) s ts (.branch kind children.reverse :: s) ts'
  | onto {role : Option Field} {kind : Kind} {a : Rule} {first : Tree} {older children : List Tree}
      {ts ts' : List Token} :
      Reads grammar a [first.withField role] ts children ts' →
        Reads grammar (.onto role kind a) (first :: older) ts
          (.branch kind children.reverse :: older) ts'
  | field {role : Field} {a : Rule} {s children : List Tree} {ts ts' : List Token} :
      Reads grammar a [] ts children ts' →
        Reads grammar (.field role a) s ts (children.map (Tree.withField (some role)) ++ s) ts'
  | ref {name : Name} {s s' : List Tree} {ts ts' : List Token} :
      Reads grammar (grammar name) s ts s' ts' → Reads grammar (.ref name) s ts s' ts'

variable {grammar : Name → Rule}

theorem reads_of_read {fuel : Nat} {rule : Rule} {s s' : List Tree} {ts ts' : List Token}
    (h : rule.read grammar fuel s ts = some (s', ts')) : Reads grammar rule s ts s' ts' := by
  induction fuel generalizing rule s s' ts ts' with
  | zero => simp [read] at h
  | succ fuel ih =>
    cases rule with
    | empty =>
      simp only [read, Option.some.injEq, Prod.mk.injEq] at h
      obtain ⟨rfl, rfl⟩ := h
      exact .empty
    | joined parts apart kind =>
      simp only [read] at h
      split at h
      · rename_i span rest hj
        split at h
        · simp at h
        · simp only [Option.some.injEq, Prod.mk.injEq] at h
          obtain ⟨rfl, rfl⟩ := h
          exact .joined hj
      · simp at h
    | word reserved kind =>
      simp only [read] at h
      split at h
      · split at h
        · rename_i hw
          simp only [Option.some.injEq, Prod.mk.injEq] at h
          obtain ⟨rfl, rfl⟩ := h
          exact .word (beq_iff_eq.1 (Bool.and_eq_true_iff.1 hw).1)
        · simp at h
      · simp at h
    | piece kinds =>
      simp only [read] at h
      split at h
      · rename_i kind text span rest
        split at h
        · rename_i hk
          simp only [Option.some.injEq, Prod.mk.injEq] at h
          obtain ⟨rfl, rfl⟩ := h
          exact .piece (by simpa using hk) rfl
        · simp at h
      · simp at h
    | silent =>
      simp only [read] at h
      split at h
      · simp only [Option.some.injEq, Prod.mk.injEq] at h
        obtain ⟨rfl, rfl⟩ := h
        exact .silent rfl
      · simp at h
    | avoid words =>
      simp only [read] at h
      split at h
      · simp at h
      · simp only [Option.some.injEq, Prod.mk.injEq] at h
        obtain ⟨rfl, rfl⟩ := h
        exact .avoid
    | given test =>
      simp only [read] at h
      split at h
      · split at h
        · rename_i ht
          simp only [Option.some.injEq, Prod.mk.injEq] at h
          obtain ⟨rfl, rfl⟩ := h
          exact .given ht
        · simp at h
      · simp at h
    | seq a b =>
      simp only [read] at h
      split at h
      · rename_i ha
        exact .seq (ih ha) (ih h)
      · simp at h
    | alt a b =>
      simp only [read] at h
      split at h
      · rename_i ha
        simp only [Option.some.injEq] at h
        subst h
        exact .left (ih ha)
      · exact .right (ih h)
    | many a =>
      simp only [read] at h
      split at h
      · rename_i ha
        exact .again (ih ha) (ih h)
      · simp only [Option.some.injEq, Prod.mk.injEq] at h
        obtain ⟨rfl, rfl⟩ := h
        exact .done
    | node kind a =>
      simp only [read] at h
      split at h
      · rename_i ha
        simp only [Option.some.injEq, Prod.mk.injEq] at h
        obtain ⟨rfl, rfl⟩ := h
        exact .node (ih ha)
      · simp at h
    | onto role kind a =>
      simp only [read] at h
      split at h
      · split at h
        · rename_i ha
          simp only [Option.some.injEq, Prod.mk.injEq] at h
          obtain ⟨rfl, rfl⟩ := h
          exact .onto (ih ha)
        · simp at h
      · simp at h
    | field role a =>
      simp only [read] at h
      split at h
      · rename_i ha
        simp only [Option.some.injEq, Prod.mk.injEq] at h
        obtain ⟨rfl, rfl⟩ := h
        exact .field (ih ha)
      · simp at h
    | ref name => exact .ref (ih (by simpa only [read] using h))

/-! ## More alternatives -/

theorem reads_oneOf_iff {rules : List Rule} {s s' : List Tree} {ts ts' : List Token} :
    Reads grammar (oneOf rules) s ts s' ts' ↔ ∃ a ∈ rules, Reads grammar a s ts s' ts' := by
  fun_induction oneOf rules with
  | case1 =>
    constructor
    · intro h
      cases h with
      | given h => simp at h
    · intro hx
      obtain ⟨a, ha, _⟩ := hx
      simp at ha
  | case2 a => simp
  | case3 a as has ih =>
    constructor
    · intro h
      cases h with
      | left h => exact ⟨a, by simp, h⟩
      | right h =>
        obtain ⟨b, hb, hr⟩ := ih.1 h
        exact ⟨b, List.mem_cons_of_mem a hb, hr⟩
    · intro hx
      obtain ⟨b, hb, hr⟩ := hx
      rcases List.mem_cons.1 hb with rfl | hb
      · exact .left hr
      · exact .right (ih.2 ⟨b, hb, hr⟩)

theorem Reads.many_mono {a b : Rule} {s s' : List Tree} {ts ts' : List Token}
    (hab : ∀ s ts s' ts', Reads grammar a s ts s' ts' → Reads grammar b s ts s' ts')
    (h : Reads grammar (.many a) s ts s' ts') : Reads grammar (.many b) s ts s' ts' := by
  generalize hr : Rule.many a = rule at h
  induction h with
  | done => exact .done
  | again ha _ _ ih =>
    cases hr
    exact .again (hab _ _ _ _ ha) (ih rfl)
  | _ => cases hr

/-- A grammar reads whatever another one reads if its rules read what the other rules read. -/
theorem Reads.widen {wide : Name → Rule} {rule : Rule} {s s' : List Tree} {ts ts' : List Token}
    (hw : ∀ name s ts s' ts', Reads wide (grammar name) s ts s' ts' →
      Reads wide (wide name) s ts s' ts')
    (h : Reads grammar rule s ts s' ts') : Reads wide rule s ts s' ts' := by
  induction h with
  | empty => exact .empty
  | joined h => exact .joined h
  | word hw => exact .word hw
  | piece h ht => exact .piece h ht
  | silent ht => exact .silent ht
  | avoid => exact .avoid
  | given h => exact .given h
  | seq _ _ iha ihb => exact .seq iha ihb
  | left _ ih => exact .left ih
  | right _ ih => exact .right ih
  | done => exact .done
  | again _ _ iha ihm => exact .again iha ihm
  | node _ ih => exact .node ih
  | onto _ ih => exact .onto ih
  | field _ ih => exact .field ih
  | ref _ ih => exact .ref (hw _ _ _ _ _ ih)

end Rule

/-! ## One level of operators -/

/-- The grammar in which every level of operators has all of them. -/
def flat : Name → Rule
  | .joined _ arrows => joinedOperands 0 arrows
  | name => Grammar.rule name

theorem reads_steps {level : Nat} {arrows : Bool} {s s' : List Tree} {ts ts' : List Token}
    (h : Rule.Reads flat (steps level arrows) s ts s' ts') :
    Rule.Reads flat (steps 0 arrows) s ts s' ts' := by
  obtain ⟨a, ha, hr⟩ := Rule.reads_oneOf_iff.1 h
  refine Rule.reads_oneOf_iff.2 ⟨a, ?_, hr⟩
  rw [List.mem_append, List.mem_append] at ha ⊢
  rcases ha with (ha | ha) | ha
  · left
    left
    obtain ⟨op, hop, rfl⟩ := List.mem_map.1 ha
    exact List.mem_map.2 ⟨op, by simpa using (List.mem_filter.1 hop).1, rfl⟩
  · left
    right
    split at ha
    · simpa using ha
    · simp at ha
  · right
    split at ha
    · simpa using ha
    · simp at ha

theorem Rule.Reads.flat {rule : Rule} {s s' : List Tree} {ts ts' : List Token}
    (h : Reads Grammar.rule rule s ts s' ts') : Reads Grammar.flat rule s ts s' ts' := by
  refine h.widen fun name s ts s' ts' h => ?_
  cases name with
  | joined level arrows =>
    cases h with
    | seq ha hm => exact .seq ha (hm.many_mono fun _ _ _ _ => reads_steps)
  | _ => exact h

end InjectionPoints.Java.Grammar
