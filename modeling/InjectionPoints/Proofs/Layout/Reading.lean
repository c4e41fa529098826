/-
Reading and layout. A rule is `Blind` if it looks at tokens and siblings apart from their places,
and asks whether two tokens touch only where they may make one symbol. Such a rule reads moved
tokens as it reads the tokens, and its nodes move along (`read_shift`).
-/
import Mathlib.Data.List.Chain
import InjectionPoints.Proofs.Grammar.Positions
import InjectionPoints.Proofs.Layout.Shift

namespace InjectionPoints.Java

open Token

/-! ## Moved trees -/

namespace Shift

mutual

/-- The tree at its new place. -/
def tree (m : Shift) : Tree → Tree
  | .node k f s cs => .node k f (m.span s) (trees m cs)

/-- The trees at their new places. -/
def trees (m : Shift) : List Tree → List Tree
  | [] => []
  | t :: ts => tree m t :: trees m ts

end

variable (m : Shift)

@[simp] theorem trees_eq (ts : List Tree) : m.trees ts = ts.map m.tree := by
  induction ts with
  | nil => rw [trees, List.map_nil]
  | cons t ts ih => rw [trees, ih, List.map_cons]

@[simp] theorem kind_tree (t : Tree) : (m.tree t).kind = t.kind := by
  cases t
  rw [tree]
  rfl

@[simp] theorem field_tree (t : Tree) : (m.tree t).field = t.field := by
  cases t
  rw [tree]
  rfl

@[simp] theorem span_tree (t : Tree) : (m.tree t).span = m.span t.span := by
  cases t
  rw [tree]
  rfl

@[simp] theorem children_tree (t : Tree) : (m.tree t).children = t.children.map m.tree := by
  cases t
  rw [tree, trees_eq]
  rfl

theorem tree_withField (f : Option Field) (t : Tree) :
    m.tree (t.withField f) = (m.tree t).withField f := by
  cases t
  rw [Tree.withField, tree, tree]
  rfl

theorem tree_leaf (k : Kind) (s : Span) : m.tree (.leaf k s) = .leaf k (m.span s) := by
  rw [Tree.leaf, tree, trees_eq]
  rfl

/-- A node over some nodes moves along with the first and the last of them. -/
theorem tree_branch {k : Kind} {cs : List Tree} (h : cs ≠ []) :
    m.tree (.branch k cs) = .branch k (cs.map m.tree) := by
  have hfirst : (cs.map m.tree).head?.map Tree.start =
      some (m.start (cs.head h).start) := by
    rw [List.head?_map, List.head?_eq_some_head h]
    simp [Tree.start, span]
  have hlast : (cs.map m.tree).getLast?.map Tree.stop =
      some (m.stop (cs.getLast h).stop) := by
    rw [List.getLast?_map, List.getLast?_eq_some_getLast h]
    simp [Tree.stop, span]
  rw [Tree.branch, Tree.branch, tree, trees_eq, hfirst, hlast, List.head?_eq_some_head h,
    List.getLast?_eq_some_getLast h]
  rfl

mutual

theorem preorder_tree (t : Tree) : (m.tree t).preorder = t.preorder.map m.tree := by
  match t with
  | .node k f s cs =>
    rw [tree, Tree.preorder, Tree.preorder, List.map_cons, preorderAll_trees cs, tree]

theorem preorderAll_trees (ts : List Tree) :
    Tree.preorderAll (m.trees ts) = (Tree.preorderAll ts).map m.tree := by
  match ts with
  | [] => rw [trees, Tree.preorderAll, List.map_nil]
  | t :: ts =>
    rw [trees, Tree.preorderAll, Tree.preorderAll, List.map_append, preorder_tree t,
      preorderAll_trees ts]

end

end Shift

namespace Grammar.Rule

/-! ## Blind rules -/

/-- Two parts make one symbol or keyword when they touch. -/
def Seam (x y : String) : Prop := (x, y) ∈ Token.seams

instance (x y : String) : Decidable (Seam x y) := inferInstanceAs (Decidable ((x, y) ∈ _))

/-- A rule that reads the same in every layout. -/
def Blind : Rule → Prop
  | joined parts apart _ => parts.IsChain Seam ∧ ∀ x ∈ parts.getLast?, ∀ y ∈ apart, Seam x y
  | given test => ∀ (m : Shift) (t : Tree), test (m.tree t) = test t
  | seq a b => a.Blind ∧ b.Blind
  | alt a b => a.Blind ∧ b.Blind
  | many a => a.Blind
  | node _ a => a.pushes = true ∧ a.Blind
  | onto _ _ a => a.Blind
  | field _ a => a.Blind
  | empty | word _ _ | piece _ | silent | avoid _ | ref _ => True

variable {m : Shift} {ts rest : List Token}

theorem touches_of_seam {t u : Token}
    (hl : lexemes ((t :: u :: ts).map m.token) = lexemes (t :: u :: ts)) (h : Seam t.text u.text) :
    (m.stop t.span.stop == m.start u.span.start) = (t.span.stop == u.span.start) := by
  simp only [List.map_cons, lexemes, List.cons.injEq, Lexeme.mk.injEq, isJoined] at hl
  have hc : seams.contains (t.text, u.text) = true := List.contains_iff_mem.2 h
  have hj := hl.1.2.2
  rw [Shift.token_text, Shift.token_text, hc] at hj
  simpa using hj

theorem takeJoined_shift {p : Option Token} {parts : List String}
    (hchain : (p.toList.map Token.text ++ parts).IsChain Seam)
    (hl : lexemes ((p.toList ++ ts).map m.token) = lexemes (p.toList ++ ts)) :
    takeJoined parts (p.map fun t => m.stop t.span.stop) (ts.map m.token) =
      (takeJoined parts (p.map fun t => t.span.stop) ts).map
        (Prod.map (Option.map m.span) (List.map m.token)) := by
  induction parts generalizing p ts with
  | nil => rfl
  | cons part parts ih =>
    cases ts with
    | nil => rfl
    | cons t ts =>
      have hcond : ((m.token t).isPlain && (m.token t).text == part &&
          (p.map fun t => m.stop t.span.stop).all (· == (m.token t).span.start)) =
            (t.isPlain && t.text == part && (p.map fun t => t.span.stop).all
              (· == t.span.start)) := by
        cases p with
        | none => rfl
        | some u =>
          by_cases ht : t.text = part
          · subst ht
            have hseam : Seam u.text t.text := (List.isChain_cons_cons.1 hchain).1
            exact congrArg _ (touches_of_seam hl hseam)
          · have hne : (t.text == part) = false := by simpa using ht
            simp [hne]
      rw [List.map_cons]
      simp only [takeJoined, hcond]
      split
      · rename_i hc
        simp only [Bool.and_eq_true, beq_iff_eq] at hc
        have hnext : ((some t).toList.map Token.text ++ parts).IsChain Seam := by
          rw [Option.toList_some, List.map_singleton, List.singleton_append, hc.1.2]
          exact hchain.right_of_append
        have hrest := ih hnext (lexemes_of_suffix hl (List.suffix_append _ _))
        rw [Option.map_some, Option.map_some] at hrest
        show (takeJoined parts (some (m.stop t.span.stop)) (ts.map m.token)).map _ = _
        rw [hrest, Option.map_map, Option.map_map]
        refine congrArg (Option.map · _) (funext fun r => ?_)
        obtain ⟨hull, rest⟩ := r
        cases hull <;> rfl
      · rfl

/-- The last of the tokens that touch. -/
theorem takeJoined_last {parts : List String} {start : Option Nat} {s : Span}
    (h : takeJoined parts start ts = some (some s, rest)) :
    ∃ pre last, ts = pre ++ last :: rest ∧ last.span.stop = s.stop ∧
      parts.getLast? = some last.text := by
  induction parts generalizing start s ts with
  | nil => simp [takeJoined] at h
  | cons part parts ih =>
    cases ts with
    | nil => simp [takeJoined] at h
    | cons t ts =>
      simp only [takeJoined] at h
      split at h
      · rename_i hc
        simp only [Bool.and_eq_true, beq_iff_eq] at hc
        rw [Option.map_eq_some_iff] at h
        obtain ⟨⟨hull, rest'⟩, hr, he⟩ := h
        simp only [Prod.mk.injEq, Option.some.injEq] at he
        obtain ⟨rfl, rfl⟩ := he
        cases hull with
        | none =>
          cases parts with
          | nil =>
            simp only [takeJoined, Option.some.injEq, Prod.mk.injEq, true_and] at hr
            subst hr
            exact ⟨[], t, rfl, rfl, by simp [hc.1.2]⟩
          | cons part' parts =>
            cases ts with
            | nil => simp [takeJoined] at hr
            | cons u ts =>
              simp only [takeJoined] at hr
              split at hr <;> simp at hr
        | some hull =>
          obtain ⟨pre, last, rfl, hstop, hlast⟩ := ih hr
          refine ⟨t :: pre, last, rfl, hstop, ?_⟩
          rw [List.getLast?_cons, hlast]
          rfl
      · simp at h

variable {grammar : Name → Rule} {rule : Rule} {s s' : List Tree} {ts' : List Token}

/-- What is left of the tokens is behind what is read. -/
theorem Reads.suffix (h : Reads grammar rule s ts s' ts') : ts' <:+ ts := by
  induction h with
  | empty | avoid | given _ | done => exact List.suffix_refl _
  | joined hj =>
    obtain ⟨pre, last, rfl, _, _⟩ := takeJoined_last hj
    exact ⟨pre ++ [last], by simp⟩
  | word | piece _ | silent => exact List.suffix_cons _ _
  | seq _ _ iha ihb => exact ihb.trans iha
  | again _ _ iha ihb => exact ihb.trans iha
  | left _ ih | right _ ih | node _ ih | onto _ ih | field _ ih | ref _ ih => exact ih

theorem nextIs_shift (texts : List String) (ts : List Token) :
    nextIs texts (ts.map m.token) = nextIs texts ts := by
  cases ts <;> rfl

/-- Whether a symbol goes on behind the last of its tokens. -/
theorem continues_shift {pre : List Token} {last : Token} {apart : List String} {stop : Nat}
    (hl : lexemes ((pre ++ last :: rest).map m.token) = lexemes (pre ++ last :: rest))
    (hstop : last.span.stop = stop) (ha : ∀ y ∈ apart, Seam last.text y) :
    (nextIs apart (rest.map m.token) && touches (m.stop stop) (rest.map m.token)) =
      (nextIs apart rest && touches stop rest) := by
  rw [nextIs_shift]
  cases hn : nextIs apart rest with
  | false => rfl
  | true =>
    cases rest with
    | nil => rfl
    | cons u rest =>
      rw [nextIs, Bool.and_eq_true, List.contains_iff_mem] at hn
      have ht := touches_of_seam (lexemes_of_suffix hl (List.suffix_append _ _)) (ha _ hn.2)
      rw [hstop, Bool.beq_comm (a := m.stop stop), Bool.beq_comm (a := stop)] at ht
      exact ht

/-- A blind rule reads moved tokens behind moved siblings as it reads the tokens, and moves the
nodes. -/
theorem read_shift (hp : ∀ name, (grammar name).pushes = true) (hb : ∀ name, (grammar name).Blind)
    {fuel : Nat} (hr : rule.Blind) (hl : lexemes (ts.map m.token) = lexemes ts) :
    rule.read grammar fuel (s.map m.tree) (ts.map m.token) =
      (rule.read grammar fuel s ts).map (Prod.map (List.map m.tree) (List.map m.token)) := by
  induction fuel generalizing rule s ts with
  | zero => rfl
  | succ fuel ih =>
    -- what is read first leaves tokens behind, on which the next rule goes on
    have hrest {a : Rule} {s s₁ : List Tree} {ts₁ : List Token}
        (h : a.read grammar fuel s ts = some (s₁, ts₁)) :
        lexemes (ts₁.map m.token) = lexemes ts₁ :=
      lexemes_of_suffix hl (reads_of_read h).suffix
    cases rule with
    | empty => rfl
    | joined parts apart kind =>
      have hj : takeJoined parts none (ts.map m.token) = (takeJoined parts none ts).map
          (Prod.map (Option.map m.span) (List.map m.token)) :=
        takeJoined_shift (p := none) hr.1 hl
      simp only [read, hj]
      cases h : takeJoined parts none ts with
      | none => rfl
      | some r =>
        obtain ⟨_ | span, rest⟩ := r
        · rfl
        · obtain ⟨pre, last, rfl, hstop, hlast⟩ := takeJoined_last h
          have hc := continues_shift hl hstop (hr.2 _ hlast)
          simp only [Option.map_some, Prod.map, Shift.span_stop, hc]
          split
          · rfl
          · rw [Option.map_some, Prod.map_apply, List.map_cons, Shift.tree_leaf]
    | word reserved kind =>
      cases ts with
      | nil => rfl
      | cons t ts =>
        have hkeep : ((m.token t).kind == .word && !reserved.contains (m.token t).text) =
            (t.kind == .word && !reserved.contains t.text) := rfl
        simp only [read, List.map_cons, hkeep]
        split
        · rw [Option.map_some, Prod.map_apply, List.map_cons, Shift.tree_leaf, Shift.token_span]
        · rfl
    | piece kinds =>
      cases ts with
      | nil => rfl
      | cons t ts =>
        obtain ⟨kind, text, span⟩ := t
        cases kind with
        | piece kind =>
          simp only [read, List.map_cons, Shift.token]
          split
          · simp [Shift.tree_leaf]
          · rfl
        | _ => rfl
    | silent =>
      cases ts with
      | nil => rfl
      | cons t ts =>
        obtain ⟨kind, text, span⟩ := t
        cases kind <;> rfl
    | avoid words =>
      simp only [read, nextIs_shift]
      split <;> rfl
    | given test =>
      cases s with
      | nil => rfl
      | cons t s =>
        simp only [read, List.map_cons]
        rw [hr m t]
        split <;> rfl
    | seq a b =>
      simp only [read]
      rw [ih hr.1 hl]
      cases h : a.read grammar fuel s ts with
      | none => rfl
      | some r => exact ih hr.2 (hrest h)
    | alt a b =>
      simp only [read]
      rw [ih hr.1 hl]
      cases a.read grammar fuel s ts with
      | none => exact ih hr.2 hl
      | some r => rfl
    | many a =>
      have ha : a.Blind := hr
      simp only [read]
      rw [ih ha hl]
      cases h : a.read grammar fuel s ts with
      | none => rfl
      | some r =>
        have hagain : (Rule.many a).Blind := hr
        exact ih hagain (hrest h)
    | node kind a =>
      simp only [read]
      have ha := ih (s := []) hr.2 hl
      rw [List.map_nil] at ha
      rw [ha]
      cases h : a.read grammar fuel [] ts with
      | none => rfl
      | some r =>
        have hne : r.1.reverse ≠ [] := by
          have hlt := (reads_of_read h).length_lt hp hr.1
          rw [ne_eq, List.reverse_eq_nil_iff]
          exact List.ne_nil_of_length_pos hlt
        simp [m.tree_branch hne, List.map_reverse]
    | onto role kind a =>
      cases s with
      | nil => rfl
      | cons first older =>
        simp only [read, List.map_cons]
        have hinner : a.Blind := hr
        have ha := ih (s := [first.withField role]) hinner hl
        rw [List.map_singleton, Shift.tree_withField] at ha
        rw [ha]
        cases h : a.read grammar fuel [first.withField role] ts with
        | none => rfl
        | some r =>
          have hne : r.1.reverse ≠ [] := by
            have hle := (reads_of_read h).length_le
            rw [ne_eq, List.reverse_eq_nil_iff]
            exact List.ne_nil_of_length_pos hle
          simp [m.tree_branch hne, List.map_reverse]
    | field role a =>
      simp only [read]
      have hinner : a.Blind := hr
      have ha := ih (s := []) hinner hl
      rw [List.map_nil] at ha
      rw [ha]
      cases a.read grammar fuel [] ts with
      | none => rfl
      | some r => simp [Shift.tree_withField, Function.comp_def]
    | ref name => exact ih (hb name) hl

end Grammar.Rule

end InjectionPoints.Java
