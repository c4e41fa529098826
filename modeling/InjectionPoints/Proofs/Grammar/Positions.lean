/-
Where the nodes are that a grammar reads. A tree over tokens is `Solid`: its leaves have some bytes
and keep clear of the comments, and every other node spans exactly from its first child to its last.
A rule keeps the siblings solid and in the order of the text (`Reads.line`), provided that no node
it makes is without children (`Rule.grounded`).
-/
import InjectionPoints.Proofs.Grammar.Java
import InjectionPoints.Proofs.Tokens

namespace InjectionPoints.Java

namespace Tree

/-- Whether a span overlaps none of the comments. -/
def Clear (comments : List Tree) (s : Span) : Prop :=
  ∀ c ∈ comments, c.stop ≤ s.start ∨ s.stop ≤ c.start

/-- A tree over tokens that keep clear of the comments. -/
inductive Solid (comments : List Tree) : Tree → Prop where
  | leaf {k : Kind} {f : Option Field} {s : Span} :
      s.start < s.stop → Clear comments s → Solid comments (node k f s [])
  | branch {k : Kind} {f : Option Field} {s : Span} {cs : List Tree} :
      cs.head?.map start = some s.start → cs.getLast?.map stop = some s.stop →
        OrderedBetween s.start s.stop cs → (∀ c ∈ cs, Solid comments c) →
          Solid comments (node k f s cs)

variable {comments : List Tree} {t : Tree}

theorem Solid.ordered (h : t.Solid comments) : t.Ordered := by
  cases h with
  | leaf h _ => exact .nil (Nat.le_of_lt h)
  | branch _ _ h _ => exact h

theorem Solid.filled (h : t.Solid comments) : t.start < t.stop := by
  induction h with
  | leaf h _ => exact h
  | branch h₁ _ h₂ _ ih =>
    rw [Option.map_eq_some_iff] at h₁
    obtain ⟨c, hc, hs⟩ := h₁
    have hm := List.mem_of_head? hc
    have hf := ih c hm
    have ho := (h₂.of_mem hm).2.2
    rw [hs] at hf
    exact Nat.lt_of_lt_of_le hf ho

theorem Solid.withField (h : t.Solid comments) (f : Option Field) :
    (t.withField f).Solid comments := by
  cases h with
  | leaf h₁ h₂ => exact .leaf h₁ h₂
  | branch h₁ h₂ h₃ h₄ => exact .branch h₁ h₂ h₃ h₄

/-- Siblings from `lo` up to `hi`, the last one first. -/
structure Line (comments : List Tree) (lo hi : Nat) (s : List Tree) : Prop where
  ordered : OrderedBetween lo hi s.reverse
  solid : ∀ t ∈ s, t.Solid comments

variable {lo mid hi : Nat} {s new : List Tree}

theorem Line.nil (comments : List Tree) (lo : Nat) : Line comments lo lo [] :=
  ⟨.nil (Nat.le_refl lo), by simp⟩

theorem Line.append (h : Line comments lo mid s) (hn : Line comments mid hi new) :
    Line comments lo hi (new ++ s) where
  ordered := by
    rw [List.reverse_append]
    exact orderedBetween_append_iff.2 ⟨mid, h.ordered, hn.ordered⟩
  solid t ht := by
    rcases List.mem_append.1 ht with ht | ht
    · exact hn.solid t ht
    · exact h.solid t ht

theorem Line.cons (h : Line comments lo mid s) (ht : t.Solid comments) (h₁ : mid ≤ t.start)
    (h₂ : t.stop ≤ hi) : Line comments lo hi (t :: s) := by
  have ho : OrderedBetween mid hi [t] := orderedBetween_singleton_iff.2 ⟨h₁, ht.ordered, h₂⟩
  exact h.append ⟨ho, fun u hu => List.mem_singleton.1 hu ▸ ht⟩

theorem Line.uncons (h : Line comments lo hi (t :: s)) :
    ∃ mid, Line comments lo mid s ∧ Line comments mid hi [t] := by
  obtain ⟨ho, hs⟩ := h
  rw [List.reverse_cons] at ho
  obtain ⟨mid, h₁, h₂⟩ := orderedBetween_append_iff.1 ho
  exact ⟨mid, ⟨h₁, fun u hu => hs u (List.mem_cons_of_mem t hu)⟩,
    ⟨h₂, fun u hu => hs u (List.mem_singleton.1 hu ▸ List.mem_cons_self)⟩⟩

theorem Line.withField (h : Line comments lo hi s) (f : Option Field) :
    Line comments lo hi (s.map (Tree.withField f)) where
  ordered := by
    rw [← List.map_reverse]
    exact h.ordered.withField
  solid t ht := by
    obtain ⟨u, hu, rfl⟩ := List.mem_map.1 ht
    exact (h.solid u hu).withField f

/-- A node over some siblings is where they are. -/
theorem Line.branch (h : Line comments lo hi s) (hs : s ≠ []) (k : Kind) :
    (Tree.branch k s.reverse).Solid comments ∧ lo ≤ (Tree.branch k s.reverse).start ∧
      (Tree.branch k s.reverse).stop ≤ hi := by
  have hr : s.reverse ≠ [] := by simpa using hs
  have h₁ : s.reverse.head?.map start = some (s.reverse.head hr).start := by
    rw [List.head?_eq_some_head hr, Option.map_some]
  have h₂ : s.reverse.getLast?.map stop = some (s.reverse.getLast hr).stop := by
    rw [List.getLast?_eq_some_getLast hr, Option.map_some]
  obtain ⟨h₃, h₄, h₅⟩ := h.ordered.tight h₁ h₂
  rw [Tree.branch, h₁, h₂]
  exact ⟨.branch h₁ h₂ h₅ fun c hc => h.solid c (List.mem_reverse.1 hc), h₃, h₄⟩

end Tree

namespace Grammar.Rule

open InjectionPoints.Java.Tree (Line Clear)

/-! ## Nodes have children -/

/-- Whether a rule adds a node whenever it reads. -/
def pushes : Rule → Bool
  | joined _ _ _ | word _ _ | piece _ | node _ _ | ref _ => true
  | seq a b => pushes a || pushes b
  | alt a b => pushes a && pushes b
  | field _ a => pushes a
  | _ => false

/-- Whether every node that a rule makes has children. -/
def grounded : Rule → Bool
  | seq a b => grounded a && grounded b
  | alt a b => grounded a && grounded b
  | many a => grounded a
  | node _ a => pushes a && grounded a
  | onto _ _ a => grounded a
  | field _ a => grounded a
  | _ => true

variable {grammar : Name → Rule} {rule : Rule} {s s' : List Tree} {ts ts' : List Token}

theorem Reads.length_le (h : Reads grammar rule s ts s' ts') : s.length ≤ s'.length := by
  induction h with
  | seq _ _ iha ihb => exact Nat.le_trans iha ihb
  | left _ ih => exact ih
  | right _ ih => exact ih
  | again _ _ iha ihb => exact Nat.le_trans iha ihb
  | ref _ ih => exact ih
  | _ => simp

theorem Reads.length_lt (hg : ∀ name, (grammar name).pushes = true)
    (h : Reads grammar rule s ts s' ts') (hp : rule.pushes = true) : s.length < s'.length := by
  induction h with
  | seq ha hb iha ihb =>
    rw [pushes, Bool.or_eq_true] at hp
    rcases hp with hp | hp
    · exact Nat.lt_of_lt_of_le (iha hp) hb.length_le
    · exact Nat.lt_of_le_of_lt ha.length_le (ihb hp)
  | left _ ih =>
    rw [pushes, Bool.and_eq_true] at hp
    exact ih hp.1
  | right _ ih =>
    rw [pushes, Bool.and_eq_true] at hp
    exact ih hp.2
  | field _ ih =>
    have hc := ih hp
    rw [List.length_append, List.length_map]
    simp only [List.length_nil] at hc
    omega
  | ref _ ih => exact ih (hg _)
  | joined _ | word | piece _ | node _ _ => simp
  | empty | silent | avoid | given _ | done | again _ _ _ _ | onto _ _ => simp [pushes] at hp

/-! ## The order of the text -/

/-- Tokens from `lo` up to `hi` that keep clear of the comments. -/
structure Ahead (comments : List Tree) (lo hi : Nat) (ts : List Token) : Prop where
  inOrder : Token.InOrder lo hi ts
  clear : ∀ t ∈ ts, Clear comments t.span

variable {comments : List Tree} {lo mid hi : Nat}

theorem Ahead.uncons {t : Token} (h : Ahead comments lo hi (t :: ts)) :
    lo ≤ t.span.start ∧ t.span.start < t.span.stop ∧ Clear comments t.span ∧
      Ahead comments t.span.stop hi ts := by
  obtain ⟨⟨h₁, h₂, h₃⟩, hc⟩ := h
  exact ⟨h₁, h₂, hc t List.mem_cons_self, h₃, fun u hu => hc u (List.mem_cons_of_mem t hu)⟩

/-- Two spans that touch and keep clear of the comments do so together: no comment fits between. -/
theorem clear_touching (hc : ∀ c ∈ comments, c.start < c.stop) {i j k : Nat}
    (h₁ : Clear comments ⟨i, j⟩) (h₂ : Clear comments ⟨j, k⟩) : Clear comments ⟨i, k⟩ := by
  intro c hm
  have hf := hc c hm
  rcases h₁ c hm with h | h
  · exact .inl h
  · rcases h₂ c hm with h' | h'
    · simp only at h h'
      omega
    · exact .inr h'

theorem takeJoined_none {start : Option Nat} {parts : List String}
    (h : takeJoined parts start ts = some (none, ts')) : ts' = ts := by
  cases parts with
  | nil =>
    simp only [takeJoined, Option.some.injEq, Prod.mk.injEq, true_and] at h
    exact h.symm
  | cons part parts =>
    cases ts with
    | nil => simp [takeJoined] at h
    | cons t ts =>
      simp only [takeJoined] at h
      split at h
      · simp at h
      · simp at h

theorem takeJoined_ahead (hc : ∀ c ∈ comments, c.start < c.stop) {parts : List String}
    {start : Option Nat} {span : Span} (h : takeJoined parts start ts = some (some span, ts'))
    (ha : Ahead comments lo hi ts) :
    lo ≤ span.start ∧ span.start < span.stop ∧ start.all (· == span.start) = true ∧
      Clear comments span ∧ Ahead comments span.stop hi ts' := by
  induction parts generalizing start span lo ts with
  | nil => simp [takeJoined] at h
  | cons part parts ih =>
    cases ts with
    | nil => simp [takeJoined] at h
    | cons t ts =>
      obtain ⟨h₁, h₂, h₃, h₄⟩ := ha.uncons
      simp only [takeJoined] at h
      split at h
      · rename_i hcond
        rw [Option.map_eq_some_iff] at h
        obtain ⟨⟨hull, rest⟩, hr, he⟩ := h
        simp only [Prod.mk.injEq, Option.some.injEq] at he
        obtain ⟨rfl, rfl⟩ := he
        rw [Bool.and_eq_true] at hcond
        cases hull with
        | none =>
          rw [takeJoined_none hr]
          exact ⟨h₁, h₂, hcond.2, h₃, h₄⟩
        | some hull =>
          obtain ⟨h₅, h₆, h₇, h₈, h₉⟩ := ih hr h₄
          simp only [Option.all_some, beq_iff_eq] at h₇
          refine ⟨h₁, ?_, hcond.2, ?_, h₉⟩
          · show t.span.start < hull.stop
            omega
          · refine clear_touching hc h₃ ?_
            rw [h₇]
            exact h₈
      · simp at h

/-- A rule keeps the siblings solid and in order, and the tokens ahead behind them. -/
theorem Reads.line (hp : ∀ name, (grammar name).pushes = true)
    (hg : ∀ name, (grammar name).grounded = true) (hc : ∀ c ∈ comments, c.start < c.stop)
    (h : Reads grammar rule s ts s' ts') (hr : rule.grounded = true)
    (hl : Line comments lo mid s) (ha : Ahead comments mid hi ts) :
    ∃ mid', Line comments lo mid' s' ∧ Ahead comments mid' hi ts' := by
  induction h generalizing lo mid with
  | empty | avoid | given _ | done => exact ⟨mid, hl, ha⟩
  | joined hj =>
    obtain ⟨h₁, h₂, _, h₃, h₄⟩ := takeJoined_ahead hc hj ha
    exact ⟨_, hl.cons (.leaf h₂ h₃) h₁ (Nat.le_refl _), h₄⟩
  | word =>
    obtain ⟨h₁, h₂, h₃, h₄⟩ := ha.uncons
    exact ⟨_, hl.cons (.leaf h₂ h₃) h₁ (Nat.le_refl _), h₄⟩
  | piece _ =>
    obtain ⟨h₁, h₂, h₃, h₄⟩ := ha.uncons
    exact ⟨_, hl.cons (.leaf h₂ h₃) h₁ (Nat.le_refl _), h₄⟩
  | silent =>
    obtain ⟨h₁, h₂, _, h₄⟩ := ha.uncons
    exact ⟨mid, hl, h₄.inOrder.lower (by omega), h₄.clear⟩
  | seq _ _ iha ihb =>
    rw [grounded, Bool.and_eq_true] at hr
    obtain ⟨mid₁, hl₁, ha₁⟩ := iha hr.1 hl ha
    exact ihb hr.2 hl₁ ha₁
  | left _ ih =>
    rw [grounded, Bool.and_eq_true] at hr
    exact ih hr.1 hl ha
  | right _ ih =>
    rw [grounded, Bool.and_eq_true] at hr
    exact ih hr.2 hl ha
  | again _ _ iha ihm =>
    obtain ⟨mid₁, hl₁, ha₁⟩ := iha hr hl ha
    exact ihm hr hl₁ ha₁
  | @node kind _ _ children _ _ hread ih =>
    rw [grounded, Bool.and_eq_true] at hr
    obtain ⟨mid', hl', ha'⟩ := ih hr.2 (.nil comments mid) ha
    have hn : children ≠ [] := List.ne_nil_of_length_pos (hread.length_lt hp hr.1)
    obtain ⟨h₁, h₂, h₃⟩ := hl'.branch hn kind
    exact ⟨mid', hl.cons h₁ h₂ h₃, ha'⟩
  | @onto role kind _ first _ children _ _ hread ih =>
    obtain ⟨mid₀, h₁, h₂⟩ := hl.uncons
    obtain ⟨mid', hl', ha'⟩ := ih hr (h₂.withField role) ha
    have hn : children ≠ [] := List.ne_nil_of_length_pos hread.length_le
    obtain ⟨h₃, h₄, h₅⟩ := hl'.branch hn kind
    exact ⟨mid', h₁.cons h₃ h₄ h₅, ha'⟩
  | @field role _ _ _ _ _ _ ih =>
    obtain ⟨mid', hl', ha'⟩ := ih hr (.nil comments mid) ha
    exact ⟨mid', hl.append (hl'.withField (some role)), ha'⟩
  | ref _ ih => exact ih (hg _) hl ha

end Grammar.Rule

namespace Grammar

theorem names_grounded :
    (names.all fun name => (flat name).pushes && (flat name).grounded) = true := by
  decide +kernel

theorem grounded (name : Name) : (flat name).pushes = true ∧ (flat name).grounded = true := by
  obtain ⟨n, hn, hf, _⟩ := exists_mem_names name
  rw [← hf, ← Bool.and_eq_true]
  exact List.all_eq_true.1 names_grounded n hn

/-- The nodes at the top of a text are solid, and in the order of the text up to its end. -/
theorem line_of_read? {tokens : List Token} {nodes comments : List Tree} {hi : Nat}
    (h : read? tokens = some nodes) (hc : ∀ c ∈ comments, c.start < c.stop)
    (ha : Rule.Ahead comments 0 hi tokens) :
    Tree.OrderedBetween 0 hi nodes ∧ ∀ t ∈ nodes, t.Solid comments := by
  obtain ⟨mid, hl, ha'⟩ := (reads_of_read? h).line (fun n => (grounded n).1)
    (fun n => (grounded n).2) hc rfl (.nil comments 0) ha
  have ho := hl.ordered.upper ha'.inOrder.le
  rw [List.reverse_reverse] at ho
  exact ⟨ho, fun t ht => hl.solid t (List.mem_reverse.2 ht)⟩

end Grammar

end InjectionPoints.Java
