/-
Comments in a tree. `withComments` and `weave` put comments between and inside the nodes of a solid
tree. The result is in the order of the text again (`orderedBetween_weave`), and each of its nodes is
either a comment or a node that was there before, with comments put inside it and the same parts
(`mem_preorder_weave`).
-/
import InjectionPoints.Java.SourceTree
import InjectionPoints.Proofs.Grammar.Positions

namespace InjectionPoints.Java.Tree

/-- A comment as a node. -/
structure IsComment (c : Tree) : Prop where
  kind : c.kind.isComment = true
  field : c.field = none
  children : c.children = []
  filled : c.start < c.stop

/-! ## Lists -/

theorem drop_takeWhile {α : Type} (p : α → Bool) (xs : List α) :
    xs.drop (xs.takeWhile p).length = xs.dropWhile p := by
  calc xs.drop (xs.takeWhile p).length
      = (xs.takeWhile p ++ xs.dropWhile p).drop (xs.takeWhile p).length := by
        rw [List.takeWhile_append_dropWhile]
    _ = xs.dropWhile p := List.drop_left

/-- A test that no later element passes behind one that fails it fails on all that `dropWhile`
leaves. -/
theorem not_of_mem_dropWhile {α : Type} {p : α → Bool} {r : α → α → Prop} {xs : List α}
    (h : xs.Pairwise r) (hr : ∀ x y, r x y → p x = false → p y = false) {y : α}
    (hy : y ∈ xs.dropWhile p) : p y = false := by
  induction xs with
  | nil => simp at hy
  | cons x xs ih =>
    rw [List.pairwise_cons] at h
    rw [List.dropWhile_cons] at hy
    split at hy
    · exact ih h.2 hy
    · rename_i hx
      rw [Bool.not_eq_true] at hx
      rcases List.mem_cons.1 hy with rfl | hy
      · exact hx
      · exact hr x y (h.1 y hy) hx

variable {lo hi lo' hi' : Nat} {comments cs ds ts : List Tree} {c t : Tree}

theorem OrderedBetween.within (h : OrderedBetween lo hi ts) (hl : lo' ≤ hi')
    (hm : ∀ t ∈ ts, lo' ≤ t.start ∧ t.stop ≤ hi') : OrderedBetween lo' hi' ts := by
  induction ts generalizing lo lo' with
  | nil => exact .nil hl
  | cons t ts ih =>
    obtain ⟨_, h₂, h₃⟩ := orderedBetween_cons_iff.1 h
    obtain ⟨h₄, h₅⟩ := hm t List.mem_cons_self
    refine orderedBetween_cons_iff.2 ⟨h₄, h₂, ih h₃ h₅ fun u hu => ?_⟩
    exact ⟨(h₃.of_mem hu).1, (hm u (List.mem_cons_of_mem t hu)).2⟩

/-! ## Comments and one node -/

/-- A comment is before a solid node, behind it, or inside it. -/
theorem Solid.comment_cases (h : t.Solid comments) (hc : c ∈ comments) :
    c.stop ≤ t.start ∨ t.stop ≤ c.start ∨ t.start ≤ c.start ∧ c.stop ≤ t.stop := by
  induction h with
  | leaf _ hclear =>
    rcases hclear c hc with h | h
    · exact .inl h
    · exact .inr (.inl h)
  | @branch k f s cs hf hl ho hs ih =>
    rw [Option.map_eq_some_iff] at hf hl
    obtain ⟨first, hf, hfs⟩ := hf
    obtain ⟨last, hl, hls⟩ := hl
    have hfm := List.mem_of_head? hf
    have hlm := List.mem_of_getLast? hl
    have h₁ := (ho.of_mem hfm).2.1.le
    have h₂ := (ho.of_mem hlm).2.1.le
    show c.stop ≤ s.start ∨ s.stop ≤ c.start ∨ s.start ≤ c.start ∧ c.stop ≤ s.stop
    rcases ih first hfm with h | h | h <;> rcases ih last hlm with h' | h' | h' <;> omega

/-- What `weave` does to its first node: some comments come before it, some go inside it, and the
others are for the nodes behind it. -/
theorem weave_cons (ts : List Tree) (h : OrderedBetween lo hi cs) (hs : t.Solid comments)
    (hsub : cs ⊆ comments) (hl : lo ≤ t.start) (hh : t.stop ≤ hi) :
    ∃ before inside behind,
      weave cs (t :: ts) = before ++ withComments inside t :: weave behind ts ∧
        OrderedBetween lo t.start before ∧ OrderedBetween t.start t.stop inside ∧
        OrderedBetween t.stop hi behind ∧ before ⊆ comments ∧ inside ⊆ comments ∧
        behind ⊆ comments := by
  let rest := cs.dropWhile fun c => decide (c.stop ≤ t.start)
  refine ⟨cs.takeWhile fun c => decide (c.stop ≤ t.start),
    rest.takeWhile fun c => decide (c.start < t.stop),
    rest.dropWhile fun c => decide (c.start < t.stop), ?_, ?_⟩
  · rw [weave]
    simp only [drop_takeWhile]
    rfl
  have hcs : OrderedBetween lo hi ((cs.takeWhile fun c => decide (c.stop ≤ t.start)) ++ rest) := by
    rw [List.takeWhile_append_dropWhile]
    exact h
  obtain ⟨mid, hbefore, hrest⟩ := orderedBetween_append_iff.1 hcs
  have hrs : OrderedBetween mid hi ((rest.takeWhile fun c => decide (c.start < t.stop)) ++
      rest.dropWhile fun c => decide (c.start < t.stop)) := by
    rw [List.takeWhile_append_dropWhile]
    exact hrest
  obtain ⟨_, hinside, hbehind⟩ := orderedBetween_append_iff.1 hrs
  have hp : cs.Pairwise fun c d => c.start ≤ c.stop ∧ c.stop ≤ d.start ∧ d.start ≤ d.stop :=
    h.pairwise.imp_of_mem fun hc hd hcd => ⟨(h.of_mem hc).2.1.le, hcd, (h.of_mem hd).2.1.le⟩
  have hr : ∀ c ∈ rest, c ∈ cs ∧ t.start < c.stop := by
    intro c hc
    refine ⟨List.dropWhile_subset _ hc, ?_⟩
    have hn := not_of_mem_dropWhile hp (fun x y hxy hx => by
      simp only [decide_eq_false_iff_not] at hx ⊢; omega) hc
    simpa using hn
  have hin : ∀ c ∈ rest.takeWhile fun c => decide (c.start < t.stop), c ∈ rest :=
    List.takeWhile_subset _
  have hout : ∀ c ∈ rest.dropWhile fun c => decide (c.start < t.stop), c ∈ rest :=
    List.dropWhile_subset _
  refine ⟨?_, ?_, ?_, fun c hc => hsub (List.takeWhile_subset _ hc),
    fun c hc => hsub (hr c (hin c hc)).1, fun c hc => hsub (hr c (hout c hc)).1⟩
  · refine hbefore.within hl fun c hc => ⟨(hbefore.of_mem hc).1, ?_⟩
    simpa using List.all_eq_true.1 List.all_takeWhile c hc
  · refine hinside.within hs.ordered.le fun c hc => ?_
    obtain ⟨h₀, h₁⟩ := hr c (hin c hc)
    have h₂ : c.start < t.stop := by simpa using List.all_eq_true.1 List.all_takeWhile c hc
    rcases hs.comment_cases (hsub h₀) with h | h | h
    · omega
    · omega
    · exact h
  · refine hbehind.within hh fun c hc => ⟨?_, (hbehind.of_mem hc).2.2⟩
    have hn := not_of_mem_dropWhile (hp.sublist (List.dropWhile_sublist _)) (fun x y hxy hx => by
      simp only [decide_eq_false_iff_not] at hx ⊢; omega) hc
    simpa using hn

/-! ## All nodes -/

@[simp] theorem kind_withComments (cs : List Tree) (t : Tree) : (withComments cs t).kind = t.kind := by
  cases t
  rw [withComments]
  split <;> rfl

@[simp] theorem field_withComments (cs : List Tree) (t : Tree) :
    (withComments cs t).field = t.field := by
  cases t
  rw [withComments]
  split <;> rfl

@[simp] theorem span_withComments (cs : List Tree) (t : Tree) : (withComments cs t).span = t.span := by
  cases t
  rw [withComments]
  split <;> rfl

@[simp] theorem start_withComments (cs : List Tree) (t : Tree) :
    (withComments cs t).start = t.start := by
  rw [start, span_withComments, start]

@[simp] theorem stop_withComments (cs : List Tree) (t : Tree) :
    (withComments cs t).stop = t.stop := by
  rw [stop, span_withComments, stop]

mutual

theorem ordered_withComments (t : Tree) {cs : List Tree} (hs : t.Solid comments)
    (hsub : cs ⊆ comments) (h : OrderedBetween t.start t.stop cs) : (withComments cs t).Ordered := by
  match t with
  | .node k f s ts =>
    rw [withComments]
    split
    · exact hs.ordered
    · refine orderedBetween_weave ts h hs.ordered (fun t ht => ?_) hsub
      cases hs with
      | leaf => simp at ht
      | branch _ _ _ h => exact h t ht

theorem orderedBetween_weave {lo hi : Nat} (ts : List Tree) {cs : List Tree}
    (hc : OrderedBetween lo hi cs) (ht : OrderedBetween lo hi ts)
    (hs : ∀ t ∈ ts, t.Solid comments) (hsub : cs ⊆ comments) :
    OrderedBetween lo hi (weave cs ts) := by
  match ts with
  | [] => exact hc
  | t :: ts =>
    obtain ⟨h₁, h₂, h₃⟩ := orderedBetween_cons_iff.1 ht
    have hst := hs t List.mem_cons_self
    obtain ⟨before, inside, behind, hw, h₄, h₅, h₆, _, h₈, h₉⟩ :=
      weave_cons ts hc hst hsub h₁ h₃.le
    rw [hw]
    refine orderedBetween_append_iff.2 ⟨t.start, h₄, orderedBetween_cons_iff.2 ⟨?_, ?_, ?_⟩⟩
    · exact Nat.le_of_eq (start_withComments inside t).symm
    · exact ordered_withComments t hst h₈ h₅
    · rw [stop_withComments]
      exact orderedBetween_weave ts h₆ h₃ (fun u hu => hs u (List.mem_cons_of_mem t hu)) h₉

end

theorem Solid.of_mem_preorder (h : t.Solid comments) {u : Tree} (hu : u ∈ t.preorder) :
    u.Solid comments := by
  induction h with
  | leaf h₁ h₂ =>
    rcases mem_preorder_iff.1 hu with rfl | ⟨c, hc, _⟩
    · exact .leaf h₁ h₂
    · simp at hc
  | branch h₁ h₂ h₃ h₄ ih =>
    rcases mem_preorder_iff.1 hu with rfl | ⟨c, hc, hu⟩
    · exact .branch h₁ h₂ h₃ h₄
    · exact ih c hc hu

/-- A node of a tree with comments: a comment, or a solid node of the tree as it was before, with
comments put inside it. -/
def Woven (comments : List Tree) (before : Tree → Prop) (u : Tree) : Prop :=
  u ∈ comments ∨ ∃ v, before v ∧ v.Solid comments ∧ ∃ ds, ds ⊆ comments ∧
    OrderedBetween v.start v.stop ds ∧ u = withComments ds v

theorem Woven.mono {p q : Tree → Prop} {u : Tree} (h : Woven comments p u) (hpq : ∀ v, p v → q v) :
    Woven comments q u := by
  rcases h with h | ⟨v, hv, h⟩
  · exact .inl h
  · exact .inr ⟨v, hpq v hv, h⟩

theorem Solid.woven (hs : t.Solid comments) : Woven comments (· = t) t :=
  .inr ⟨t, rfl, hs, [], by simp, .nil hs.ordered.le, by cases t; rfl⟩

mutual

theorem mem_preorder_withComments (t : Tree) {cs : List Tree} (hc : ∀ c ∈ comments, IsComment c)
    (hs : t.Solid comments) (hsub : cs ⊆ comments) (h : OrderedBetween t.start t.stop cs) {u : Tree}
    (hu : u ∈ (withComments cs t).preorder) : Woven comments (· ∈ t.preorder) u := by
  match t with
  | .node k f s ts =>
    rcases mem_preorder_iff.1 hu with rfl | ⟨c, hcm, hu'⟩
    · exact .inr ⟨_, self_mem_preorder _, hs, cs, hsub, h, rfl⟩
    · rw [withComments] at hcm
      split at hcm
      · have hm : u ∈ (node k f s ts).preorder := mem_preorder_iff.2 (.inr ⟨c, hcm, hu'⟩)
        exact (hs.of_mem_preorder hm).woven.mono fun v hv => hv ▸ hm
      · have hss : ∀ t ∈ ts, t.Solid comments := by
          intro t ht
          exact hs.of_mem_preorder (mem_preorder_iff.2 (.inr ⟨t, ht, self_mem_preorder t⟩))
        refine (mem_preorder_weave ts hc h hs.ordered hss hsub hcm hu').mono fun v hv => ?_
        exact mem_preorder_iff.2 (.inr hv)

theorem mem_preorder_weave {lo hi : Nat} (ts : List Tree) {cs : List Tree}
    (hc : ∀ c ∈ comments, IsComment c) (ho : OrderedBetween lo hi cs) (ht : OrderedBetween lo hi ts)
    (hs : ∀ t ∈ ts, t.Solid comments) (hsub : cs ⊆ comments) {c u : Tree} (hcm : c ∈ weave cs ts)
    (hu : u ∈ c.preorder) : Woven comments (fun v => ∃ t ∈ ts, v ∈ t.preorder) u := by
  -- a comment has nothing below it
  have hcom : ∀ c ∈ comments, u ∈ c.preorder →
      Woven comments (fun v => ∃ t ∈ ts, v ∈ t.preorder) u := by
    intro c hcm hu
    rcases mem_preorder_iff.1 hu with rfl | ⟨d, hd, _⟩
    · exact .inl hcm
    · rw [(hc c hcm).children] at hd
      simp at hd
  match ts with
  | [] => exact hcom c (hsub hcm) hu
  | t :: ts =>
    obtain ⟨h₁, h₂, h₃⟩ := orderedBetween_cons_iff.1 ht
    have hst := hs t List.mem_cons_self
    obtain ⟨before, inside, behind, hw, _, h₅, h₆, h₇, h₈, h₉⟩ :=
      weave_cons ts ho hst hsub h₁ h₃.le
    rw [hw, List.mem_append, List.mem_cons] at hcm
    rcases hcm with hcm | rfl | hcm
    · exact hcom c (h₇ hcm) hu
    · refine (mem_preorder_withComments t hc hst h₈ h₅ hu).mono fun v hv => ?_
      exact ⟨t, List.mem_cons_self, hv⟩
    · have hss : ∀ u ∈ ts, u.Solid comments := fun u hu => hs u (List.mem_cons_of_mem t hu)
      refine (mem_preorder_weave ts hc h₆ h₃ hss h₉ hcm hu).mono ?_
      intro v hx
      obtain ⟨w, hw, hv⟩ := hx
      exact ⟨w, List.mem_cons_of_mem t hw, hv⟩

end

/-! ## What stays -/

/-- Comments are no parts. -/
theorem filter_comments (h : ∀ c ∈ cs, IsComment c) :
    cs.filter (fun c => !c.kind.isComment) = [] := by
  refine List.filter_eq_nil_iff.2 fun c hc => ?_
  rw [(h c hc).kind]
  simp

theorem parts_weave (ts : List Tree) (h : ∀ c ∈ cs, IsComment c) :
    ((weave cs ts).filter fun c => !c.kind.isComment).map part =
      (ts.filter fun c => !c.kind.isComment).map part := by
  induction ts generalizing cs with
  | nil =>
    rw [weave, filter_comments h]
    rfl
  | cons t ts ih =>
    rw [weave]
    simp only [drop_takeWhile]
    rw [List.filter_append, filter_comments fun c hc => h c (List.takeWhile_subset _ hc),
      List.nil_append, List.filter_cons, List.filter_cons, kind_withComments]
    have hd {p q : Tree → Bool} : ∀ c ∈ (cs.dropWhile p).dropWhile q, IsComment c := fun c hc =>
      h c (List.dropWhile_subset _ (List.dropWhile_subset _ hc))
    split
    · rw [List.map_cons, List.map_cons, ih hd, part, part, kind_withComments, field_withComments]
    · exact ih hd

theorem parts_withComments (t : Tree) (h : ∀ c ∈ cs, IsComment c) :
    (withComments cs t).parts = t.parts := by
  cases t
  rw [withComments]
  split
  · rfl
  · exact parts_weave _ h

/-- A leaf stays a leaf: no comment fits inside. -/
theorem children_withComments (hs : t.Solid comments) (hc : ∀ c ∈ comments, IsComment c)
    (hsub : cs ⊆ comments) (h : OrderedBetween t.start t.stop cs) (ht : t.children = []) :
    (withComments cs t).children = [] := by
  cases hs with
  | @leaf k f s hf hclear =>
    cases cs with
    | nil => rfl
    | cons c cs =>
      obtain ⟨h₁, _, h₂⟩ := h.of_mem List.mem_cons_self
      have hcf := (hc c (hsub List.mem_cons_self)).filled
      change s.start ≤ c.start at h₁
      change c.stop ≤ s.stop at h₂
      rcases hclear c (hsub List.mem_cons_self) with h | h <;> omega
  | branch h₁ _ _ _ =>
    rw [children_node] at ht
    rw [ht] at h₁
    simp at h₁

end InjectionPoints.Java.Tree
