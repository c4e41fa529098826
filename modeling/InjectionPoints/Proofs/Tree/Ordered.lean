/-
Lists of trees in the order of the text: what `OrderedBetween` says of a list that is put together
or taken apart, and that such a list is pairwise in order (`OrderedBetween.pairwise`).
-/
import InjectionPoints.Java.Tree

namespace InjectionPoints

/-- Two elements of a list are the same, or one stands before the other. -/
theorem pairwise_cases {α : Type} {r : α → α → Prop} {xs : List α} (h : xs.Pairwise r) {x y : α}
    (hx : x ∈ xs) (hy : y ∈ xs) : x = y ∨ r x y ∨ r y x := by
  induction xs with
  | nil => simp at hx
  | cons z xs ih =>
    obtain ⟨hz, hxs⟩ := List.pairwise_cons.1 h
    rw [List.mem_cons] at hx hy
    rcases hx with hx | hx <;> rcases hy with hy | hy
    · exact .inl (hx.trans hy.symm)
    · exact .inr (.inl (hx ▸ hz y hy))
    · exact .inr (.inr (hy ▸ hz x hx))
    · exact ih hxs hx hy

end InjectionPoints

namespace InjectionPoints.Java.Tree

/-! ## Roles -/

@[simp] theorem kind_withField (f : Option Field) (t : Tree) : (t.withField f).kind = t.kind := by
  cases t; rfl

@[simp] theorem field_withField (f : Option Field) (t : Tree) : (t.withField f).field = f := by
  cases t; rfl

@[simp] theorem span_withField (f : Option Field) (t : Tree) : (t.withField f).span = t.span := by
  cases t; rfl

@[simp] theorem children_withField (f : Option Field) (t : Tree) :
    (t.withField f).children = t.children := by
  cases t; rfl

@[simp] theorem start_withField (f : Option Field) (t : Tree) : (t.withField f).start = t.start := by
  cases t; rfl

@[simp] theorem stop_withField (f : Option Field) (t : Tree) : (t.withField f).stop = t.stop := by
  cases t; rfl

theorem self_mem_preorder (t : Tree) : t ∈ t.preorder := by
  rw [preorder_eq]
  exact List.mem_cons_self

theorem mem_preorder_iff {t u : Tree} :
    u ∈ t.preorder ↔ u = t ∨ ∃ c ∈ t.children, u ∈ c.preorder := by
  rw [preorder_eq, preorderAll_eq, List.mem_cons, List.mem_flatMap]

theorem forall_mem_preorder_iff {p : Tree → Prop} {t : Tree} :
    (∀ u ∈ t.preorder, p u) ↔ p t ∧ ∀ c ∈ t.children, ∀ u ∈ c.preorder, p u := by
  constructor
  · intro h
    refine ⟨h t t.self_mem_preorder, fun c hc u hu => h u ?_⟩
    exact mem_preorder_iff.2 (.inr ⟨c, hc, hu⟩)
  · intro hx u hu
    obtain ⟨ht, hcs⟩ := hx
    rcases mem_preorder_iff.1 hu with rfl | ⟨c, hc, hu⟩
    · exact ht
    · exact hcs c hc u hu

theorem mem_preorder_trans {t u v : Tree} (hu : u ∈ t.preorder) (hv : v ∈ u.preorder) :
    v ∈ t.preorder := by
  rcases mem_preorder_iff.1 hu with rfl | ⟨c, hc, hu⟩
  · exact hv
  · exact mem_preorder_iff.2 (.inr ⟨c, hc, mem_preorder_trans hu hv⟩)
termination_by t
decreasing_by
  have h := List.sizeOf_lt_of_mem hc
  cases t
  simp only [children_node, node.sizeOf_spec] at h ⊢
  omega

theorem mem_preorder_of_mem_children {t c : Tree} (hc : c ∈ t.children) : c ∈ t.preorder :=
  mem_preorder_iff.2 (.inr ⟨c, hc, c.self_mem_preorder⟩)

/-! ## Lists in order -/

variable {lo mid hi : Nat} {t : Tree} {ts us : List Tree}

theorem orderedBetween_nil_iff : OrderedBetween lo hi [] ↔ lo ≤ hi :=
  ⟨fun h => h.le, .nil⟩

theorem orderedBetween_cons_iff :
    OrderedBetween lo hi (t :: ts) ↔ lo ≤ t.start ∧ t.Ordered ∧ OrderedBetween t.stop hi ts := by
  constructor
  · intro h
    cases h with
    | cons h₁ h₂ h₃ => exact ⟨h₁, h₂, h₃⟩
  · intro hx
    obtain ⟨h₁, h₂, h₃⟩ := hx
    cases t
    exact .cons h₁ h₂ h₃

theorem Ordered.le (h : t.Ordered) : t.start ≤ t.stop :=
  OrderedBetween.le h

theorem OrderedBetween.lower (h : OrderedBetween mid hi ts) (hm : lo ≤ mid) :
    OrderedBetween lo hi ts := by
  cases ts with
  | nil => exact .nil (Nat.le_trans hm h.le)
  | cons t ts =>
    rw [orderedBetween_cons_iff] at h ⊢
    exact ⟨Nat.le_trans hm h.1, h.2⟩

theorem orderedBetween_append_iff :
    OrderedBetween lo hi (ts ++ us) ↔ ∃ mid, OrderedBetween lo mid ts ∧ OrderedBetween mid hi us := by
  induction ts generalizing lo with
  | nil =>
    constructor
    · intro h
      exact ⟨lo, .nil (Nat.le_refl lo), h⟩
    · intro hx
      obtain ⟨mid, h₁, h₂⟩ := hx
      exact h₂.lower h₁.le
  | cons t ts ih =>
    rw [List.cons_append, orderedBetween_cons_iff, ih]
    constructor
    · intro hx
      obtain ⟨h₁, h₂, mid, h₃, h₄⟩ := hx
      exact ⟨mid, orderedBetween_cons_iff.2 ⟨h₁, h₂, h₃⟩, h₄⟩
    · intro hx
      obtain ⟨mid, h, h₄⟩ := hx
      obtain ⟨h₁, h₂, h₃⟩ := orderedBetween_cons_iff.1 h
      exact ⟨h₁, h₂, mid, h₃, h₄⟩

theorem OrderedBetween.upper (h : OrderedBetween lo mid ts) (hm : mid ≤ hi) :
    OrderedBetween lo hi ts := by
  rw [← List.append_nil ts]
  exact orderedBetween_append_iff.2 ⟨mid, h, .nil hm⟩

theorem orderedBetween_singleton_iff :
    OrderedBetween lo hi [t] ↔ lo ≤ t.start ∧ t.Ordered ∧ t.stop ≤ hi := by
  rw [orderedBetween_cons_iff, orderedBetween_nil_iff]

theorem ordered_withField_iff {f : Option Field} : (t.withField f).Ordered ↔ t.Ordered := by
  cases t
  rfl

theorem OrderedBetween.withField {f : Option Field} (h : OrderedBetween lo hi ts) :
    OrderedBetween lo hi (ts.map (withField f)) := by
  induction ts generalizing lo with
  | nil => exact h
  | cons t ts ih =>
    obtain ⟨h₁, h₂, h₃⟩ := orderedBetween_cons_iff.1 h
    rw [List.map_cons, orderedBetween_cons_iff, start_withField, stop_withField]
    exact ⟨h₁, ordered_withField_iff.2 h₂, ih h₃⟩

theorem OrderedBetween.of_mem (h : OrderedBetween lo hi ts) (ht : t ∈ ts) :
    lo ≤ t.start ∧ t.Ordered ∧ t.stop ≤ hi := by
  obtain ⟨us, vs, rfl⟩ := List.append_of_mem ht
  obtain ⟨mid, h₁, h₂⟩ := orderedBetween_append_iff.1 h
  obtain ⟨h₃, h₄, h₅⟩ := orderedBetween_cons_iff.1 h₂
  have h₆ := h₁.le
  have h₇ := h₅.le
  exact ⟨by omega, h₄, h₇⟩

theorem OrderedBetween.pairwise (h : OrderedBetween lo hi ts) :
    ts.Pairwise fun t u => t.stop ≤ u.start := by
  induction ts generalizing lo with
  | nil => exact .nil
  | cons t ts ih =>
    obtain ⟨_, _, h₃⟩ := orderedBetween_cons_iff.1 h
    exact List.pairwise_cons.2 ⟨fun u hu => (h₃.of_mem hu).1, ih h₃⟩

/-- A list in order is in order between the start of its first tree and the end of its last. -/
theorem OrderedBetween.tight {start stop : Nat} (h : OrderedBetween lo hi ts)
    (h₁ : ts.head?.map Tree.start = some start) (h₂ : ts.getLast?.map Tree.stop = some stop) :
    lo ≤ start ∧ stop ≤ hi ∧ OrderedBetween start stop ts := by
  induction ts generalizing lo start with
  | nil => simp at h₁
  | cons t ts ih =>
    obtain ⟨h₃, h₄, h₅⟩ := orderedBetween_cons_iff.1 h
    rw [List.head?_cons, Option.map_some, Option.some.injEq] at h₁
    subst h₁
    cases ts with
    | nil =>
      rw [List.getLast?_singleton, Option.map_some, Option.some.injEq] at h₂
      subst h₂
      exact ⟨h₃, h₅.le, orderedBetween_singleton_iff.2 ⟨Nat.le_refl _, h₄, Nat.le_refl _⟩⟩
    | cons u us =>
      rw [List.getLast?_cons_cons] at h₂
      obtain ⟨h₆, h₇, h₈⟩ := ih h₅ rfl h₂
      exact ⟨h₃, h₇, orderedBetween_cons_iff.2 ⟨Nat.le_refl _, h₄, h₈.lower h₆⟩⟩

end InjectionPoints.Java.Tree
