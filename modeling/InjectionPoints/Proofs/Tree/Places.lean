/-
Places below a place. `mem_preorder_iff` unfolds the pre-order by one step, and `Place.induction`
goes up from the children. In a tree whose nodes are in the order of the text, two places are one
above the other or apart (`nested_or_apart`); so what a span covers is inside the node with that span
(`mem_preorder_of_covers`).
-/
import InjectionPoints.Java.Place
import InjectionPoints.Proofs.Tree.Ordered

namespace InjectionPoints.Java.Place

variable {p q r c : Place} {k : Kind} {f : Field}

/-! ## Parents and children -/

theorem mem_childrenFrom {t : Tree} {above : List (Tree × Nat)} {i : Nat} {cs : List Tree}
    (h : c ∈ childrenFrom t above i cs) : c.node ∈ cs ∧ c.parent? = some ⟨t, above⟩ := by
  induction cs generalizing i with
  | nil => simp [childrenFrom] at h
  | cons d cs ih =>
    rw [childrenFrom, List.mem_cons] at h
    rcases h with rfl | h
    · exact ⟨List.mem_cons_self, rfl⟩
    · exact ⟨List.mem_cons_of_mem d (ih h).1, (ih h).2⟩

theorem node_mem_of_mem_children (h : c ∈ p.children) : c.node ∈ p.node.children :=
  (mem_childrenFrom h).1

theorem parent?_of_mem_children (h : c ∈ p.children) : c.parent? = some p :=
  (mem_childrenFrom h).2

theorem ancestors_of_parent? (h : p.parent? = some q) : p.ancestors = q :: q.ancestors := by
  obtain ⟨t, above⟩ := p
  cases above with
  | nil => simp [parent?] at h
  | cons a above =>
    simp only [parent?, Option.some.injEq] at h
    subst h
    rfl

theorem map_node_childrenFrom (t : Tree) (above : List (Tree × Nat)) (i : Nat) (cs : List Tree) :
    (childrenFrom t above i cs).map node = cs := by
  induction cs generalizing i with
  | nil => rfl
  | cons c cs ih => rw [childrenFrom, List.map_cons, ih]

theorem map_node_children (p : Place) : p.children.map node = p.node.children :=
  map_node_childrenFrom _ _ _ _

theorem exists_mem_children {t : Tree} (h : t ∈ p.node.children) : ∃ c ∈ p.children, c.node = t := by
  rw [← map_node_children] at h
  exact List.mem_map.1 h

theorem child?_mem (h : p.child? f = some c) : c ∈ p.children ∧ c.node.field = some f := by
  refine ⟨List.mem_of_find?_eq_some h, ?_⟩
  simpa using List.find?_some h

theorem child?_isSome {t : Tree} (ht : t ∈ p.node.children) (hf : t.field = some f) :
    ∃ c, p.child? f = some c := by
  obtain ⟨c, hc, rfl⟩ := exists_mem_children ht
  refine Option.isSome_iff_exists.1 (List.find?_isSome.2 ⟨c, hc, ?_⟩)
  rw [hf]
  exact beq_self_eq_true (some f)

theorem named?_mem (h : p.named? k = some c) : c ∈ p.children ∧ c.kind = k := by
  refine ⟨(List.mem_filter.1 (List.mem_of_find?_eq_some h)).1, ?_⟩
  simpa using List.find?_some h

theorem named?_isSome {t : Tree} (ht : t ∈ p.node.children) (hk : t.kind = k)
    (hn : k.isNamed = true) : ∃ c, p.named? k = some c := by
  obtain ⟨c, hc, rfl⟩ := exists_mem_children ht
  refine Option.isSome_iff_exists.1 (List.find?_isSome.2 ⟨c, List.mem_filter.2 ⟨hc, ?_⟩, ?_⟩)
  · rw [kind, hk, hn]
  · rw [kind, hk]
    exact beq_self_eq_true k

/-- A child knows its position. -/
theorem exists_position_of_mem_childrenFrom {t : Tree} {above : List (Tree × Nat)} {i : Nat}
    {cs : List Tree} (h : c ∈ childrenFrom t above i cs) :
    ∃ j, cs[j]? = some c.node ∧ c.above = (t, i + j) :: above := by
  induction cs generalizing i with
  | nil => simp [childrenFrom] at h
  | cons d cs ih =>
    rw [childrenFrom, List.mem_cons] at h
    rcases h with rfl | h
    · exact ⟨0, rfl, rfl⟩
    · obtain ⟨j, hj, ha⟩ := ih h
      exact ⟨j + 1, hj, by rw [ha, Nat.add_right_comm, Nat.add_assoc]⟩

theorem eq_of_same {d : Place} (hc : c ∈ p.children) (hd : d ∈ p.children)
    (h : c.same d = true) : c = d := by
  obtain ⟨i, hi, hci⟩ := exists_position_of_mem_childrenFrom hc
  obtain ⟨j, hj, hdj⟩ := exists_position_of_mem_childrenFrom hd
  simp only [same, address, hci, hdj, List.map_cons, beq_iff_eq, List.cons.injEq, and_true] at h
  obtain rfl : i = j := by omega
  rw [hi, Option.some.injEq] at hj
  obtain ⟨cn, ca⟩ := c
  obtain ⟨dn, da⟩ := d
  exact congr (congrArg mk hj) (hci.trans hdj.symm)

/-! ## Below a place -/

theorem belowAll_eq (t : Tree) (above : List (Tree × Nat)) (i : Nat) (cs : List Tree) :
    belowAll t above i cs = (childrenFrom t above i cs).flatMap preorder := by
  induction cs generalizing i with
  | nil => rfl
  | cons c cs ih => rw [belowAll, childrenFrom, List.flatMap_cons, ih, preorder]

theorem preorder_eq (p : Place) : p.preorder = p :: p.children.flatMap preorder := by
  obtain ⟨⟨k, f, s, cs⟩, above⟩ := p
  rw [preorder, below, belowAll_eq]
  rfl

theorem mem_preorder_iff : p ∈ q.preorder ↔ p = q ∨ ∃ c ∈ q.children, p ∈ c.preorder := by
  rw [preorder_eq, List.mem_cons, List.mem_flatMap]

theorem self_mem_preorder (p : Place) : p ∈ p.preorder :=
  mem_preorder_iff.2 (.inl rfl)

theorem mem_preorder_of_mem_children (h : c ∈ p.children) : c ∈ p.preorder :=
  mem_preorder_iff.2 (.inr ⟨c, h, c.self_mem_preorder⟩)

/-- What holds of a place when it holds of its children holds of every place. -/
theorem induction {motive : Place → Prop} (step : ∀ p, (∀ c ∈ p.children, motive c) → motive p)
    (p : Place) : motive p := by
  refine step p fun c hc => induction step c
termination_by p.node
decreasing_by
  have h := List.sizeOf_lt_of_mem (node_mem_of_mem_children hc)
  obtain ⟨⟨k, f, s, cs⟩, above⟩ := p
  simp only [Tree.children_node, Tree.node.sizeOf_spec] at h ⊢
  omega

theorem mem_preorder_trans (hp : p ∈ q.preorder) (hq : q ∈ r.preorder) : p ∈ r.preorder := by
  induction r using Place.induction with
  | step r ih =>
    rcases mem_preorder_iff.1 hq with rfl | ⟨c, hc, hqc⟩
    · exact hp
    · exact mem_preorder_iff.2 (.inr ⟨c, hc, ih c hc hqc⟩)

theorem node_mem_preorder (h : p ∈ q.preorder) : p.node ∈ q.node.preorder := by
  induction q using Place.induction with
  | step q ih =>
    rcases mem_preorder_iff.1 h with rfl | ⟨c, hc, hp⟩
    · exact p.node.self_mem_preorder
    · exact Tree.mem_preorder_iff.2 (.inr ⟨c.node, node_mem_of_mem_children hc, ih c hc hp⟩)

/-- Every place below another one has a parent there. -/
theorem exists_parent (h : p ∈ r.preorder) : p = r ∨ ∃ q ∈ r.preorder, p ∈ q.children := by
  induction r using Place.induction with
  | step r ih =>
    rcases mem_preorder_iff.1 h with rfl | ⟨c, hc, hp⟩
    · exact .inl rfl
    · right
      rcases ih c hc hp with rfl | ⟨q, hq, hpq⟩
      · exact ⟨r, r.self_mem_preorder, hc⟩
      · exact ⟨q, mem_preorder_trans hq (mem_preorder_of_mem_children hc), hpq⟩

/-- Going up from a place below the root stays in the tree. -/
theorem mem_of_parent? {t : Tree} (h : p ∈ (root t).preorder) (hq : p.parent? = some q) :
    q ∈ (root t).preorder ∧ p ∈ q.children := by
  rcases exists_parent h with rfl | ⟨q', hq', hp⟩
  · simp [root, parent?] at hq
  · rw [parent?_of_mem_children hp, Option.some.injEq] at hq
    exact hq ▸ ⟨hq', hp⟩

/-! ## Depth -/

/-- The number of ancestors. -/
def depth (p : Place) : Nat := p.above.length

theorem depth_of_parent? (h : p.parent? = some q) : p.depth = q.depth + 1 := by
  obtain ⟨t, above⟩ := p
  cases above with
  | nil => simp [parent?] at h
  | cons a above =>
    simp only [parent?, Option.some.injEq] at h
    subst h
    rfl

theorem depth_le_of_mem_preorder (h : p ∈ q.preorder) : q.depth ≤ p.depth := by
  induction q using Place.induction with
  | step q ih =>
    rcases mem_preorder_iff.1 h with rfl | ⟨c, hc, hp⟩
    · exact Nat.le_refl _
    · have h₁ := ih c hc hp
      have h₂ := depth_of_parent? (parent?_of_mem_children hc)
      omega

/-- Above a place there is one place of each depth. -/
theorem eq_of_depth_eq (hq : p ∈ q.preorder) (hr : p ∈ r.preorder) (hd : q.depth = r.depth) :
    q = r := by
  generalize hn : p.depth = n
  induction n generalizing p with
  | zero =>
    rcases exists_parent hq with rfl | ⟨q', _, hp⟩
    · rcases exists_parent hr with rfl | ⟨r', _, hp⟩
      · rfl
      · have h := depth_of_parent? (parent?_of_mem_children hp)
        omega
    · have h := depth_of_parent? (parent?_of_mem_children hp)
      omega
  | succ n ih =>
    rcases exists_parent hq with rfl | ⟨q', hq', hpq⟩
    · rcases exists_parent hr with rfl | ⟨r', hr', hpr⟩
      · rfl
      · have h₁ := depth_le_of_mem_preorder hr'
        have h₂ := depth_of_parent? (parent?_of_mem_children hpr)
        omega
    · have h := depth_of_parent? (parent?_of_mem_children hpq)
      rcases exists_parent hr with rfl | ⟨r', hr', hpr⟩
      · have h₁ := depth_le_of_mem_preorder hq'
        omega
      · have he := parent?_of_mem_children hpq
        rw [parent?_of_mem_children hpr, Option.some.injEq] at he
        subst he
        exact ih hq' hr' (by omega)

/-- A place is below one child at most. -/
theorem child_unique {d : Place} (hc : c ∈ q.children) (hd : d ∈ q.children)
    (hpc : p ∈ c.preorder) (hpd : p ∈ d.preorder) : c = d := by
  refine eq_of_depth_eq hpc hpd ?_
  rw [depth_of_parent? (parent?_of_mem_children hc), depth_of_parent? (parent?_of_mem_children hd)]

theorem not_mem_preorder_child (hc : c ∈ p.children) : p ∉ c.preorder := by
  intro h
  have h₁ := depth_le_of_mem_preorder h
  have h₂ := depth_of_parent? (parent?_of_mem_children hc)
  omega

/-- The first place of a kind, in pre-order. -/
def first? (k : Kind) (p : Place) : Option Place := p.preorder.find? fun q => q.kind == k

theorem first?_mem {k : Kind} (h : p.first? k = some q) : q ∈ p.preorder ∧ q.kind = k :=
  ⟨List.mem_of_find?_eq_some h, by simpa using List.find?_some h⟩

/-! ## The order of the text -/

theorem ordered_of_mem_children (ho : q.node.Ordered) (h : p ∈ q.children) :
    q.start ≤ p.start ∧ p.node.Ordered ∧ p.stop ≤ q.stop :=
  Tree.OrderedBetween.of_mem ho (node_mem_of_mem_children h)

theorem ordered_of_mem_preorder (ho : q.node.Ordered) (h : p ∈ q.preorder) :
    q.start ≤ p.start ∧ p.node.Ordered ∧ p.stop ≤ q.stop := by
  induction q using Place.induction with
  | step q ih =>
    rcases mem_preorder_iff.1 h with rfl | ⟨c, hc, hp⟩
    · exact ⟨Nat.le_refl _, ho, Nat.le_refl _⟩
    · obtain ⟨h₁, h₂, h₃⟩ := ordered_of_mem_children ho hc
      obtain ⟨h₄, h₅, h₆⟩ := ih c hc h₂ hp
      exact ⟨Nat.le_trans h₁ h₄, h₅, Nat.le_trans h₆ h₃⟩

theorem pairwise_children (ho : q.node.Ordered) :
    q.children.Pairwise fun c d => c.stop ≤ d.start := by
  have h := Tree.OrderedBetween.pairwise ho
  rw [← map_node_children, List.pairwise_map] at h
  exact h

/-- Two places of a tree are one above the other, or apart. -/
theorem nested_or_apart (ho : r.node.Ordered) (hp : p ∈ r.preorder) (hq : q ∈ r.preorder) :
    p ∈ q.preorder ∨ q ∈ p.preorder ∨ p.stop ≤ q.start ∨ q.stop ≤ p.start := by
  induction r using Place.induction with
  | step r ih =>
    rcases mem_preorder_iff.1 hp with rfl | ⟨c, hc, hpc⟩
    · exact .inr (.inl hq)
    · rcases mem_preorder_iff.1 hq with rfl | ⟨d, hd, hqd⟩
      · exact .inl hp
      · obtain ⟨_, hoc, _⟩ := ordered_of_mem_children ho hc
        obtain ⟨_, hod, _⟩ := ordered_of_mem_children ho hd
        obtain ⟨hp₁, _, hp₂⟩ := ordered_of_mem_preorder hoc hpc
        obtain ⟨hq₁, _, hq₂⟩ := ordered_of_mem_preorder hod hqd
        rcases pairwise_cases (pairwise_children ho) hc hd with rfl | h | h
        · exact ih c hc hoc hpc hqd
        · exact .inr (.inr (.inl (by omega)))
        · exact .inr (.inr (.inr (by omega)))

/-- A node of some length without children is inside every node whose span covers it. -/
theorem mem_preorder_of_covers (ho : r.node.Ordered) (hp : p ∈ r.preorder) (hq : q ∈ r.preorder)
    (hl : p.node.children = []) (hf : p.start < p.stop) (h₁ : q.start ≤ p.start)
    (h₂ : p.stop ≤ q.stop) : p ∈ q.preorder := by
  rcases nested_or_apart ho hp hq with h | h | h | h
  · exact h
  · rcases mem_preorder_iff.1 h with rfl | ⟨c, hc, _⟩
    · exact q.self_mem_preorder
    · have hm := node_mem_of_mem_children hc
      rw [hl] at hm
      simp at hm
  · omega
  · omega

end InjectionPoints.Java.Place
