/-
Walking down to some bytes and up again. In a tree whose nodes are in the order of the text the walk
down ends inside every node around the bytes, and stays inside the nodes around them
(`descend_encloses`, and `descend_spec` for one byte); the way up from a place leads through all that
the place is below (`mem_wayUp_iff`). So what is met first on the way up is the smallest of its kind
(`nearest_eq_some_iff`), and a span leads back to the node that spans it (`exactly?_eq_some_iff`).
-/
import InjectionPoints.Proofs.Tree.Places

namespace InjectionPoints.Java.Place

variable {p q r c n : Place} {offset : Nat}

/-- The byte at the offset belongs to the node. -/
def Holds (p : Place) (offset : Nat) : Prop := p.start ≤ offset ∧ offset < p.stop

instance (p : Place) (offset : Nat) : Decidable (p.Holds offset) :=
  inferInstanceAs (Decidable (_ ∧ _))

theorem Holds.above (h : p.Holds offset) (ho : q.node.Ordered) (hp : p ∈ q.preorder) :
    q.Holds offset := by
  obtain ⟨h₁, _, h₂⟩ := ordered_of_mem_preorder ho hp
  exact ⟨Nat.le_trans h₁ h.1, Nat.lt_of_lt_of_le h.2 h₂⟩

/-- The byte at `s` belongs to the node, and all bytes from there up to `e` do. -/
def Encloses (p : Place) (s e : Nat) : Prop := p.start ≤ s ∧ s < p.stop ∧ e ≤ p.stop

theorem encloses_self_iff : p.Encloses offset offset ↔ p.Holds offset := by
  simp only [Encloses, Holds]
  omega

theorem Encloses.above {s e : Nat} (h : p.Encloses s e) (ho : q.node.Ordered)
    (hp : p ∈ q.preorder) : q.Encloses s e := by
  obtain ⟨h₁, _, h₂⟩ := ordered_of_mem_preorder ho hp
  exact ⟨Nat.le_trans h₁ h.1, Nat.lt_of_lt_of_le h.2.1 h₂, Nat.le_trans h.2.2 h₂⟩

/-! ## Down -/

section Down

variable {s e : Nat}

/-- The walk goes through the child that encloses the bytes, if there is one. -/
theorem descendAmong_cases {t : Tree} {above : List (Tree × Nat)} {i : Nat} {cs : List Tree}
    (h : (childrenFrom t above i cs).Pairwise fun c d => c.stop ≤ d.start) (s e : Nat) :
    (∃ c ∈ childrenFrom t above i cs, c.Encloses s e ∧
      descendAmong s e t above i cs = some (c.descend s e)) ∨
    descendAmong s e t above i cs = none ∧
      ∀ c ∈ childrenFrom t above i cs, ¬c.Encloses s e := by
  induction cs generalizing i with
  | nil => exact .inr ⟨rfl, by simp [childrenFrom]⟩
  | cons d cs ih =>
    rw [childrenFrom] at h ⊢
    obtain ⟨hd, hcs⟩ := List.pairwise_cons.1 h
    rw [descendAmong]
    by_cases hreach : e ≤ d.stop ∧ s < d.stop
    · rw [if_pos hreach]
      by_cases hstart : d.start ≤ s
      · rw [if_pos hstart]
        exact .inl ⟨_, List.mem_cons_self, ⟨hstart, hreach.2, hreach.1⟩, rfl⟩
      · -- the children behind it begin later still
        rw [if_neg hstart]
        refine .inr ⟨rfl, fun c hc henc => ?_⟩
        rcases List.mem_cons.1 hc with rfl | hc
        · exact hstart henc.1
        · exact absurd (Nat.le_trans (hd c hc) henc.1) (Nat.not_le.2 hreach.2)
    · rw [if_neg hreach]
      rcases ih hcs with ⟨c, hc, hx⟩ | ⟨hnone, hall⟩
      · exact .inl ⟨c, List.mem_cons_of_mem _ hc, hx⟩
      · refine .inr ⟨hnone, fun c hc henc => ?_⟩
        rcases List.mem_cons.1 hc with rfl | hc
        · exact hreach ⟨henc.2.2, henc.2.1⟩
        · exact hall c hc henc

theorem descend_cases (ho : q.node.Ordered) (s e : Nat) :
    (∃ c ∈ q.children, c.Encloses s e ∧ q.descend s e = c.descend s e) ∨
      q.descend s e = q ∧ ∀ c ∈ q.children, ¬c.Encloses s e := by
  obtain ⟨⟨k, f, sp, cs⟩, above⟩ := q
  rcases descendAmong_cases (pairwise_children ho) s e with ⟨c, hc, henc, he⟩ | ⟨he, hall⟩
  · refine .inl ⟨c, hc, henc, ?_⟩
    simp only [Tree.children_node] at he
    rw [descend, descendIn, he]
  · refine .inr ⟨?_, hall⟩
    simp only [Tree.children_node] at he
    rw [descend, descendIn, he]

/-- Where the walk ends: inside all nodes that enclose the bytes, and, unless it never started, at
one of them. -/
theorem descend_encloses (ho : q.node.Ordered) (s e : Nat) :
    q.descend s e ∈ q.preorder ∧
      (q.descend s e = q ∨ (q.descend s e).Encloses s e) ∧
      ∀ r ∈ q.preorder, r.Encloses s e → q.descend s e ∈ r.preorder := by
  induction q using Place.induction with
  | step q ih =>
    rcases descend_cases ho s e with ⟨c, hc, henc, he⟩ | ⟨he, hall⟩
    · obtain ⟨hmem, hend, hinside⟩ := ih c hc (ordered_of_mem_children ho hc).2.1
      rw [he]
      refine ⟨mem_preorder_iff.2 (.inr ⟨c, hc, hmem⟩), .inr ?_, fun r hr hrenc => ?_⟩
      · rcases hend with hend | hend
        · rwa [hend]
        · exact hend
      · rcases mem_preorder_iff.1 hr with rfl | ⟨d, hd, hrd⟩
        · exact mem_preorder_iff.2 (.inr ⟨c, hc, hmem⟩)
        · have hdenc := hrenc.above (ordered_of_mem_children ho hd).2.1 hrd
          have hcd : c = d := by
            rcases pairwise_cases (pairwise_children ho) hc hd with rfl | hlt | hlt
            · rfl
            · have := henc.2.1
              have := hdenc.1
              omega
            · have := henc.1
              have := hdenc.2.1
              omega
          exact hinside r (hcd ▸ hrd) hrenc
    · rw [he]
      refine ⟨q.self_mem_preorder, .inl rfl, fun r hr hrenc => ?_⟩
      rcases mem_preorder_iff.1 hr with rfl | ⟨d, hd, hrd⟩
      · exact r.self_mem_preorder
      · exact absurd (hrenc.above (ordered_of_mem_children ho hd).2.1 hrd) (hall d hd)

/-- The walk to a single byte ends inside all nodes that hold it. -/
theorem descend_spec (ho : q.node.Ordered) (offset : Nat) :
    q.descend offset offset ∈ q.preorder ∧
      (q.descend offset offset = q ∨ (q.descend offset offset).Holds offset) ∧
      ∀ r ∈ q.preorder, r.Holds offset → q.descend offset offset ∈ r.preorder := by
  simpa only [encloses_self_iff] using descend_encloses ho offset offset

end Down

/-! ## Up -/

theorem preorder_antisymm (hp : p ∈ q.preorder) (hq : q ∈ p.preorder) : p = q :=
  eq_of_depth_eq p.self_mem_preorder hp
    (Nat.le_antisymm (depth_le_of_mem_preorder hq) (depth_le_of_mem_preorder hp))

/-- The way up from a place, the place first. -/
def wayUp (p : Place) : List Place := p :: p.ancestors

theorem wayUp_of_parent? (h : p.parent? = some q) : p.wayUp = p :: q.wayUp := by
  rw [wayUp, ancestors_of_parent? h, wayUp]

/-- What holds of a place when it holds of its parent holds of every place of a tree. -/
theorem upward {t : Tree} {motive : Place → Prop} (top : motive (root t))
    (step : ∀ p q, q ∈ (root t).preorder → p ∈ q.children → motive q → motive p)
    (hp : p ∈ (root t).preorder) : motive p := by
  generalize hn : p.depth = n
  induction n generalizing p with
  | zero =>
    rcases exists_parent hp with rfl | ⟨q, _, hc⟩
    · exact top
    · have := depth_of_parent? (parent?_of_mem_children hc)
      omega
  | succ n ih =>
    rcases exists_parent hp with rfl | ⟨q, hq, hc⟩
    · exact top
    · have := depth_of_parent? (parent?_of_mem_children hc)
      exact step p q hq hc (ih hq (by omega))

/-- The way up leads through all that the place is below. -/
theorem mem_wayUp_iff {t : Tree} (hp : p ∈ (root t).preorder) :
    q ∈ p.wayUp ↔ q ∈ (root t).preorder ∧ p ∈ q.preorder := by
  refine upward (motive := fun p => q ∈ p.wayUp ↔ q ∈ (root t).preorder ∧ p ∈ q.preorder)
    ?_ (fun p o ho hpo ih => ?_) hp
  · constructor
    · intro h
      obtain rfl : q = root t := by simpa [wayUp, root, ancestors, ancestors.climb] using h
      exact ⟨self_mem_preorder _, self_mem_preorder _⟩
    · intro h
      rw [preorder_antisymm h.1 h.2]
      exact List.mem_cons_self
  · rw [wayUp_of_parent? (parent?_of_mem_children hpo), List.mem_cons, ih]
    constructor
    · intro h
      rcases h with rfl | ⟨hq, hoq⟩
      · exact ⟨mem_preorder_trans (mem_preorder_of_mem_children hpo) ho, q.self_mem_preorder⟩
      · exact ⟨hq, mem_preorder_trans (mem_preorder_of_mem_children hpo) hoq⟩
    · intro h
      rcases exists_parent h.2 with rfl | ⟨o', ho', hpo'⟩
      · exact .inl rfl
      · have he := parent?_of_mem_children hpo
        rw [parent?_of_mem_children hpo', Option.some.injEq] at he
        exact .inr ⟨h.1, he ▸ ho'⟩

/-- Each place on the way up is below the next ones. -/
theorem pairwise_wayUp {t : Tree} (hp : p ∈ (root t).preorder) :
    p.wayUp.Pairwise fun a b => a ∈ b.preorder := by
  refine upward (motive := fun p => p.wayUp.Pairwise fun a b => a ∈ b.preorder)
    ?_ (fun p q hq hpq ih => ?_) hp
  · exact List.pairwise_singleton _ _
  · rw [wayUp_of_parent? (parent?_of_mem_children hpq)]
    refine List.pairwise_cons.2 ⟨fun a ha => ?_, ih⟩
    exact mem_preorder_trans (mem_preorder_of_mem_children hpq) ((mem_wayUp_iff hq).1 ha).2

/-- What is met first on the way up is below all other that could be met. -/
theorem nearest_eq_some_iff {t : Tree} {wanted : Place → Bool} (hp : p ∈ (root t).preorder) :
    p.wayUp.find? wanted = some n ↔
      (n ∈ (root t).preorder ∧ p ∈ n.preorder ∧ wanted n = true) ∧
        ∀ m ∈ (root t).preorder, p ∈ m.preorder → wanted m = true → n ∈ m.preorder := by
  have first : ∀ n, p.wayUp.find? wanted = some n →
      (n ∈ (root t).preorder ∧ p ∈ n.preorder ∧ wanted n = true) ∧
        ∀ m ∈ (root t).preorder, p ∈ m.preorder → wanted m = true → n ∈ m.preorder := by
    intro n hn
    obtain ⟨hw, before, behind, he, hb⟩ := List.find?_eq_some_iff_append.1 hn
    have hmem : n ∈ p.wayUp := by simp [he]
    obtain ⟨hnt, hpn⟩ := (mem_wayUp_iff hp).1 hmem
    refine ⟨⟨hnt, hpn, hw⟩, fun m hm hpm hmw => ?_⟩
    have hpair := pairwise_wayUp hp
    have hmu := (mem_wayUp_iff hp).2 ⟨hm, hpm⟩
    rw [he] at hpair hmu
    rcases List.mem_append.1 hmu with hmu | hmu
    · have := hb m hmu
      simp [hmw] at this
    · rcases List.mem_cons.1 hmu with rfl | hmu
      · exact m.self_mem_preorder
      · exact (List.pairwise_cons.1 (List.pairwise_append.1 hpair).2.1).1 m hmu
  refine ⟨first n, fun h => ?_⟩
  obtain ⟨⟨hnt, hpn, hw⟩, hleast⟩ := h
  obtain ⟨m, hm⟩ := Option.isSome_iff_exists.1
    (List.find?_isSome.2 ⟨n, (mem_wayUp_iff hp).2 ⟨hnt, hpn⟩, hw⟩)
  obtain ⟨⟨hmt, hpm, hmw⟩, hmleast⟩ := first m hm
  rw [hm, preorder_antisymm (hmleast n hnt hpn hw) (hleast m hmt hpm hmw)]

/-! ## The order of the walk -/

/-- In pre-order a place comes before what is below it and before what is behind it. -/
theorem pairwise_preorder (ho : q.node.Ordered) :
    q.preorder.Pairwise fun a b => b ∈ a.preorder ∧ a ≠ b ∨ a.stop ≤ b.start := by
  induction q using Place.induction with
  | step q ih =>
    rw [preorder_eq, List.pairwise_cons, List.pairwise_flatMap]
    refine ⟨fun b hb => .inl ?_, fun c hc => ih c hc (ordered_of_mem_children ho hc).2.1, ?_⟩
    · obtain ⟨c, hc, hbc⟩ := List.mem_flatMap.1 hb
      refine ⟨mem_preorder_iff.2 (.inr ⟨c, hc, hbc⟩), ?_⟩
      rintro rfl
      exact not_mem_preorder_child hc hbc
    · refine (pairwise_children ho).imp_of_mem fun {c d} hc hd hcd a ha b hb => .inr ?_
      obtain ⟨_, _, h₁⟩ := ordered_of_mem_preorder (ordered_of_mem_children ho hc).2.1 ha
      obtain ⟨h₂, _, _⟩ := ordered_of_mem_preorder (ordered_of_mem_children ho hd).2.1 hb
      omega

/-! ## From a span to a node -/

/-- Cutting a list off where a test fails loses nothing that passes, when no later element passes
the test either. -/
theorem find?_takeWhile {α : Type} {kept wanted : α → Bool} {l : List α}
    (hw : ∀ a ∈ l, wanted a = true → kept a = true)
    (hp : l.Pairwise fun a b => kept b = true → kept a = true) :
    (l.takeWhile kept).find? wanted = l.find? wanted := by
  induction l with
  | nil => rfl
  | cons a l ih =>
    obtain ⟨ha, hl⟩ := List.pairwise_cons.1 hp
    cases hk : kept a with
    | true =>
      rw [List.takeWhile_cons_of_pos hk, List.find?_cons, List.find?_cons,
        ih (fun b hb => hw b (List.mem_cons_of_mem a hb)) hl]
    | false =>
      rw [List.takeWhile_cons_of_neg (by simp [hk]), List.find?_nil, eq_comm, List.find?_eq_none]
      intro b hb hwb
      have hkb := hw b hb hwb
      rcases List.mem_cons.1 hb with rfl | hb
      · simp [hk] at hkb
      · exact absurd (ha b hb hkb) (by simp [hk])

section Exactly

variable {t : Tree} {span : Span} {wanted : Kind → Bool}

/-- The walk down to a span ends below all nodes that span exactly it. -/
theorem descend_mem_of_span_eq (ho : t.Ordered) (hs : span.start < span.stop)
    (hp : p ∈ (root t).preorder) (h : p.span = span) :
    (root t).descend span.start span.stop ∈ p.preorder := by
  obtain ⟨_, _, hinside⟩ := descend_encloses (q := root t) ho span.start span.stop
  subst h
  exact hinside p hp ⟨Nat.le_refl _, hs, Nat.le_refl _⟩

/-- From the smallest node around a span the search goes up to the root: behind the nodes inside the
span there is none that spans exactly it. -/
theorem exactly?_eq_find? (ho : t.Ordered) (span : Span) (wanted : Kind → Bool) :
    (root t).exactly? span wanted =
      ((root t).descend span.start span.stop).wayUp.find? fun a =>
        decide (a.span = span) && wanted a.kind := by
  obtain ⟨hmem, _, _⟩ := descend_encloses (q := root t) ho span.start span.stop
  refine find?_takeWhile (fun a _ ha => ?_) ((pairwise_wayUp hmem).imp_of_mem ?_)
  · rw [Bool.and_eq_true, decide_eq_true_eq] at ha
    exact Span.covers_iff.2 ⟨Nat.le_of_eq (by rw [ha.1]), Nat.le_of_eq (by rw [ha.1])⟩
  · -- what is above reaches at least as far
    intro a b _ hb hab hkept
    have hbt := ((mem_wayUp_iff hmem).1 hb).1
    obtain ⟨h₁, _, h₂⟩ := ordered_of_mem_preorder
      (ordered_of_mem_preorder (q := root t) ho hbt).2.1 hab
    obtain ⟨h₃, h₄⟩ := Span.covers_iff.1 hkept
    exact Span.covers_iff.2 ⟨Nat.le_trans h₃ h₁, Nat.le_trans h₂ h₄⟩

/-- A span leads back to the smallest node of a wanted kind that spans exactly it, if there is
one. -/
theorem exactly?_eq_some_iff (ho : t.Ordered) (hs : span.start < span.stop) :
    (root t).exactly? span wanted = some n ↔
      (n ∈ (root t).preorder ∧ n.span = span ∧ wanted n.kind = true) ∧
        ∀ m ∈ (root t).preorder, m.span = span → wanted m.kind = true → n ∈ m.preorder := by
  have hmem := (descend_encloses (q := root t) ho span.start span.stop).1
  rw [exactly?_eq_find? ho, nearest_eq_some_iff hmem]
  simp only [Bool.and_eq_true, decide_eq_true_eq]
  constructor
  · intro hx
    obtain ⟨⟨hn, _, hspan, hw⟩, hleast⟩ := hx
    refine ⟨⟨hn, hspan, hw⟩, fun m hm hms hmw => ?_⟩
    exact hleast m hm (descend_mem_of_span_eq ho hs hm hms) ⟨hms, hmw⟩
  · intro hx
    obtain ⟨⟨hn, hspan, hw⟩, hleast⟩ := hx
    refine ⟨⟨hn, descend_mem_of_span_eq ho hs hn hspan, hspan, hw⟩, fun m hm _ hmw => ?_⟩
    exact hleast m hm hmw.1 hmw.2

/-- A span leads to no node exactly if no node of a wanted kind spans it. -/
theorem exactly?_eq_none_iff (ho : t.Ordered) (hs : span.start < span.stop) :
    (root t).exactly? span wanted = none ↔
      ∀ m ∈ (root t).preorder, m.span = span → wanted m.kind = false := by
  have hmem := (descend_encloses (q := root t) ho span.start span.stop).1
  rw [exactly?_eq_find? ho, List.find?_eq_none]
  constructor
  · intro hnone m hm hms
    have := hnone m ((mem_wayUp_iff hmem).2 ⟨hm, descend_mem_of_span_eq ho hs hm hms⟩)
    simpa [hms] using this
  · intro hall m hm
    have := hall m ((mem_wayUp_iff hmem).1 hm).1
    simpa using this

end Exactly

end InjectionPoints.Java.Place
