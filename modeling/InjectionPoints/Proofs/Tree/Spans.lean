/-
From a span to the deepest node that spans it. Nodes with one span stand one above the other, and the
way up from the smallest node around the span leads through all of them, the deepest one first
(`exactly?_deepest`). Every syntax tree of a text is in the order of the text, so there a span that a
node was read from leads back to it, or to a node below it.
-/
import InjectionPoints.Proofs.SourceTree
import InjectionPoints.Proofs.Tree.Descent

namespace InjectionPoints.Java.Place

/-- A node of a wanted kind that spans exactly `span`, deeper than all others like it. -/
structure IsDeepest (t : Tree) (span : Span) (wanted : Kind → Bool) (n : Place) : Prop where
  mem : n ∈ (root t).preorder
  span_eq : n.span = span
  kind : wanted n.kind = true
  deepest : ∀ m ∈ (root t).preorder, m.span = span → wanted m.kind = true → m ≠ n →
    m.depth < n.depth

variable {t : Tree} {span : Span} {wanted : Kind → Bool} {n m : Place}

theorem IsDeepest.unique (hn : IsDeepest t span wanted n) (hm : IsDeepest t span wanted m) :
    n = m := by
  by_contra hne
  have h₁ := hn.deepest m hm.mem hm.span_eq hm.kind (Ne.symm hne)
  have h₂ := hm.deepest n hn.mem hn.span_eq hn.kind hne
  omega

/-- What is below all nodes of its span is the deepest of them. -/
theorem isDeepest_of_exactly? (ho : t.Ordered) (hs : span.start < span.stop)
    (h : (root t).exactly? span wanted = some n) : IsDeepest t span wanted n := by
  obtain ⟨⟨hmem, hspan, hkind⟩, hleast⟩ := (exactly?_eq_some_iff ho hs).1 h
  refine ⟨hmem, hspan, hkind, fun m hm hms hmw hne => ?_⟩
  have hbelow := hleast m hm hms hmw
  refine Nat.lt_of_le_of_ne (depth_le_of_mem_preorder hbelow) fun hd => hne ?_
  exact eq_of_depth_eq hbelow n.self_mem_preorder hd

/-- In a tree whose nodes are in the order of the text a span of some bytes leads to the deepest node
of a wanted kind that spans exactly it, and to none exactly if no such node spans it. -/
theorem exactly?_deepest (ho : t.Ordered) (hs : span.start < span.stop) (wanted : Kind → Bool) :
    (∀ n, (root t).exactly? span wanted = some n ↔ IsDeepest t span wanted n) ∧
      ((root t).exactly? span wanted = none ↔
        ∀ m ∈ (root t).preorder, m.span = span → wanted m.kind = false) := by
  refine ⟨fun n => ⟨isDeepest_of_exactly? ho hs, fun hn => ?_⟩, exactly?_eq_none_iff ho hs⟩
  cases h : (root t).exactly? span wanted with
  | none =>
    have hno := (exactly?_eq_none_iff ho hs).1 h n hn.mem hn.span_eq
    exact absurd hn.kind (by simp [hno])
  | some m => rw [hn.unique (isDeepest_of_exactly? ho hs h)]

/-- A file of one class: the file and the class have one span, and the class is deeper. No name spans
as much. -/
theorem exactly?_deepest_class :
    let span : Span := ⟨0, 9⟩
    ∃ t, Tree.ofText? "class A{}" = some t ∧ t.Ordered ∧ span.start < span.stop ∧
      (root t).span = span ∧
      (∃ n, n.kind = .classDeclaration ∧ n ≠ root t ∧
        IsDeepest t span [Kind.program, Kind.classDeclaration].contains n) ∧
      ∀ m ∈ (root t).preorder, m.span = span → [Kind.identifier].contains m.kind = false := by
  intro span
  have hread : ((Tree.ofText? "class A{}").bind fun t =>
      ((root t).exactly? span [Kind.program, Kind.classDeclaration].contains).map fun n =>
        (n.kind, n.depth, (root t).span, ((root t).exactly? span [Kind.identifier].contains).isNone)) =
      some (.classDeclaration, 1, span, true) := by
    decide +kernel
  obtain ⟨t, ht, hn⟩ := Option.bind_eq_some_iff.1 hread
  obtain ⟨n, hn, he⟩ := Option.map_eq_some_iff.1 hn
  simp only [Prod.mk.injEq, Option.isNone_iff_eq_none] at he
  obtain ⟨hk, hd, hroot, hnone⟩ := he
  have ho := Tree.ordered_of_ofText? ht
  have hs : span.start < span.stop := by decide
  refine ⟨t, ht, ho, hs, hroot, ⟨n, hk, ?_, ?_⟩, ?_⟩
  · rintro rfl
    simp [depth, root] at hd
  · exact ((exactly?_deepest ho hs _).1 n).1 hn
  · exact (exactly?_deepest ho hs _).2.1 hnone

end InjectionPoints.Java.Place
