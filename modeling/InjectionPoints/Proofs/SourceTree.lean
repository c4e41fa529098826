/-
The tree of a text. Its nodes are in the order of the text (`ordered_of_ofText?`) and, the root
apart, some bytes long (`filled_of_ofText?`); every node is a construct of the grammar or a comment
(`isConstruct_of_ofText?`), so what is to be known of a kind of node is decided by a test on the list of
constructs (`exists_child`, `child_passes`, `stop_le_start`).
-/
import InjectionPoints.Proofs.Grammar.Comments

namespace InjectionPoints.Java

/-! ## Comments -/

theorem Scan.isComment_next {modes : List Mode} {c : Char} {cs : List Char} {k : Kind}
    (h : (next modes c cs).kind = some (.comment k)) : k.isComment = true := by
  rw [next.eq_def] at h
  split at h
  · rw [line] at h
    split at h
    · simp at h
    · split at h
      · split at h
        · simp at h
        · rw [escape] at h
          split at h <;> simp [here] at h
      · simp [here] at h
  · rw [block] at h
    split at h
    · split at h
      · simp at h
      · simp [here] at h
    · split at h
      · split at h
        · simp [here] at h
        · rw [escape] at h
          split at h <;> simp [here] at h
      · simp [here] at h
  · rw [code] at h
    repeat' split at h
    all_goals first
      | (simp [here] at h; done)
      | (simp only [here, Option.some.injEq, TokenKind.comment.injEq] at h; subst h; rfl)

namespace Token

theorem isComment_of_mem {skip offset : Nat} {modes : List Mode} {cs : List Char} {t : Token}
    {k : Kind} (ht : t ∈ tokensFrom skip offset modes cs) (hk : t.kind = .comment k) :
    k.isComment = true := by
  obtain ⟨modes, c, cs, h, _⟩ := exists_scan_of_mem ht
  exact Scan.isComment_next (h.trans (congrArg some hk))

variable {ts : List Token} {lo hi : Nat} {c : Tree}

/-- The nodes of comments come from tokens. -/
theorem exists_of_mem_comments (h : c ∈ ts.filterMap commentNode?) :
    ∃ t ∈ ts, ∃ k, t.kind = .comment k ∧ c = .leaf k t.span := by
  obtain ⟨t, ht, hc⟩ := List.mem_filterMap.1 h
  rw [commentNode?] at hc
  split at hc
  · rename_i k hk
    rw [Option.some.injEq] at hc
    exact ⟨t, ht, k, hk, hc.symm⟩
  · simp at hc

theorem InOrder.comments (h : InOrder lo hi ts) :
    Tree.OrderedBetween lo hi (ts.filterMap commentNode?) := by
  induction ts generalizing lo with
  | nil => exact .nil h
  | cons t ts ih =>
    obtain ⟨h₁, h₂, h₃⟩ := h
    rw [List.filterMap_cons]
    split
    · exact (ih h₃).lower (by omega)
    · rename_i c hc
      rw [commentNode?] at hc
      split at hc
      · rw [Option.some.injEq] at hc
        subst hc
        exact Tree.orderedBetween_cons_iff.2 ⟨h₁, .nil (Nat.le_of_lt h₂), ih h₃⟩
      · simp at hc

/-- The tokens that are no comments keep clear of those that are. -/
theorem InOrder.clear (h : InOrder lo hi ts) {t : Token} (ht : t ∈ ts)
    (hn : t.isComment = false) : Tree.Clear (ts.filterMap commentNode?) t.span := by
  intro c hc
  obtain ⟨u, hu, k, hk, rfl⟩ := exists_of_mem_comments hc
  rcases h.apart hu ht with rfl | h | h
  · simp [isComment, hk] at hn
  · exact .inl h
  · exact .inr h

end Token

namespace Grammar

/-- The constructs of a whole tree: those of the grammar, and comments. -/
def treeConstructs : List Construct :=
  ⟨.lineComment, some .nothing⟩ :: ⟨.blockComment, some .nothing⟩ :: constructs

end Grammar

namespace Tree

open Grammar

variable {source : String} {t u : Tree}

theorem IsComment.isConstruct {c : Tree} (h : IsComment c) : c.IsConstruct treeConstructs := by
  refine ⟨.nothing, ?_, ?_⟩
  · have hk := h.kind
    simp only [Kind.isComment, Bool.or_eq_true, beq_iff_eq] at hk
    rcases hk with hk | hk <;> simp [treeConstructs, hk]
  · rw [parts, h.children]
    exact .nothing

/-! ## The tree of a text -/

/-- How a tree comes from its text: comments are put into nodes that the grammar reads. -/
theorem exists_of_ofText? (h : ofText? source = some t) :
    ∃ nodes comments, t = program source.utf8ByteSize (weave comments nodes) ∧
      (∃ sh, Grammar.program.shape = some sh ∧ sh.Matches (nodes.map part)) ∧
      (∀ n ∈ nodes, n.Built constructs ∧ n.Solid comments) ∧ (∀ c ∈ comments, IsComment c) ∧
      OrderedBetween 0 source.utf8ByteSize nodes ∧
      OrderedBetween 0 source.utf8ByteSize comments := by
  simp only [ofText?, Option.map_eq_some_iff] at h
  obtain ⟨nodes, hr, rfl⟩ := h
  have ho := Token.inOrder_ofText source
  have hc : ∀ c ∈ (Token.ofText source).filterMap Token.commentNode?, IsComment c := by
    intro c hc
    obtain ⟨u, hu, k, hk, rfl⟩ := Token.exists_of_mem_comments hc
    exact ⟨Token.isComment_of_mem hu hk, rfl, rfl, (ho.of_mem hu).2.1⟩
  obtain ⟨hn, hs⟩ := line_of_read? hr (fun c h => (hc c h).filled)
    ⟨ho.filter _, fun t ht => ho.clear (List.mem_filter.1 ht).1 (by
      simpa using (List.mem_filter.1 ht).2)⟩
  obtain ⟨hsh, hb⟩ := built_of_read? hr
  exact ⟨nodes, _, rfl, hsh, fun n h => ⟨hb n h, hs n h⟩, hc, hn, ho.comments⟩

theorem ordered_of_ofText? (h : ofText? source = some t) : t.Ordered := by
  obtain ⟨nodes, comments, rfl, _, hn, _, hno, hco⟩ := exists_of_ofText? h
  have hw := orderedBetween_weave nodes hco hno (fun n h => (hn n h).2) (List.Subset.refl _)
  rw [Ordered, program]
  show OrderedBetween (((weave comments nodes).head?.map start).getD _) _ (weave comments nodes)
  cases hws : weave comments nodes with
  | nil => exact .nil (Nat.le_refl _)
  | cons c cs =>
    rw [hws] at hw
    obtain ⟨_, h₂, h₃⟩ := orderedBetween_cons_iff.1 hw
    exact orderedBetween_cons_iff.2 ⟨Nat.le_refl _, h₂, h₃⟩

theorem kind_of_ofText? (h : ofText? source = some t) : t.kind = .program := by
  obtain ⟨nodes, comments, rfl, _⟩ := exists_of_ofText? h
  rfl

/-- A node that is no whole text is below the root. -/
theorem below_root_of_ofText? (h : ofText? source = some t) (hu : u ∈ t.preorder)
    (hk : u.kind ≠ .program) : ∃ c ∈ t.children, u ∈ c.preorder := by
  rcases mem_preorder_iff.1 hu with rfl | hc
  · exact absurd (kind_of_ofText? h) hk
  · exact hc

/-- A node below the root is a comment, or one that the grammar has read, with comments inside. -/
theorem woven_of_ofText? (h : ofText? source = some t) {c : Tree} (hc : c ∈ t.children)
    (hu : u ∈ c.preorder) :
    ∃ comments, (∀ c ∈ comments, IsComment c) ∧ Woven comments (fun v => v.Built constructs) u := by
  obtain ⟨nodes, comments, rfl, _, hn, hcs, hno, hco⟩ := exists_of_ofText? h
  refine ⟨comments, hcs, (mem_preorder_weave nodes hcs hco hno (fun n h => (hn n h).2)
    (List.Subset.refl _) hc hu).mono ?_⟩
  intro v hx w hw
  obtain ⟨n, hnm, hv⟩ := hx
  exact (hn n hnm).1 w (mem_preorder_trans hv hw)

theorem filled_of_ofText? (h : ofText? source = some t) {c : Tree} (hc : c ∈ t.children)
    (hu : u ∈ c.preorder) : u.start < u.stop := by
  obtain ⟨comments, hcs, hw⟩ := woven_of_ofText? h hc hu
  rcases hw with hm | ⟨v, _, hs, ds, _, _, rfl⟩
  · exact (hcs u hm).filled
  · rw [start_withComments, stop_withComments]
    exact hs.filled

theorem IsConstruct.mono {known more : List Construct} (h : t.IsConstruct known)
    (hk : known ⊆ more) : t.IsConstruct more := by
  obtain ⟨sh, hm, hs⟩ := h
  exact ⟨sh, hk hm, hs⟩

theorem Built.not_comment (h : t.Built constructs) : t.kind.isComment = false := by
  obtain ⟨sh, hk, _⟩ := h t t.self_mem_preorder
  exact describes.comment _ hk

theorem Built.parts (h : t.Built constructs) : t.parts = t.children.map part := by
  rw [Tree.parts, List.filter_eq_self.2]
  intro c hc
  rw [((built_iff.1 h).2 c hc).not_comment]
  rfl

/-- A comment has no role and no children. -/
theorem isComment_of_ofText? (h : ofText? source = some t) {c : Tree} (hc : c ∈ t.children)
    (hu : u ∈ c.preorder) (hk : u.kind.isComment = true) : IsComment u := by
  obtain ⟨comments, hcs, hw⟩ := woven_of_ofText? h hc hu
  rcases hw with hm | ⟨v, hb, _, _, _, _, rfl⟩
  · exact hcs u hm
  · rw [kind_withComments, hb.not_comment] at hk
    simp at hk

/-- What is below any node is below a child of the root. -/
theorem exists_child_of_mem_children (hu : u ∈ t.preorder) {c : Tree} (hc : c ∈ u.children) :
    ∃ d ∈ t.children, c ∈ d.preorder := by
  rcases mem_preorder_iff.1 hu with rfl | ⟨d, hd, hud⟩
  · exact ⟨c, hc, c.self_mem_preorder⟩
  · exact ⟨d, hd, mem_preorder_trans hud (mem_preorder_of_mem_children hc)⟩

/-- What has a role is no comment. -/
theorem not_comment_of_role (h : ofText? source = some t) (hu : u ∈ t.preorder) {c : Tree}
    (hc : c ∈ u.children) {f : Field} (hf : c.field = some f) : c.kind.isComment = false := by
  rw [← Bool.not_eq_true]
  intro hk
  obtain ⟨d, hd, hcd⟩ := exists_child_of_mem_children hu hc
  rw [(isComment_of_ofText? h hd hcd hk).field] at hf
  simp at hf

/-- A node without parts has no children, not even comments. -/
theorem children_of_ofText? (h : ofText? source = some t) {c : Tree} (hc : c ∈ t.children)
    (hu : u ∈ c.preorder) (hp : u.parts = []) : u.children = [] := by
  obtain ⟨comments, hcs, hw⟩ := woven_of_ofText? h hc hu
  rcases hw with hm | ⟨v, hb, hs, ds, hd, ho, rfl⟩
  · exact (hcs u hm).children
  · rw [parts_withComments v fun c hc => hcs c (hd hc), hb.parts, List.map_eq_nil_iff] at hp
    exact children_withComments hs hcs hd ho hp

theorem isConstruct_of_ofText? (h : ofText? source = some t) (hu : u ∈ t.preorder) :
    u.IsConstruct treeConstructs := by
  rcases mem_preorder_iff.1 hu with rfl | ⟨c, hc, hu⟩
  · obtain ⟨nodes, comments, rfl, ⟨sh, hsh, hm⟩, hn, hcs, _⟩ := exists_of_ofText? h
    refine ⟨sh, ?_, ?_⟩
    · rw [← hsh]
      simp [treeConstructs, constructs, program]
    · have hf : nodes.filter (fun c => !c.kind.isComment) = nodes := by
        refine List.filter_eq_self.2 fun n hnm => ?_
        rw [(hn n hnm).1.not_comment]
        rfl
      rw [parts, program, children_node, parts_weave nodes hcs, hf]
      exact hm
  · obtain ⟨comments, hcs, hw⟩ := woven_of_ofText? h hc hu
    rcases hw with hm | ⟨v, hb, _, ds, hd, _, rfl⟩
    · exact (hcs u hm).isConstruct
    · have hv : v.IsConstruct treeConstructs :=
        (hb v v.self_mem_preorder).mono fun c hc =>
          List.mem_cons_of_mem _ (List.mem_cons_of_mem _ hc)
      rw [IsConstruct, kind_withComments, parts_withComments v fun c hc => hcs c (hd hc)]
      exact hv

/-! ## Tests on the constructs -/

theorem part_mem_parts {c : Tree} (hc : c ∈ t.children) (hn : c.kind.isComment = false) :
    c.part ∈ t.parts := by
  refine List.mem_map.2 ⟨c, List.mem_filter.2 ⟨hc, ?_⟩, rfl⟩
  rw [hn]
  rfl

/-- What all constructs of a kind must have, a node of the kind has. -/
theorem IsConstruct.exists_child (h : t.IsConstruct treeConstructs) {p : Part → Bool} {k : Kind}
    (hp : (treeConstructs.all fun c => c.kind != k || c.shape.all (Shape.must p)) = true)
    (hk : t.kind = k) : ∃ c ∈ t.children, p c.part = true := by
  obtain ⟨sh, hc, hm⟩ := h
  have hs := List.all_eq_true.1 hp _ hc
  simp only [hk, bne_self_eq_false, Bool.false_or, Option.all_some] at hs
  obtain ⟨x, hx, hpx⟩ := hm.must hs
  obtain ⟨c, hc, rfl⟩ := List.mem_map.1 hx
  exact ⟨c, (List.mem_filter.1 hc).1, hpx⟩

/-- Where the constructs of a kind that may have a `q` must have a `p`, a node of the kind with a
child `q` has a child `p`. -/
theorem IsConstruct.exists_child_of_child (h : t.IsConstruct treeConstructs) {p q : Part → Bool}
    {k : Kind}
    (hp : (treeConstructs.all fun c =>
      c.kind != k || c.shape.all fun sh => sh.must p || !sh.may q) = true)
    (hk : t.kind = k) {d : Tree} (hd : d ∈ t.children) (hn : d.kind.isComment = false)
    (hq : q d.part = true) : ∃ c ∈ t.children, p c.part = true := by
  obtain ⟨sh, hc, hm⟩ := h
  have hs := List.all_eq_true.1 hp _ hc
  simp only [hk, bne_self_eq_false, Bool.false_or, Option.all_some,
    hm.may (part_mem_parts hd hn) hq, Bool.not_true, Bool.or_false] at hs
  obtain ⟨x, hx, hpx⟩ := hm.must hs
  obtain ⟨c, hc, rfl⟩ := List.mem_map.1 hx
  exact ⟨c, (List.mem_filter.1 hc).1, hpx⟩

/-- What the parts of all constructs pass, the children of a node pass, comments apart. -/
theorem IsConstruct.child_passes (h : t.IsConstruct treeConstructs) {p : Kind → Part → Bool}
    (hp : (treeConstructs.all fun c => !c.shape.any (Shape.may fun x => !p c.kind x)) = true)
    {c : Tree} (hc : c ∈ t.children) (hn : c.kind.isComment = false) :
    p t.kind c.part = true := by
  obtain ⟨sh, hk, hm⟩ := h
  have hs := List.all_eq_true.1 hp _ hk
  by_cases hpc : p t.kind c.part = true
  · exact hpc
  · rw [Option.any_some, hm.may (part_mem_parts hc hn) (by simpa using hpc)] at hs
    simp at hs

/-- Where no construct has a `q` before a `p`, the children that are `p` end before those that are
`q` begin. -/
theorem IsConstruct.stop_le_start (h : t.IsConstruct treeConstructs) (ho : t.Ordered)
    {p q : Part → Bool}
    (hpq : (treeConstructs.all fun c => c.shape.all (Shape.orderly p q)) = true) {c d : Tree}
    (hc : c ∈ t.children) (hd : d ∈ t.children) (hcn : c.kind.isComment = false)
    (hdn : d.kind.isComment = false) (hp : p c.part = true) (hq : q d.part = true)
    (hne : p d.part = false) : c.stop ≤ d.start := by
  obtain ⟨sh, hk, hm⟩ := h
  have hs := List.all_eq_true.1 hpq _ hk
  rw [Option.all_some] at hs
  have hparts := hm.orderly hs
  rw [parts, List.pairwise_map] at hparts
  have hboth : (t.children.filter fun c => !c.kind.isComment).Pairwise fun c d =>
      c.stop ≤ d.start ∧ ¬(q c.part = true ∧ p d.part = true) :=
    ((OrderedBetween.pairwise ho).sublist List.filter_sublist).and hparts
  have hc' : c ∈ t.children.filter fun c => !c.kind.isComment :=
    List.mem_filter.2 ⟨hc, by simp [hcn]⟩
  have hd' : d ∈ t.children.filter fun c => !c.kind.isComment :=
    List.mem_filter.2 ⟨hd, by simp [hdn]⟩
  rcases pairwise_cases hboth hc' hd' with rfl | h | h
  · rw [hp] at hne
    simp at hne
  · exact h.1
  · exact absurd ⟨hq, hp⟩ h.2

end Tree

end InjectionPoints.Java
