/-
The code of a tree is the tree without its comments. It is what the grammar reads from the tokens
that are no comments (`codeAll_of_ofText?`), so each of its nodes begins and ends with such a token,
and its names are single ones (`placed_of_read?`).
-/
import InjectionPoints.Proofs.SourceTree
import InjectionPoints.Proofs.Layout.Grammar

namespace InjectionPoints.Java

open Token

namespace Tree

mutual

/-- The tree without the comments in it. -/
def code : Tree → Tree
  | node k f s cs => node k f s (codeAll cs)

/-- The trees that are no comments, without the comments in them. -/
def codeAll : List Tree → List Tree
  | [] => []
  | t :: ts => if t.kind.isComment then codeAll ts else code t :: codeAll ts

end

/-- The trees of a list that are no comments. -/
def proper (ts : List Tree) : List Tree := ts.filter fun c => !c.kind.isComment

theorem codeAll_eq (ts : List Tree) : codeAll ts = (proper ts).map code := by
  induction ts with
  | nil => rw [codeAll, proper, List.filter_nil, List.map_nil]
  | cons t ts ih =>
    rw [codeAll, proper, List.filter_cons, ih, proper]
    cases t.kind.isComment <;> rfl

@[simp] theorem kind_code (t : Tree) : t.code.kind = t.kind := by
  cases t
  rw [code]
  rfl

@[simp] theorem field_code (t : Tree) : t.code.field = t.field := by
  cases t
  rw [code]
  rfl

@[simp] theorem span_code (t : Tree) : t.code.span = t.span := by
  cases t
  rw [code]
  rfl

theorem children_code (t : Tree) : t.code.children = (proper t.children).map code := by
  cases t
  rw [code, codeAll_eq]
  rfl

/-! ## Comments come and go -/

theorem codeAll_append (ts us : List Tree) : codeAll (ts ++ us) = codeAll ts ++ codeAll us := by
  rw [codeAll_eq, codeAll_eq, codeAll_eq, proper, List.filter_append, List.map_append]
  rfl

theorem codeAll_comments {cs : List Tree} (h : ∀ c ∈ cs, c.kind.isComment = true) :
    codeAll cs = [] := by
  rw [codeAll_eq, List.map_eq_nil_iff]
  exact List.filter_eq_nil_iff.2 fun c hc => by simp [h c hc]

mutual

theorem code_withComments (t : Tree) {cs : List Tree} (h : ∀ c ∈ cs, c.kind.isComment = true) :
    (withComments cs t).code = t.code := by
  match t with
  | .node k f s ts =>
    rw [withComments]
    split
    · rfl
    · rw [code, code, codeAll_weave ts h]

theorem codeAll_weave (ts : List Tree) {cs : List Tree} (h : ∀ c ∈ cs, c.kind.isComment = true) :
    codeAll (weave cs ts) = codeAll ts := by
  match ts with
  | [] => rw [weave, codeAll_comments h, codeAll]
  | t :: ts =>
    rw [weave]
    simp only [drop_takeWhile]
    have htake {p : Tree → Bool} {ds : List Tree} (hd : ∀ c ∈ ds, c.kind.isComment = true) :
        ∀ c ∈ ds.takeWhile p, c.kind.isComment = true := fun c hc =>
      hd c (List.takeWhile_subset _ hc)
    have hdrop {p : Tree → Bool} {ds : List Tree} (hd : ∀ c ∈ ds, c.kind.isComment = true) :
        ∀ c ∈ ds.dropWhile p, c.kind.isComment = true := fun c hc =>
      hd c (List.dropWhile_subset _ hc)
    rw [codeAll_append, codeAll_comments (htake h), List.nil_append, codeAll, codeAll,
      kind_withComments, code_withComments t (htake (hdrop h)), codeAll_weave ts (hdrop (hdrop h))]

end

mutual

theorem code_eq_self (t : Tree) (h : ∀ u ∈ t.preorder, u.kind.isComment = false) : t.code = t := by
  match t with
  | .node k f s cs =>
    rw [code, codeAll_eq_self cs fun c hc u hu => h u (mem_preorder_iff.2 (.inr ⟨c, hc, hu⟩))]

theorem codeAll_eq_self (ts : List Tree)
    (h : ∀ t ∈ ts, ∀ u ∈ t.preorder, u.kind.isComment = false) : codeAll ts = ts := by
  match ts with
  | [] => rw [codeAll]
  | t :: ts =>
    have ht := h t List.mem_cons_self
    rw [codeAll, ht t t.self_mem_preorder, code_eq_self t ht,
      codeAll_eq_self ts fun u hu => h u (List.mem_cons_of_mem t hu)]
    simp

end

/-! ## Nodes and tokens -/

/-- The kinds of names of one word. -/
def wordKinds : List Kind := [.identifier, .typeIdentifier, .underscorePattern]

/-- The node begins with a token and ends with one; a name of one word is a plain token. -/
structure OnTokens (tokens : List Token) (t : Tree) : Prop where
  start : ∃ x ∈ tokens, x.span.start = t.start
  stop : ∃ x ∈ tokens, x.span.stop = t.stop
  word : t.kind ∈ wordKinds → ∃ x ∈ tokens, x.isPlain = true ∧ x.span = t.span

/-- All nodes of the tree are on tokens. -/
def Placed (tokens : List Token) (t : Tree) : Prop := ∀ u ∈ t.preorder, u.OnTokens tokens

variable {tokens : List Token} {t : Tree}

theorem placed_iff :
    t.Placed tokens ↔ t.OnTokens tokens ∧ ∀ c ∈ t.children, c.Placed tokens :=
  forall_mem_preorder_iff

theorem Placed.withField (h : t.Placed tokens) (f : Option Field) :
    (t.withField f).Placed tokens := by
  obtain ⟨⟨hstart, hstop, hword⟩, hcs⟩ := placed_iff.1 h
  refine placed_iff.2 ⟨⟨by simpa using hstart, by simpa using hstop, by simpa using hword⟩, ?_⟩
  simpa using hcs

theorem Placed.leaf {x : Token} (hx : x ∈ tokens) {k : Kind}
    (hk : k ∈ wordKinds → x.isPlain = true) : (Tree.leaf k x.span).Placed tokens :=
  placed_iff.2 ⟨⟨⟨x, hx, rfl⟩, ⟨x, hx, rfl⟩, fun hw => ⟨x, hx, hk hw, rfl⟩⟩, by simp [Tree.leaf]⟩

theorem Placed.branch {k : Kind} {cs : List Tree} (hk : k ∉ wordKinds) (hne : cs ≠ [])
    (h : ∀ c ∈ cs, c.Placed tokens) : (Tree.branch k cs).Placed tokens := by
  refine placed_iff.2 ⟨⟨?_, ?_, fun hw => absurd hw hk⟩, h⟩
  · have hfirst := (placed_iff.1 (h _ (List.head_mem hne))).1.start
    rwa [Tree.branch, Tree.start, span_node, List.head?_eq_some_head hne]
  · have hlast := (placed_iff.1 (h _ (List.getLast_mem hne))).1.stop
    rwa [Tree.branch, Tree.stop, span_node, List.getLast?_eq_some_getLast hne]

end Tree

namespace Grammar

namespace Rule

/-- Whether names of one word are read as single tokens. -/
def worded : Rule → Bool
  | joined parts _ kind => parts.length == 1 || !Tree.wordKinds.contains kind
  | piece kinds => kinds.all fun kind => !Tree.wordKinds.contains kind
  | seq a b => worded a && worded b
  | alt a b => worded a && worded b
  | many a => worded a
  | node kind a => !Tree.wordKinds.contains kind && worded a
  | onto _ kind a => !Tree.wordKinds.contains kind && worded a
  | field _ a => worded a
  | _ => true

variable {grammar : Name → Rule} {rule : Rule} {s s' : List Tree} {ts ts' tokens : List Token}

theorem takeJoined_placed {parts : List String} {span : Span} {kind : Kind}
    (h : takeJoined parts none ts = some (some span, ts')) (hts : ts ⊆ tokens)
    (hk : parts.length = 1 ∨ kind ∉ Tree.wordKinds) : (Tree.leaf kind span).Placed tokens := by
  cases parts with
  | nil => simp [takeJoined] at h
  | cons part parts =>
    cases ts with
    | nil => simp [takeJoined] at h
    | cons t ts =>
      have ht : t ∈ tokens := hts List.mem_cons_self
      simp only [takeJoined] at h
      split at h
      · rename_i hplain
        simp only [Bool.and_eq_true] at hplain
        rw [Option.map_eq_some_iff] at h
        obtain ⟨⟨hull, rest⟩, hr, he⟩ := h
        simp only [Prod.mk.injEq, Option.some.injEq] at he
        obtain ⟨rfl, rfl⟩ := he
        cases hull with
        | none => exact .leaf ht fun _ => hplain.1.1
        | some hull =>
          obtain ⟨pre, last, rfl, hstop, hlast⟩ := takeJoined_last hr
          have hword : kind ∉ Tree.wordKinds := by
            refine hk.resolve_left fun hlen => ?_
            have hnil : parts = [] := by simpa using hlen
            simp [hnil] at hlast
          have hl : last ∈ tokens := hts (by simp)
          exact Tree.placed_iff.2
            ⟨⟨⟨t, ht, rfl⟩, ⟨last, hl, hstop⟩, fun hw => absurd hw hword⟩, by simp [Tree.leaf]⟩
      · simp at h

/-- Nodes that are read from tokens are on these tokens. -/
theorem Reads.placed (hp : ∀ name, (grammar name).pushes = true)
    (hw : ∀ name, ((grammar name).grounded && (grammar name).worded) = true)
    (h : Reads grammar rule s ts s' ts') (hr : (rule.grounded && rule.worded) = true)
    (hts : ts ⊆ tokens) (hs : ∀ t ∈ s, t.Placed tokens) : ∀ t ∈ s', t.Placed tokens := by
  induction h with
  | empty | silent | avoid | given _ | done => exact hs
  | joined hj =>
    refine List.forall_mem_cons.2 ⟨takeJoined_placed hj hts ?_, hs⟩
    simpa [worded, grounded] using hr
  | word hk =>
    refine List.forall_mem_cons.2 ⟨.leaf (hts List.mem_cons_self) fun _ => ?_, hs⟩
    rw [Token.isPlain, hk]
  | piece hk =>
    refine List.forall_mem_cons.2 ⟨.leaf (hts List.mem_cons_self) fun hw => ?_, hs⟩
    simp only [grounded, worded, Bool.true_and, List.all_eq_true] at hr
    have := hr _ hk
    simp [hw] at this
  | seq ha _ iha ihb =>
    simp only [grounded, worded, Bool.and_eq_true] at hr iha ihb
    exact ihb ⟨hr.1.2, hr.2.2⟩ (List.Subset.trans ha.suffix.subset hts)
      (iha ⟨hr.1.1, hr.2.1⟩ hts hs)
  | left _ ih =>
    simp only [grounded, worded, Bool.and_eq_true] at hr ih
    exact ih ⟨hr.1.1, hr.2.1⟩ hts hs
  | right _ ih =>
    simp only [grounded, worded, Bool.and_eq_true] at hr ih
    exact ih ⟨hr.1.2, hr.2.2⟩ hts hs
  | again ha _ iha ihm =>
    exact ihm hr (List.Subset.trans ha.suffix.subset hts) (iha hr hts hs)
  | @node kind a _ children _ _ ha ih =>
    simp only [grounded, worded, Bool.and_eq_true, Bool.not_eq_true'] at hr ih
    obtain ⟨⟨hpush, hg⟩, hk, hwd⟩ := hr
    have hc := ih ⟨hg, hwd⟩ hts (by simp)
    have hne : children ≠ [] := List.ne_nil_of_length_pos (ha.length_lt hp hpush)
    refine List.forall_mem_cons.2 ⟨.branch (by simpa using hk) (by simpa using hne) ?_, hs⟩
    exact fun c hcm => hc c (List.mem_reverse.1 hcm)
  | @onto role kind a first older children _ _ ha ih =>
    simp only [grounded, worded, Bool.and_eq_true, Bool.not_eq_true'] at hr ih
    obtain ⟨hg, hk, hwd⟩ := hr
    obtain ⟨hfirst, holder⟩ := List.forall_mem_cons.1 hs
    have hc := ih ⟨hg, hwd⟩ hts (by simpa using hfirst.withField role)
    have hne : children ≠ [] := List.ne_nil_of_length_pos ha.length_le
    refine List.forall_mem_cons.2 ⟨.branch (by simpa using hk) (by simpa using hne) ?_, holder⟩
    exact fun c hcm => hc c (List.mem_reverse.1 hcm)
  | @field role _ _ _ _ _ _ ih =>
    have hc := ih hr hts (by simp)
    refine List.forall_mem_append.2 ⟨fun t ht => ?_, hs⟩
    obtain ⟨c, hcm, rfl⟩ := List.mem_map.1 ht
    exact (hc c hcm).withField (some role)
  | ref _ ih => exact ih (hw _) hts hs

end Rule

theorem names_worded :
    (names.all fun name => (flat name).grounded && (flat name).worded) = true := by
  decide +kernel

theorem worded (name : Name) : ((flat name).grounded && (flat name).worded) = true := by
  obtain ⟨n, hn, hf, _⟩ := exists_mem_names name
  rw [← hf]
  exact List.all_eq_true.1 names_worded n hn

theorem placed_of_read? {tokens : List Token} {nodes : List Tree}
    (h : read? tokens = some nodes) : ∀ t ∈ nodes, t.Placed tokens := by
  have hp := (reads_of_read? h).placed (fun n => (grounded n).1) worded rfl
    (List.Subset.refl tokens) (by simp)
  exact fun t ht => hp t (List.mem_reverse.2 ht)

end Grammar

/-! ## The code of a text -/

namespace Tree

variable {source : String} {t : Tree}

/-- The code below the root is what the grammar reads from the tokens that are no comments. -/
theorem codeAll_of_ofText? (h : ofText? source = some t) :
    Grammar.read? (codeOf source) = some (codeAll t.children) := by
  simp only [ofText?, Option.map_eq_some_iff] at h
  obtain ⟨nodes, hr, rfl⟩ := h
  have hc : ∀ c ∈ (ofText source).filterMap commentNode?, c.kind.isComment = true := by
    intro c hc
    obtain ⟨u, hu, k, hk, rfl⟩ := exists_of_mem_comments hc
    exact isComment_of_mem hu hk
  have hn : ∀ n ∈ nodes, ∀ u ∈ n.preorder, u.kind.isComment = false := by
    intro n hn u hu
    exact Built.not_comment fun v hv =>
      (Grammar.built_of_read? hr).2 n hn v (mem_preorder_trans hu hv)
  rw [program, children_node, codeAll_weave nodes hc, codeAll_eq_self nodes hn]
  exact hr

/-- A node that is no comment is a node of the code, without the comments in it. -/
theorem code_mem_preorder {t u : Tree} (hu : u ∈ t.preorder) (hk : u.kind.isComment = false)
    (hc : ∀ v ∈ t.preorder, v.kind.isComment = true → v.children = []) :
    u.code ∈ t.code.preorder := by
  rcases mem_preorder_iff.1 hu with rfl | ⟨c, hcm, hu⟩
  · exact self_mem_preorder _
  · have hck : c.kind.isComment = false := by
      rw [← Bool.not_eq_true]
      intro hck
      rcases mem_preorder_iff.1 hu with rfl | ⟨d, hd, _⟩
      · simp [hk] at hck
      · simp [hc c (mem_preorder_of_mem_children hcm) hck] at hd
    refine mem_preorder_iff.2 (.inr ⟨c.code, ?_, ?_⟩)
    · rw [children_code]
      exact List.mem_map_of_mem (List.mem_filter.2 ⟨hcm, by simp [hck]⟩)
    · exact code_mem_preorder hu hk fun v hv =>
        hc v (mem_preorder_trans (mem_preorder_of_mem_children hcm) hv)
termination_by t
decreasing_by
  have h := List.sizeOf_lt_of_mem hcm
  cases t
  simp only [children_node, node.sizeOf_spec] at h ⊢
  omega

/-- Below the root every node that is no comment is a node of the code. -/
theorem exists_mem_code (h : ofText? source = some t) {u : Tree} (hu : u ∈ t.preorder)
    (hn : u.kind.isComment = false) (hp : u.kind ≠ .program) :
    ∃ c ∈ codeAll t.children, u.code ∈ c.preorder := by
  have hcode : u.code ∈ t.code.preorder := by
    refine code_mem_preorder hu hn fun v hv hvc => ?_
    obtain ⟨d, hd, hvd⟩ := below_root_of_ofText? h hv fun hp => by simp [hp, Kind.isComment] at hvc
    exact (isComment_of_ofText? h hd hvd hvc).children
  rw [codeAll_eq, ← children_code]
  rcases mem_preorder_iff.1 hcode with he | hd
  · have hk := kind_of_ofText? h
    rw [← kind_code, ← he, kind_code] at hk
    exact absurd hk hp
  · exact hd

/-- A name of one word is a plain token. -/
theorem exists_token_of_word (h : ofText? source = some t) {u : Tree} (hu : u ∈ t.preorder)
    (hk : u.kind ∈ wordKinds) :
    ∃ x ∈ codeOf source, x.isPlain = true ∧ x.text = u.text source := by
  have hword : ∀ k ∈ wordKinds, k.isComment = false ∧ k ≠ .program := by decide
  obtain ⟨c, hc, huc⟩ := exists_mem_code h hu (hword _ hk).1 (hword _ hk).2
  obtain ⟨x, hx, hp, hs⟩ :=
    (Grammar.placed_of_read? (codeAll_of_ofText? h) c hc _ huc).word (by rwa [kind_code])
  refine ⟨x, hx, hp, ?_⟩
  rw [← text_of_mem (mem_ofText_of_mem_codeOf hx), hs, span_code, text]

theorem ofText?_eq_none_iff : ofText? source = none ↔ Grammar.read? (codeOf source) = none := by
  simp [ofText?, codeOf]

end Tree

end InjectionPoints.Java
