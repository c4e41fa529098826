/-
Two layouts of one code. The trees of two texts with the same code correspond node by node, comments
apart (`Relayout.Pair`). The children of corresponding nodes correspond, in the same roles; names
have the same text (`Pair.text_eq`), and so has every node without its white space if no comment
stands inside (`Pair.compactText_eq`).
-/
import Mathlib.Data.List.Forall2
import Mathlib.Data.List.Find
import InjectionPoints.ClassIndex.Reading
import InjectionPoints.Proofs.Layout.Code

namespace InjectionPoints.Java

open Token Text

/-! ## Lists that correspond -/

section Lists

variable {α β γ : Type} {R : α → β → Prop} {xs : List α} {ys : List β}

theorem forall₂_with_mem (h : List.Forall₂ R xs ys) :
    List.Forall₂ (fun x y => R x y ∧ x ∈ xs ∧ y ∈ ys) xs ys := by
  rw [List.forall₂_iff_zip] at h ⊢
  exact ⟨h.1, fun hz => ⟨h.2 hz, List.of_mem_zip hz⟩⟩

theorem find?_rel (h : List.Forall₂ R xs ys) {p : α → Bool} {q : β → Bool}
    (hpq : ∀ x y, R x y → q y = p x) : Option.Rel R (xs.find? p) (ys.find? q) := by
  induction h with
  | nil => exact .none
  | @cons x y xs ys hxy _ ih =>
    rw [List.find?_cons, List.find?_cons, hpq x y hxy]
    cases p x with
    | true => exact .some hxy
    | false => exact ih

theorem filter_rel (h : List.Forall₂ R xs ys) {p : α → Bool} {q : β → Bool}
    (hpq : ∀ x y, R x y → q y = p x) : List.Forall₂ R (xs.filter p) (ys.filter q) :=
  List.rel_filter (fun x y hxy => iff_of_eq (congrArg (· = true) (hpq x y hxy).symm)) h

theorem filterMap_eq {f : α → Option γ} {g : β → Option γ} (h : List.Forall₂ R xs ys)
    (hfg : ∀ x y, R x y → g y = f x) : ys.filterMap g = xs.filterMap f := by
  induction h with
  | nil => rfl
  | cons hxy _ ih => rw [List.filterMap_cons, List.filterMap_cons, hfg _ _ hxy, ih]

theorem head?_rel (h : List.Forall₂ R xs ys) : Option.Rel R xs.head? ys.head? := by
  cases h with
  | nil => exact .none
  | cons hxy _ => exact .some hxy

theorem flatMap_eq {f : α → List γ} {g : β → List γ} (h : List.Forall₂ R xs ys)
    (hfg : ∀ x y, R x y → g y = f x) : ys.flatMap g = xs.flatMap f := by
  induction h with
  | nil => rfl
  | cons hxy _ ih => rw [List.flatMap_cons, List.flatMap_cons, hfg _ _ hxy, ih]

variable {x x' : Option α} {y y' : Option β}

theorem isSome_eq_of_rel (h : Option.Rel R x y) : y.isSome = x.isSome := by
  cases h <;> rfl

theorem elim_eq (h : Option.Rel R x y) {d : γ} {f : α → γ} {g : β → γ}
    (hfg : ∀ a ∈ x, ∀ b, R a b → g b = f a) : y.elim d g = x.elim d f := by
  cases h with
  | none => rfl
  | some h => exact hfg _ rfl _ h

theorem bind_eq (h : Option.Rel R x y) {f : α → Option γ} {g : β → Option γ}
    (hfg : ∀ a ∈ x, ∀ b, R a b → g b = f a) : y.bind g = x.bind f := by
  cases h with
  | none => rfl
  | some h => exact hfg _ rfl _ h

theorem orElse_rel (h : Option.Rel R x y) (h' : Option.Rel R x' y') :
    Option.Rel R (x <|> x') (y <|> y') := by
  cases h with
  | none => exact h'
  | some h => exact .some h

theorem mem_of_mem_orElse {c : α} (h : c ∈ (x <|> x')) : c ∈ x ∨ c ∈ x' := by
  cases x with
  | none => exact .inr h
  | some d => exact .inl h

end Lists

namespace Tree

variable {ts : List Tree} {p : Tree → Bool}

/-- What a test finds that no comment passes. -/
theorem find?_proper (hp : ∀ c ∈ ts, p c = true → c.kind.isComment = false) :
    (proper ts).find? p = ts.find? p := by
  rw [proper, List.find?_filter]
  refine List.find?_congr fun c hc => ?_
  cases hpc : p c with
  | true => simp [hp c hc hpc]
  | false => simp

/-- What passes a test that no comment passes. -/
theorem filter_proper (hp : ∀ c ∈ ts, p c = true → c.kind.isComment = false) :
    (proper ts).filter p = ts.filter p := by
  rw [proper, List.filter_filter]
  refine List.filter_congr fun c hc => ?_
  cases hpc : p c with
  | true => simp [hp c hc hpc]
  | false => rfl

/-- What a test finds is found among what is no comment, if it is none. -/
theorem find?_proper_of_find? (h : ∀ c ∈ ts.find? p, c.kind.isComment = false) :
    (proper ts).find? p = ts.find? p := by
  induction ts with
  | nil => rfl
  | cons t ts ih =>
    rw [List.find?_cons] at h ⊢
    rw [proper, List.filter_cons]
    cases hpt : p t with
    | true =>
      rw [hpt] at h
      simp [h t rfl, hpt]
    | false =>
      rw [hpt] at h
      split
      · rw [List.find?_cons, hpt]
        exact ih h
      · exact ih h

/-- The first of the trees, if it is no comment. -/
theorem head?_proper (h : ∀ c ∈ ts.head?, c.kind.isComment = false) :
    (proper ts).head? = ts.head? := by
  have hfind (cs : List Tree) : cs.head? = cs.find? fun _ => true := by cases cs <;> rfl
  rw [hfind] at h ⊢
  rw [hfind, find?_proper_of_find? h]

theorem filterMap_proper {α : Type} {f : Tree → Option α}
    (hf : ∀ c ∈ ts, c.kind.isComment = true → f c = none) :
    (proper ts).filterMap f = ts.filterMap f := by
  rw [proper, List.filterMap_filter]
  refine List.filterMap_congr fun c hc => ?_
  cases hk : c.kind.isComment with
  | true => simp [hf c hc hk]
  | false => rfl

theorem flatMap_proper {α : Type} {f : Tree → List α}
    (hf : ∀ c ∈ ts, c.kind.isComment = true → f c = []) :
    (proper ts).flatMap f = ts.flatMap f := by
  induction ts with
  | nil => rfl
  | cons t ts ih =>
    have hrest := ih fun c hc => hf c (List.mem_cons_of_mem t hc)
    rw [proper, List.filter_cons, List.flatMap_cons]
    cases hk : t.kind.isComment with
    | true =>
      rw [hf t List.mem_cons_self hk]
      exact hrest
    | false =>
      rw [← hrest]
      rfl

theorem foldl_proper {α : Type} {f : α → Tree → α}
    (hf : ∀ x c, c.kind.isComment = true → f x c = x) (x : α) :
    (proper ts).foldl f x = ts.foldl f x := by
  induction ts generalizing x with
  | nil => rfl
  | cons t ts ih =>
    rw [proper, List.filter_cons, List.foldl_cons]
    cases hk : t.kind.isComment with
    | true =>
      rw [hf x t hk]
      exact ih x
    | false => exact ih (f x t)

theorem kind_of_mem_named? {t c : Tree} {k : Kind} (h : c ∈ t.named? k) : c.kind = k := by
  simpa using List.find?_some h

/-- Whether the text of the node is, white space apart, that of its tokens: no comment stands
inside, and no layout that is more than white space. -/
def isPlain (source : String) (t : Tree) : Bool :=
  !t.kind.isComment && uncommented source t.span &&
    (t.text source).toList.all fun c => !Scan.isLayout c || isBlank c

/-- Whether the text of the node is that of its tokens. -/
def isTight (source : String) (t : Tree) : Bool :=
  uncommented source t.span && (t.text source).toList.all fun c => !Scan.isLayout c

end Tree

/-! ## Nodes that correspond -/

/-- Two texts with the same code that the grammar can read. -/
structure Relayout (a b : String) where
  same : SameCode a b
  shift : Shift
  code_eq : codeOf b = (codeOf a).map shift.token
  left : Tree
  right : Tree
  left_eq : Tree.ofText? a = some left
  right_eq : Tree.ofText? b = some right

namespace Relayout

variable {a b : String}

/-- A node below the root of the first text and one below that of the second with the same code
inside. -/
structure Pair (r : Relayout a b) (t u : Tree) : Prop where
  left : ∃ c ∈ r.left.children, t ∈ c.preorder
  right : ∃ c ∈ r.right.children, u ∈ c.preorder
  code_eq : u.code = r.shift.tree t.code
  placed : t.code.Placed (codeOf a)

variable {r : Relayout a b} {t u : Tree}

/-- Nodes with the same code correspond one by one. -/
theorem forall₂_pair {ts us : List Tree}
    (hts : ∀ t ∈ ts, ∃ c ∈ r.left.children, t ∈ c.preorder)
    (hus : ∀ u ∈ us, ∃ c ∈ r.right.children, u ∈ c.preorder)
    (hcode : us.map Tree.code = (ts.map Tree.code).map r.shift.tree)
    (hp : ∀ t ∈ ts, t.code.Placed (codeOf a)) : List.Forall₂ r.Pair ts us := by
  have hall : List.Forall₂ (fun t u => u.code = r.shift.tree t.code) ts us := by
    rw [List.map_map] at hcode
    have heq := List.forall₂_eq_eq_eq.symm ▸ hcode.symm
    rw [List.forall₂_map_left_iff, List.forall₂_map_right_iff] at heq
    exact heq.imp fun _ _ h => h.symm
  refine (forall₂_with_mem hall).imp fun t u h => ?_
  exact ⟨hts t h.2.1, hus u h.2.2, h.1, hp t h.2.1⟩

namespace Pair

theorem left_mem (h : r.Pair t u) : t ∈ r.left.preorder := by
  obtain ⟨c, hc, ht⟩ := h.left
  exact Tree.mem_preorder_iff.2 (.inr ⟨c, hc, ht⟩)

theorem right_mem (h : r.Pair t u) : u ∈ r.right.preorder := by
  obtain ⟨c, hc, hu⟩ := h.right
  exact Tree.mem_preorder_iff.2 (.inr ⟨c, hc, hu⟩)

theorem kind_eq (h : r.Pair t u) : u.kind = t.kind := by
  simpa using congrArg Tree.kind h.code_eq

theorem field_eq (h : r.Pair t u) : u.field = t.field := by
  simpa using congrArg Tree.field h.code_eq

theorem span_eq (h : r.Pair t u) : u.span = r.shift.span t.span := by
  simpa using congrArg Tree.span h.code_eq

theorem children (h : r.Pair t u) :
    List.Forall₂ r.Pair (Tree.proper t.children) (Tree.proper u.children) := by
  refine forall₂_pair (fun c hc => ?_) (fun c hc => ?_) ?_ fun c hc => ?_
  · exact Tree.exists_child_of_mem_children h.left_mem (List.mem_of_mem_filter hc)
  · exact Tree.exists_child_of_mem_children h.right_mem (List.mem_of_mem_filter hc)
  · rw [← Tree.children_code, ← Tree.children_code, h.code_eq, Shift.children_tree]
  · refine (Tree.placed_iff.1 h.placed).2 c.code ?_
    rw [Tree.children_code]
    exact List.mem_map_of_mem hc

/-! ### Children in roles and of kinds

They are found among children that correspond, and they correspond in the same way. -/

section Children

variable {R : Tree → Tree → Prop} (h : r.Pair t u) (hR : ∀ t u, R t u → r.Pair t u)
  (hc : List.Forall₂ R (Tree.proper t.children) (Tree.proper u.children))

include h hR hc

theorem child?_of (f : Field) : Option.Rel R (t.child? f) (u.child? f) := by
  rw [Tree.child?, Tree.child?, ← Tree.find?_proper fun c hc hf =>
      Tree.not_comment_of_role r.left_eq h.left_mem hc (beq_iff_eq.1 hf),
    ← Tree.find?_proper fun c hc hf =>
      Tree.not_comment_of_role r.right_eq h.right_mem hc (beq_iff_eq.1 hf)]
  exact find?_rel hc fun c d hcd => by rw [(hR c d hcd).field_eq]

theorem childrenIn_of (f : Field) : List.Forall₂ R (t.childrenIn f) (u.childrenIn f) := by
  rw [Tree.childrenIn, Tree.childrenIn, ← Tree.filter_proper fun c hc hf =>
      Tree.not_comment_of_role r.left_eq h.left_mem hc (beq_iff_eq.1 hf),
    ← Tree.filter_proper fun c hc hf =>
      Tree.not_comment_of_role r.right_eq h.right_mem hc (beq_iff_eq.1 hf)]
  exact filter_rel hc fun c d hcd => by rw [(hR c d hcd).field_eq]

omit h

theorem namedChildren_of :
    List.Forall₂ R (Tree.proper t.namedChildren) (Tree.proper u.namedChildren) := by
  have hcomm (x : Tree) : Tree.proper x.namedChildren =
      (Tree.proper x.children).filter fun c => c.kind.isNamed := List.filter_comm _ _ _
  rw [hcomm, hcomm]
  exact filter_rel hc fun c d hcd => by rw [(hR c d hcd).kind_eq]

theorem named?_of {k : Kind} (hk : k.isComment = false) :
    Option.Rel R (t.named? k) (u.named? k) := by
  have hp (x : Tree) : ∀ c ∈ x.namedChildren, (c.kind == k) = true → c.kind.isComment = false :=
    fun c _ hc => by rw [beq_iff_eq.1 hc, hk]
  rw [Tree.named?, Tree.named?, ← Tree.find?_proper (hp t), ← Tree.find?_proper (hp u)]
  exact find?_rel (namedChildren_of hR hc) fun c d hcd => by rw [(hR c d hcd).kind_eq]

end Children

theorem child? (h : r.Pair t u) (f : Field) : Option.Rel r.Pair (t.child? f) (u.child? f) :=
  h.child?_of (fun _ _ h => h) h.children f

theorem childrenIn (h : r.Pair t u) (f : Field) :
    List.Forall₂ r.Pair (t.childrenIn f) (u.childrenIn f) :=
  h.childrenIn_of (fun _ _ h => h) h.children f

theorem namedChildren (h : r.Pair t u) :
    List.Forall₂ r.Pair (Tree.proper t.namedChildren) (Tree.proper u.namedChildren) :=
  namedChildren_of (fun _ _ h => h) h.children

theorem named? (h : r.Pair t u) {k : Kind} (hk : k.isComment = false) :
    Option.Rel r.Pair (t.named? k) (u.named? k) :=
  named?_of (fun _ _ h => h) h.children hk

/-! ### Texts -/

theorem text_eq (h : r.Pair t u) (hk : t.kind ∈ Tree.wordKinds) : u.text b = t.text a := by
  obtain ⟨x, hx, _, hs⟩ := (Tree.placed_iff.1 h.placed).1.word (by rwa [Tree.kind_code])
  rw [Tree.span_code] at hs
  rw [Tree.text, Tree.text, h.span_eq, ← hs]
  exact text_shift r.code_eq hx

/-- Without comments inside, the texts are the same but for layout. -/
theorem dense_text_eq (h : r.Pair t u) (ht : uncommented a t.span = true)
    (hu : uncommented b u.span = true) :
    dense (u.text b).toList = dense (t.text a).toList := by
  obtain ⟨⟨x, hx, hxs⟩, ⟨y, hy, hys⟩, _⟩ := (Tree.placed_iff.1 h.placed).1
  obtain ⟨c, hc, htc⟩ := h.left
  have hspan : (⟨x.span.start, y.span.stop⟩ : Span) = t.span := by
    rw [hxs, hys, Tree.start, Tree.stop, Tree.span_code]
  have hfilled : x.span.start < y.span.stop := by
    have hf := Tree.filled_of_ofText? r.left_eq hc htc
    rw [hxs, hys, Tree.start, Tree.stop, Tree.span_code]
    exact hf
  rw [h.span_eq] at hu
  rw [Tree.text, Tree.text, h.span_eq, ← hspan]
  rw [← hspan] at ht hu
  exact dense_text_shift r.code_eq hx hy hfilled ht hu

theorem compactText_eq (h : r.Pair t u) (ht : t.isPlain a = true) (hu : u.isPlain b = true) :
    u.compactText b = t.compactText a := by
  have hsqueeze (cs : List Char) (hcs : (cs.all fun c => !Scan.isLayout c || isBlank c) = true) :
      squeezeChars cs = squeezeChars (dense cs) := by
    rw [squeezeChars, squeezeChars, dense, List.filter_filter]
    refine List.filter_congr fun c hc => ?_
    have hlayout := List.all_eq_true.1 hcs c hc
    cases hb : isBlank c with
    | true => rfl
    | false => simpa [hb] using hlayout
  simp only [Tree.isPlain, Bool.and_eq_true] at ht hu
  rw [Tree.compactText, Tree.compactText, TypeText.compact, TypeText.compact, squeeze, squeeze,
    hsqueeze _ ht.2, hsqueeze _ hu.2, h.dense_text_eq ht.1.2 hu.1.2]

theorem text_eq_of_isTight (h : r.Pair t u) (ht : t.isTight a = true) (hu : u.isTight b = true) :
    u.text b = t.text a := by
  have hdense (cs : List Char) (hcs : (cs.all fun c => !Scan.isLayout c) = true) :
      dense cs = cs := List.filter_eq_self.2 (List.all_eq_true.1 hcs)
  simp only [Tree.isTight, Bool.and_eq_true] at ht hu
  have heq := h.dense_text_eq ht.1 hu.1
  rw [hdense _ ht.2, hdense _ hu.2] at heq
  exact String.ext heq

end Pair

/-- The nodes below the roots correspond. -/
theorem pairs (r : Relayout a b) :
    List.Forall₂ r.Pair (Tree.proper r.left.children) (Tree.proper r.right.children) := by
  have hlexemes : lexemes ((codeOf a).map r.shift.token) = lexemes (codeOf a) := by
    rw [← r.code_eq]
    exact r.same.symm
  have hleft := Tree.codeAll_of_ofText? r.left_eq
  have hright := Tree.codeAll_of_ofText? r.right_eq
  rw [r.code_eq, Grammar.read?_shift hlexemes, hleft, Option.map_some, Option.some.injEq] at hright
  refine forall₂_pair (fun c hc => ?_) (fun c hc => ?_) ?_ fun c hc => ?_
  · exact ⟨c, List.mem_of_mem_filter hc, c.self_mem_preorder⟩
  · exact ⟨c, List.mem_of_mem_filter hc, c.self_mem_preorder⟩
  · rw [← Tree.codeAll_eq, ← Tree.codeAll_eq, hright]
  · refine Grammar.placed_of_read? hleft c.code ?_
    rw [Tree.codeAll_eq]
    exact List.mem_map_of_mem hc

end Relayout

/-- Of two texts with the same code the grammar can read both or none. -/
theorem ofText?_eq_none_or_exists_relayout {a b : String} (h : SameCode a b) :
    (Tree.ofText? a = none ∧ Tree.ofText? b = none) ∨ Nonempty (Relayout a b) := by
  obtain ⟨m, hm⟩ := exists_shift h
  have hlexemes : lexemes ((codeOf a).map m.token) = lexemes (codeOf a) := by
    rw [← hm]
    exact h.symm
  have hread := Grammar.read?_shift hlexemes
  rw [← hm] at hread
  cases ha : Tree.ofText? a with
  | none =>
    rw [Tree.ofText?_eq_none_iff] at ha
    rw [ha, Option.map_none] at hread
    exact .inl ⟨rfl, Tree.ofText?_eq_none_iff.2 hread⟩
  | some ta =>
    rw [Tree.codeAll_of_ofText? ha, Option.map_some] at hread
    cases hb : Tree.ofText? b with
    | none =>
      rw [Tree.ofText?_eq_none_iff, hread] at hb
      simp at hb
    | some tb => exact .inr ⟨h, m, hm, ta, tb, ha, hb⟩

end InjectionPoints.Java
