/-
The reference at a cursor. It is one of the string literals of the file (`mem_literals_of_at?`): that
of the literal around the cursor, unless an attribute inside the literal is around the cursor too
(`at?_eq_some_iff`).
-/
import InjectionPoints.Query
import InjectionPoints.Proofs.SourceTree
import InjectionPoints.Proofs.Tree.Descent
import InjectionPoints.Proofs.WorkspaceInvariant

namespace InjectionPoints

open Java

/-! ## Readable trees -/

open Grammar in
theorem named_test :
    (treeConstructs.all fun c => !c.shape.any (Shape.may fun _ => !c.kind.isNamed)) = true := by
  decide +kernel

open Grammar in
theorem quoted_test :
    (treeConstructs.all fun c => c.kind != .stringLiteral ||
      c.shape.all (Shape.must fun x => !x.kind.isNamed)) = true := by
  decide +kernel

/-- What questions at a cursor need of a tree: it is in the order of the text, no string literal is
the whole of it, and each has a token at which no other node is. -/
structure Java.Tree.Readable (t : Tree) : Prop where
  ordered : t.Ordered
  kind : t.kind = .program
  quoted : ∀ u ∈ t.preorder, u.kind = .stringLiteral →
    ∃ c ∈ u.children, c.kind.isNamed = false ∧ c.children = [] ∧ c.start < c.stop

theorem Java.Tree.readable_of_ofText? {source : String} {t : Tree} (h : Tree.ofText? source = some t) :
    t.Readable where
  ordered := Tree.ordered_of_ofText? h
  kind := Tree.kind_of_ofText? h
  quoted u hu hk := by
    obtain ⟨c, hc, hn⟩ := (Tree.isConstruct_of_ofText? h hu).exists_child quoted_test hk
    have hn : c.kind.isNamed = false := by simpa [Tree.part] using hn
    obtain ⟨d, hd, hcd⟩ := Tree.exists_child_of_mem_children hu hc
    refine ⟨c, hc, hn, Tree.children_of_ofText? h hd hcd ?_, Tree.filled_of_ofText? h hd hcd⟩
    rw [Tree.parts, List.map_eq_nil_iff, List.filter_eq_nil_iff]
    intro e he hnot
    have hct := Tree.mem_preorder_trans hu (Tree.mem_preorder_of_mem_children hc)
    have hpass := (Tree.isConstruct_of_ofText? h hct).child_passes (p := fun k _ => k.isNamed)
      named_test he (by simpa using hnot)
    rw [hn] at hpass
    simp at hpass

theorem SourceFile.readable_ofText (path text : String) : (SourceFile.ofText path text).tree.Readable := by
  unfold SourceFile.ofText
  split
  · rename_i t h
    exact Tree.readable_of_ofText? h
  · exact ⟨.nil (Nat.le_refl _), rfl, by simp [Tree.program, Tree.preorder, Tree.preorderAll]⟩

/-- An attribute inside a place is around the offset. -/
def Java.Place.InAttribute (p : Place) (offset : Nat) : Prop :=
  ∃ q ∈ p.preorder, q.kind = .elementValuePair ∧ q.Holds offset

/-- At its quotes no attribute is nearer than a string literal. -/
theorem exists_not_inAttribute {t : Tree} (h : t.Readable) {literal : Place}
    (hl : literal ∈ (Place.root t).preorder) (hk : literal.kind = .stringLiteral) :
    ∃ offset, literal.Holds offset ∧ ¬literal.InAttribute offset := by
  obtain ⟨c', hc', hn, hleaf, hlt⟩ := h.quoted literal.node (Place.node_mem_preorder hl) hk
  obtain ⟨c, hc, rfl⟩ := Place.exists_mem_children hc'
  have hol : literal.node.Ordered := (Place.ordered_of_mem_preorder h.ordered hl).2.1
  refine ⟨c.start, Place.Holds.above ⟨Nat.le_refl _, hlt⟩ hol (Place.mem_preorder_of_mem_children hc),
    fun hx => ?_⟩
  obtain ⟨q, hq, hqk, hheld⟩ := hx
  rcases Place.nested_or_apart hol hq (Place.mem_preorder_of_mem_children hc) with hqc | hcq | hle | hle
  · rcases Place.mem_preorder_iff.1 hqc with rfl | ⟨d, hd, _⟩
    · rw [show q.node.kind = .elementValuePair from hqk] at hn
      simp [Kind.isNamed] at hn
    · have hd' := Place.node_mem_of_mem_children hd
      rw [hleaf] at hd'
      simp at hd'
  · -- then the attribute is the literal itself, or the token
    rcases Place.exists_parent hcq with rfl | ⟨l, hlq, hcl⟩
    · rw [show c.node.kind = .elementValuePair from hqk] at hn
      simp [Kind.isNamed] at hn
    · have he := Place.parent?_of_mem_children hc
      rw [Place.parent?_of_mem_children hcl, Option.some.injEq] at he
      subst he
      rw [Place.preorder_antisymm hq hlq, hk] at hqk
      simp at hqk
  · exact absurd (Nat.lt_of_lt_of_le hheld.2 hle) (Nat.lt_irrefl _)
  · exact absurd (Nat.le_trans hle hheld.1) (Nat.not_le.2 hlt)

namespace Query

variable (ws : Workspace) (path : String)

/-! ## The literals of a file -/

/-- The root of the tree of the file with a path. -/
def rootAt? : Option Place := (ws.fileId? path).bind ws.root?

/-- The string literals of a file in the order of the text. -/
def literals : List Place :=
  match rootAt? ws path with
  | none => []
  | some root => root.preorder.filter fun p => p.kind == .stringLiteral

/-- A literal of a file as a reference, if it is one. -/
def referenceOf? (literal : Place) : Option Reference :=
  (ws.fileId? path).bind fun file => Reference.ofLiteral? ws file literal

/-- No string literal of a file is inside another one. -/
def LiteralsApart : Prop :=
  ∀ literal ∈ literals ws path, ∀ inner ∈ literals ws path, inner ∈ literal.preorder → inner = literal

variable {ws path}

theorem mem_literals_iff {root literal : Place} (hr : rootAt? ws path = some root) :
    literal ∈ literals ws path ↔ literal ∈ root.preorder ∧ literal.kind = .stringLiteral := by
  simp [literals, hr]

theorem exists_of_referenceOf? {literal : Place} {r : Reference}
    (h : referenceOf? ws path literal = some r) :
    ∃ file, ws.fileId? path = some file ∧ r.literal = literal ∧ r.source = ws.text file := by
  obtain ⟨file, hf, h⟩ := Option.bind_eq_some_iff.1 h
  simp only [Reference.ofLiteral?, Option.bind_eq_bind, Option.bind_eq_some_iff] at h
  obtain ⟨point, _, h⟩ := h
  split at h
  · obtain ⟨target, _, h⟩ := Option.bind_eq_some_iff.1 h
    split at h
    · obtain rfl := Option.some.inj h
      exact ⟨file, hf, rfl, rfl⟩
    · simp at h
  · simp at h

/-! ## Cursors -/

/-- What the way up from a cursor looks for. -/
def isStop (p : Place) : Bool := p.kind == .stringLiteral || p.kind == .elementValuePair

section Cursor

variable {t : Tree} {literal : Place} {offset : Nat} {r : Reference}

/-- Where the way up from a cursor stops, the offset is inside. -/
theorem holds_of_isStop (h : t.Readable) {p : Place} (hp : p ∈ (Place.root t).preorder)
    (hd : (Place.root t).descend offset offset ∈ p.preorder) (hs : isStop p = true) :
    p.Holds offset := by
  obtain ⟨hmem, hend, _⟩ := Place.descend_spec (q := .root t) h.ordered offset
  rcases hend with hend | hend
  · -- only the root is above the root
    rw [hend] at hd
    rw [Place.preorder_antisymm hp hd, isStop, show (Place.root t).kind = .program from h.kind] at hs
    simp at hs
  · exact hend.above (Place.ordered_of_mem_preorder h.ordered hp).2.1 hd

/-- The way up from a cursor stops at the literal around it, where no attribute is nearer. -/
theorem stop_eq_literal_iff (hr : rootAt? ws path = some (.root t)) (h : t.Readable)
    (ha : LiteralsApart ws path) :
    ((Place.root t).descend offset offset).wayUp.find? isStop = some literal ∧
        literal.kind = .stringLiteral ↔
      literal ∈ literals ws path ∧ literal.Holds offset ∧ ¬literal.InAttribute offset := by
  obtain ⟨hmem, _, hinside⟩ := Place.descend_spec (q := .root t) h.ordered offset
  rw [Place.nearest_eq_some_iff hmem, mem_literals_iff hr]
  constructor
  · intro hx
    obtain ⟨⟨⟨hl, hd, hs⟩, hleast⟩, hk⟩ := hx
    refine ⟨⟨hl, hk⟩, holds_of_isStop h hl hd hs, fun hin => ?_⟩
    obtain ⟨q, hq, hqk, hheld⟩ := hin
    have hqt := Place.mem_preorder_trans hq hl
    have hlq := hleast q hqt (hinside q hqt hheld) (by simp [isStop, hqk])
    rw [Place.preorder_antisymm hlq hq, hqk] at hk
    simp at hk
  · intro hx
    obtain ⟨⟨hl, hk⟩, hheld, hno⟩ := hx
    refine ⟨⟨⟨hl, hinside literal hl hheld, by simp [isStop, hk]⟩, fun m hm hd hs => ?_⟩, hk⟩
    have hmheld := holds_of_isStop h hm hd hs
    rcases Place.nested_or_apart (r := .root t) h.ordered hl hm with hin | hin | hle | hle
    · exact hin
    · rw [isStop, Bool.or_eq_true, beq_iff_eq, beq_iff_eq] at hs
      rcases hs with hs | hs
      · rw [ha literal ((mem_literals_iff hr).2 ⟨hl, hk⟩) m ((mem_literals_iff hr).2 ⟨hm, hs⟩) hin]
        exact literal.self_mem_preorder
      · exact absurd ⟨m, hin, hs, hmheld⟩ hno
    · exact absurd (Nat.le_trans hle hmheld.1) (Nat.not_le.2 hheld.2)
    · exact absurd (Nat.le_trans hle hheld.1) (Nat.not_le.2 hmheld.2)

/-- The reference at a cursor is that of the place where the way up from the cursor stops. -/
theorem at?_eq {root : Place} (hr : rootAt? ws path = some root) :
    Reference.at? ws path offset =
      ((root.descend offset offset).wayUp.find? isStop).bind fun near =>
        if near.kind == .stringLiteral then referenceOf? ws path near else none := by
  obtain ⟨file, hf, hroot⟩ := Option.bind_eq_some_iff.1 hr
  simp only [Reference.at?, referenceOf?, hf, hroot, Option.bind_eq_bind, Option.bind_some]
  rfl

theorem exists_rootAt?_of_at? (hat : Reference.at? ws path offset = some r) :
    ∃ root, rootAt? ws path = some root := by
  simp only [Reference.at?, Option.bind_eq_bind, Option.bind_eq_some_iff] at hat
  obtain ⟨file, hf, root, hroot, _⟩ := hat
  exact ⟨root, Option.bind_eq_some_iff.2 ⟨file, hf, hroot⟩⟩

/-- The reference at a cursor is that of a literal of the file. -/
theorem mem_literals_of_at? (hr : rootAt? ws path = some (.root t)) (h : t.Readable)
    (hat : Reference.at? ws path offset = some r) :
    ∃ literal ∈ literals ws path, referenceOf? ws path literal = some r := by
  rw [at?_eq hr, Option.bind_eq_some_iff] at hat
  obtain ⟨near, hnear, hn⟩ := hat
  split at hn
  · next hk =>
    have hmem := (Place.descend_spec (q := .root t) h.ordered offset).1
    have hup := ((Place.nearest_eq_some_iff hmem).1 hnear).1.1
    exact ⟨near, (mem_literals_iff hr).2 ⟨hup, beq_iff_eq.1 hk⟩, hn⟩
  · simp at hn

/-- The reference at a cursor is that of the literal around it, where no attribute is nearer. -/
theorem at?_eq_some_iff (hr : rootAt? ws path = some (.root t)) (h : t.Readable)
    (ha : LiteralsApart ws path) :
    Reference.at? ws path offset = some r ↔ ∃ literal ∈ literals ws path,
      literal.Holds offset ∧ ¬literal.InAttribute offset ∧ referenceOf? ws path literal = some r := by
  rw [at?_eq hr, Option.bind_eq_some_iff]
  constructor
  · intro hx
    obtain ⟨near, hnear, hn⟩ := hx
    split at hn
    · rename_i hk
      obtain ⟨h₁, h₂, h₃⟩ := (stop_eq_literal_iff hr h ha).1 ⟨hnear, beq_iff_eq.1 hk⟩
      exact ⟨near, h₁, h₂, h₃, hn⟩
    · simp at hn
  · intro hx
    obtain ⟨literal, h₁, h₂, h₃, hl⟩ := hx
    obtain ⟨hnear, hk⟩ := (stop_eq_literal_iff hr h ha).2 ⟨h₁, h₂, h₃⟩
    exact ⟨literal, hnear, by rwa [if_pos (beq_iff_eq.2 hk)]⟩

end Cursor

open Workspace

/-- The trees of files are readable. -/
theorem exists_readable {files : List (String × String)} {path : String} {root : Place}
    (hr : rootAt? (ofFiles files) path = some root) : ∃ t, root = .root t ∧ t.Readable := by
  obtain ⟨file, _, hfile⟩ := Option.bind_eq_some_iff.1 hr
  obtain ⟨path', rfl⟩ := exists_of_root? hfile
  exact ⟨_, rfl, SourceFile.readable_ofText path' ((ofFiles files).text file)⟩

end Query

end InjectionPoints
