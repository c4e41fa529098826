/-
Names in a text. The grammar reads identifiers from words only (`Reads.named`), and a word is a letter
and what may follow it, so an identifier is a word of the index (`isWord_of_name`). A name with
dots begins with an identifier (`exists_identifier`).
-/
import InjectionPoints.Proofs.Layout.Code
import InjectionPoints.Proofs.PlainIndex

namespace InjectionPoints.Java

open Text Token

/-! ## Characters of words -/

/-- The ranges of characters that a word can hold. -/
def wordRanges : List (Nat × Nat) :=
  [(0x24, 0x24), (0x30, 0x39), (0x41, 0x5A), (0x5F, 0x5F), (0x61, 0x7A), (0xA2, 0xA2)] ++ latinRanges

/-- White space and punctuation. -/
def apartFromWords : List Nat :=
  [0x9, 0xA, 0xB, 0xC, 0xD, 0x20, 0x85, 0xA0, 0x1680, 0x2000, 0x2001, 0x2002, 0x2003, 0x2004, 0x2005,
    0x2006, 0x2007, 0x2008, 0x2009, 0x200A, 0x2028, 0x2029, 0x202F, 0x205F, 0x3000] ++
  punctuation.map Char.toNat

theorem toNat_of_isAlpha {c : Char} (h : c.isAlpha = true) :
    0x41 ≤ c.toNat ∧ c.toNat ≤ 0x5A ∨ 0x61 ≤ c.toNat ∧ c.toNat ≤ 0x7A := by
  have hcases : (decide (c.val ≥ 'A'.val ∧ c.val ≤ 'Z'.val) ||
      decide (c.val ≥ 'a'.val) && decide (c.val ≤ 'z'.val)) = true := h
  simp only [Bool.or_eq_true, Bool.and_eq_true, decide_eq_true_eq, ge_iff_le,
    UInt32.le_iff_toNat_le] at hcases
  exact hcases

theorem exists_wordRange {c : Char} (h : Scan.isWordPart c = true) :
    ∃ r ∈ wordRanges, r.1 ≤ c.toNat ∧ c.toNat ≤ r.2 := by
  simp only [Scan.isWordPart, isAlphanumeric, isLetter, Char.isDigit, Bool.or_eq_true,
    Bool.and_eq_true, decide_eq_true_eq, ge_iff_le, UInt32.le_iff_toNat_le, beq_iff_eq,
    List.any_eq_true] at h
  rcases h with ((((h | ⟨-, r, hr, h⟩) | h) | rfl) | rfl) | h
  · rcases toNat_of_isAlpha h with h | h
    · exact ⟨(0x41, 0x5A), by decide, h⟩
    · exact ⟨(0x61, 0x7A), by decide, h⟩
  · exact ⟨r, List.mem_append_right _ hr, h⟩
  · exact ⟨(0x30, 0x39), by decide, h⟩
  · exact ⟨(0x5F, 0x5F), by decide, by decide⟩
  · exact ⟨(0x24, 0x24), by decide, by decide⟩
  · exact ⟨(0xA2, 0xA2), by decide, by omega⟩

theorem mem_apartFromWords {c : Char} (h : isWordChar c = false) : c.toNat ∈ apartFromWords := by
  simp only [isWordChar, Bool.and_eq_false_iff, Bool.not_eq_false', List.contains_iff_mem] at h
  rcases h with hblank | hmark
  · refine List.mem_append_left _ ?_
    simp only [isBlank, Bool.or_eq_true, decide_eq_true_eq, beq_iff_eq] at hblank
    simp only [List.mem_cons, List.not_mem_nil, or_false]
    omega
  · exact List.mem_append_right _ (List.mem_map_of_mem hmark)

theorem isWordChar_of_isWordPart {c : Char} (h : Scan.isWordPart c = true) :
    isWordChar c = true := by
  have htest : (wordRanges.all fun r =>
      apartFromWords.all fun n => decide (n < r.1 ∨ r.2 < n)) = true := by decide +kernel
  obtain ⟨r, hr, hlo, hhi⟩ := exists_wordRange h
  by_contra hno
  have hmem := mem_apartFromWords (Bool.not_eq_true _ ▸ hno)
  have hout := List.all_eq_true.1 (List.all_eq_true.1 htest r hr) _ hmem
  rw [decide_eq_true_eq] at hout
  omega

theorem isWordPart_of_isWordStart {c : Char} (h : Scan.isWordStart c = true) :
    Scan.isWordPart c = true := by
  simp only [Scan.isWordStart, Scan.isWordPart, isAlphanumeric, Bool.or_eq_true] at h ⊢
  rcases h with (h | h) | h <;> simp [h]

/-! ## Words -/

theorem Scan.of_kind_eq_word {modes : List Mode} {c : Char} {cs : List Char}
    (h : (next modes c cs).kind = some .word) :
    isWordStart c = true ∧ (next modes c cs).length = 1 + (cs.takeWhile isWordPart).length := by
  have hescape (modes : List Mode) : (escape modes cs).kind ≠ some .word := by
    rw [escape]
    split <;> simp [here]
  have hline (outer : List Mode) : (line outer c cs).kind ≠ some .word := by
    rw [line]
    split
    · simp
    · split
      · split
        · simp
        · exact hescape _
      · simp [here]
  have hblock (outer : List Mode) : (block outer c cs).kind ≠ some .word := by
    rw [block]
    split
    · split <;> simp [here]
    · split
      · split
        · simp [here]
        · exact hescape _
      · simp [here]
  have hcode (modes : List Mode) (h : (code modes c cs).kind = some .word) :
      isWordStart c = true ∧ (code modes c cs).length = 1 + (cs.takeWhile isWordPart).length := by
    rw [code] at h ⊢
    split at h
    · simp at h
    · next hlayout =>
      split at h
      · next hstart =>
        rw [if_neg hlayout, if_pos hstart]
        exact ⟨hstart, rfl⟩
      · repeat' split at h
        all_goals simp [here] at h
  rw [next.eq_def] at h ⊢
  split at h
  · exact absurd h (hline _)
  · exact absurd h (hblock _)
  · exact hcode _ h

/-- The text of a word token is a word. -/
theorem isWord_of_kind_eq_word {source : String} {x : Token} (hx : x ∈ ofText source)
    (hk : x.kind = .word) : IsWord x.text := by
  obtain ⟨modes, c, cs, hscan, htext⟩ := exists_scan_of_mem hx
  rw [hk] at hscan
  obtain ⟨hstart, hlen⟩ := Scan.of_kind_eq_word hscan
  have hchars : x.text.toList = c :: cs.takeWhile Scan.isWordPart := by
    rw [htext, String.toList_ofList, hlen, Nat.add_sub_cancel_left,
      ← List.prefix_iff_eq_take.1 (List.takeWhile_prefix Scan.isWordPart)]
  refine ⟨by simp [hchars], List.all_eq_true.2 fun d hd => ?_⟩
  rw [hchars] at hd
  rcases List.mem_cons.1 hd with rfl | hd
  · exact isWordChar_of_isWordPart (isWordPart_of_isWordStart hstart)
  · exact isWordChar_of_isWordPart (List.all_eq_true.1 List.all_takeWhile d hd)

/-! ## Names are read from words -/

namespace Tree

/-- The kinds of names that are words. -/
def nameKinds : List Kind := [.identifier, .typeIdentifier]

/-- All names of one word in the tree are words among the tokens. -/
def Named (tokens : List Token) (t : Tree) : Prop :=
  ∀ u ∈ t.preorder, u.kind ∈ nameKinds → ∃ x ∈ tokens, x.kind = .word ∧ x.span = u.span

variable {tokens : List Token} {t : Tree}

theorem named_iff :
    t.Named tokens ↔ (t.kind ∈ nameKinds → ∃ x ∈ tokens, x.kind = .word ∧ x.span = t.span) ∧
      ∀ c ∈ t.children, c.Named tokens :=
  forall_mem_preorder_iff

theorem Named.withField (h : t.Named tokens) (f : Option Field) : (t.withField f).Named tokens := by
  obtain ⟨hw, hc⟩ := named_iff.1 h
  exact named_iff.2 ⟨by simpa using hw, by simpa using hc⟩

theorem Named.leaf {k : Kind} (hk : k ∉ nameKinds) (s : Span) : (Tree.leaf k s).Named tokens :=
  named_iff.2 ⟨fun h => absurd h hk, by simp [Tree.leaf]⟩

theorem Named.word {k : Kind} {x : Token} (hx : x ∈ tokens) (hw : x.kind = .word) :
    (Tree.leaf k x.span).Named tokens :=
  named_iff.2 ⟨fun _ => ⟨x, hx, hw, rfl⟩, by simp [Tree.leaf]⟩

theorem Named.branch {k : Kind} {cs : List Tree} (hk : k ∉ nameKinds)
    (h : ∀ c ∈ cs, c.Named tokens) : (Tree.branch k cs.reverse).Named tokens :=
  named_iff.2 ⟨fun hn => absurd hn hk, fun c hc => h c (List.mem_reverse.1 hc)⟩

end Tree

namespace Grammar

namespace Rule

/-- Whether names are read from words only. -/
def naming : Rule → Bool
  | joined _ _ kind => !Tree.nameKinds.contains kind
  | piece kinds => kinds.all fun kind => !Tree.nameKinds.contains kind
  | seq a b | alt a b => naming a && naming b
  | many a | field _ a => naming a
  | node kind a | onto _ kind a => !Tree.nameKinds.contains kind && naming a
  | _ => true

variable {grammar : Name → Rule} {rule : Rule} {s s' : List Tree} {ts ts' tokens : List Token}

/-- Names that are read from tokens are words among them. -/
theorem Reads.named (hn : ∀ name, (grammar name).naming = true)
    (h : Reads grammar rule s ts s' ts') (hr : rule.naming = true) (hts : ts <:+ tokens)
    (hs : ∀ t ∈ s, t.Named tokens) : ∀ t ∈ s', t.Named tokens := by
  induction h with
  | empty | silent _ | avoid | given _ | done => exact hs
  | joined _ => exact List.forall_mem_cons.2 ⟨.leaf (by simpa [naming] using hr) _, hs⟩
  | word hk => exact List.forall_mem_cons.2 ⟨.word (hts.subset List.mem_cons_self) hk, hs⟩
  | piece hk _ =>
    simp only [naming, List.all_eq_true] at hr
    exact List.forall_mem_cons.2 ⟨.leaf (by simpa using hr _ hk) _, hs⟩
  | seq ha _ iha ihb =>
    simp only [naming, Bool.and_eq_true] at hr
    exact ihb hr.2 (ha.suffix.trans hts) (iha hr.1 hts hs)
  | left _ ih =>
    simp only [naming, Bool.and_eq_true] at hr
    exact ih hr.1 hts hs
  | right _ ih =>
    simp only [naming, Bool.and_eq_true] at hr
    exact ih hr.2 hts hs
  | again ha _ iha ihm => exact ihm hr (ha.suffix.trans hts) (iha hr hts hs)
  | node _ ih =>
    simp only [naming, Bool.and_eq_true, Bool.not_eq_true'] at hr
    exact List.forall_mem_cons.2 ⟨.branch (by simpa using hr.1) (ih hr.2 hts (by simp)), hs⟩
  | @onto role _ _ _ _ _ _ _ _ ih =>
    simp only [naming, Bool.and_eq_true, Bool.not_eq_true'] at hr
    obtain ⟨hfirst, holder⟩ := List.forall_mem_cons.1 hs
    have hc := ih hr.2 hts (by simpa using hfirst.withField role)
    exact List.forall_mem_cons.2 ⟨.branch (by simpa using hr.1) hc, holder⟩
  | @field role _ _ _ _ _ _ ih =>
    have hc := ih hr hts (by simp)
    refine List.forall_mem_append.2 ⟨fun t ht => ?_, hs⟩
    obtain ⟨c, hcm, rfl⟩ := List.mem_map.1 ht
    exact (hc c hcm).withField (some role)
  | ref _ ih => exact ih (hn _) hts hs

end Rule

theorem names_naming : (names.all fun name => (flat name).naming) = true := by
  decide +kernel

theorem naming (name : Name) : (flat name).naming = true := by
  obtain ⟨n, hn, hf, _⟩ := exists_mem_names name
  rw [← hf]
  exact List.all_eq_true.1 names_naming n hn

theorem named_of_read? {tokens : List Token} {nodes : List Tree} (h : read? tokens = some nodes) :
    ∀ t ∈ nodes, t.Named tokens := by
  have hn := (reads_of_read? h).named naming rfl (List.suffix_refl tokens) (by simp)
  exact fun t ht => hn t (List.mem_reverse.2 ht)

end Grammar

/-! ## The text of a name -/

namespace Tree

variable {source : String} {t u : Tree}

/-- A name of one word is a word token. -/
theorem exists_word (h : ofText? source = some t) (hu : u ∈ t.preorder) (hk : u.kind ∈ nameKinds) :
    ∃ x ∈ ofText source, x.kind = .word ∧ x.span = u.span := by
  have hproper : ∀ k ∈ nameKinds, k.isComment = false ∧ k ≠ .program := by decide
  obtain ⟨c, hc, huc⟩ := exists_mem_code h hu (hproper _ hk).1 (hproper _ hk).2
  obtain ⟨x, hx, hw, hs⟩ :=
    Grammar.named_of_read? (codeAll_of_ofText? h) c hc _ huc (by rwa [kind_code])
  exact ⟨x, mem_ofText_of_mem_codeOf hx, hw, by rw [hs, span_code]⟩

theorem isWord_of_name (h : ofText? source = some t) (hu : u ∈ t.preorder)
    (hk : u.kind ∈ nameKinds) : IsWord (u.text source) := by
  obtain ⟨x, hx, hw, hs⟩ := exists_word h hu hk
  rw [text, ← hs, text_of_mem hx]
  exact isWord_of_kind_eq_word hx hw

/-! ## Names with dots -/

/-- The kinds of names with dots and without. -/
def dottedKinds : List Kind := [.identifier, .scopedIdentifier]

theorem leads_test : (Grammar.constructs.all fun c => c.kind != .scopedIdentifier ||
    c.shape.any (Shape.leads fun x => dottedKinds.contains x.kind)) = true := by
  decide +kernel

/-- The first part of a name with dots is a name again. -/
theorem exists_first (hb : u.Built Grammar.constructs) (hk : u.kind = .scopedIdentifier) :
    ∃ c cs, u.children = c :: cs ∧ c.kind ∈ dottedKinds := by
  obtain ⟨sh, hknown, hmatches⟩ := (built_iff.1 hb).1
  have htest := List.all_eq_true.1 leads_test _ hknown
  simp only [hk, bne_self_eq_false, Bool.false_or, Option.any_some] at htest
  obtain ⟨x, rest, hparts, hx⟩ := hmatches.leads htest
  rw [hb.parts, List.map_eq_cons_iff] at hparts
  obtain ⟨c, cs, hcs, rfl, -⟩ := hparts
  exact ⟨c, cs, hcs, List.contains_iff_mem.1 hx⟩

/-- A name with dots begins with an identifier. -/
theorem exists_identifier {comments : List Tree} (hs : u.Solid comments)
    (hb : u.Built Grammar.constructs) (hk : u.kind ∈ dottedKinds) :
    ∃ w ∈ u.preorder, w.kind = .identifier ∧ w.start = u.start := by
  simp only [dottedKinds, List.mem_cons, List.not_mem_nil, or_false] at hk
  induction hs with
  | leaf =>
    rcases hk with hk | hk
    · exact ⟨_, self_mem_preorder _, hk, rfl⟩
    · obtain ⟨c, cs, hcs, _⟩ := exists_first hb hk
      simp at hcs
  | @branch k f s cs hstart _ _ _ ih =>
    rcases hk with hk | hk
    · exact ⟨_, self_mem_preorder _, hk, rfl⟩
    · obtain ⟨c, cs, rfl, hck⟩ := exists_first hb hk
      have hc : c ∈ c :: cs := List.mem_cons_self
      simp only [dottedKinds, List.mem_cons, List.not_mem_nil, or_false] at hck
      obtain ⟨w, hw, hwk, hws⟩ := ih c hc ((built_iff.1 hb).2 c hc) hck
      have hcs : c.start = s.start := by simpa using hstart
      exact ⟨w, mem_preorder_iff.2 (.inr ⟨c, hc, hw⟩), hwk, hws.trans hcs⟩

/-- A name with dots goes from a word to some token. -/
theorem exists_ends (h : ofText? source = some t) (hu : u ∈ t.preorder)
    (hk : u.kind ∈ dottedKinds) :
    ∃ x ∈ ofText source, ∃ y ∈ ofText source, x.kind = .word ∧ x.span.start = u.span.start ∧
      y.span.stop = u.span.stop ∧ u.span.start < u.span.stop := by
  have hproper : ∀ k ∈ dottedKinds, k.isComment = false ∧ k ≠ .program := by decide
  have hread := codeAll_of_ofText? h
  obtain ⟨n, hn, hun⟩ := exists_mem_code h hu (hproper _ hk).1 (hproper _ hk).2
  have hsolid : u.code.Solid [] := ((Grammar.line_of_read? hread (by simp)
    ⟨(inOrder_ofText source).filter _, fun t _ c hc => by simp at hc⟩).2 n hn).of_mem_preorder hun
  have hbuilt : u.code.Built Grammar.constructs := fun v hv =>
    (Grammar.built_of_read? hread).2 n hn v (mem_preorder_trans hun hv)
  obtain ⟨w, hw, hwk, hws⟩ := exists_identifier hsolid hbuilt (by rwa [kind_code])
  obtain ⟨x, hx, hxw, hxs⟩ :=
    Grammar.named_of_read? hread n hn w (mem_preorder_trans hun hw) (by rw [hwk]; decide)
  obtain ⟨y, hy, hys⟩ := (Grammar.placed_of_read? hread n hn _ hun).stop
  have hfilled := hsolid.filled
  simp only [start, stop, span_code] at hws hys hfilled
  exact ⟨x, mem_ofText_of_mem_codeOf hx, y, mem_ofText_of_mem_codeOf hy, hxw,
    by rw [hxs, hws], hys, hfilled⟩

/-- A name with dots begins with a character of a word. -/
theorem exists_wordChar (h : ofText? source = some t) (hu : u ∈ t.preorder)
    (hk : u.kind ∈ dottedKinds) :
    ∃ c rest, (u.text source).toList = c :: rest ∧ isWordChar c = true := by
  obtain ⟨x, hx, y, hy, hword, hstart, hstop, hfilled⟩ := exists_ends h hu hk
  obtain ⟨rest, hrest⟩ := text_isPrefix hx hy (by rwa [hstart, hstop])
  rw [hstart, hstop] at hrest
  obtain ⟨hne, -⟩ := isWord_of_kind_eq_word hx hword
  obtain ⟨c, cs, hcs⟩ := List.exists_cons_of_ne_nil hne
  refine ⟨c, cs ++ rest, ?_, (isWord_of_kind_eq_word hx hword).chars c (by simp [hcs])⟩
  rw [text, ← hrest, hcs, List.cons_append]

end Tree

end InjectionPoints.Java
