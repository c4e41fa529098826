/-
A text is laid out: its tokens come one after the other, with layout between them (`laid_ofText`).
So tokens are some bytes long, inside the text and apart from each other (`inOrder_ofText`), the
span of a token covers its text (`text_of_mem`), and a span from one token to another one covers,
layout apart, the texts of the tokens inside (`dense_text`).
-/
import Mathlib.Data.String.Basic
import InjectionPoints.Java.Token
import InjectionPoints.Proofs.Tree.Ordered

namespace InjectionPoints.Java

/-- Where no token begins is one character of white space. -/
theorem Scan.isLayout_of_kind_eq_none {modes : List Mode} {c : Char} {cs : List Char}
    (h : (next modes c cs).kind = none) : isLayout c = true ∧ (next modes c cs).length = 1 := by
  have hline (outer : List Mode) : (line outer c cs).kind ≠ none := by
    rw [line, escape]
    split
    · simp
    · split
      · split
        · simp
        · split <;> simp [here]
      · simp [here]
  have hblock (outer : List Mode) : (block outer c cs).kind ≠ none := by
    rw [block, escape]
    split
    · split <;> simp [here]
    · split
      · split
        · simp [here]
        · split <;> simp [here]
      · simp [here]
  have hcode (modes : List Mode) (h : (code modes c cs).kind = none) :
      isLayout c = true ∧ (code modes c cs).length = 1 := by
    rw [code] at h ⊢
    split at h
    · rename_i hc
      rw [if_pos hc]
      exact ⟨hc, rfl⟩
    · repeat' split at h
      all_goals simp [here] at h
  rw [next.eq_def] at h ⊢
  split at h
  · exact absurd h (hline _)
  · exact absurd h (hblock _)
  · exact hcode _ h

/-- The symbols that begin with `<` are short. -/
theorem Scan.symbolLength_le (cs : List Char) : symbolLength ('<' :: cs) ≤ 3 := by
  have hall : ∀ s ∈ longSymbols, s.toList.head? = some '<' → s.length ≤ 3 := by decide
  rw [symbolLength]
  cases hs : longSymbols.find? fun s => s.toList.isPrefixOf ('<' :: cs) with
  | none => simp
  | some s =>
    have hp : s.toList <+: '<' :: cs := List.isPrefixOf_iff_prefix.1 (by
      simpa using List.find?_some hs)
    have hlen := hall s (List.mem_of_find?_eq_some hs)
    cases hl : s.toList with
    | nil =>
      rw [Option.map_some, Option.getD_some, ← String.length_toList, hl]
      simp
    | cons c ds =>
      rw [hl] at hp hlen
      rw [Option.map_some, Option.getD_some]
      exact hlen (by rw [List.head?_cons, (List.cons_prefix_cons.1 hp).1])

/-- What the grammar may read as a keyword or a symbol is short where it begins with `<`. -/
theorem Scan.length_next_le {modes : List Mode} {cs : List Char}
    (h : (next modes '<' cs).kind = some .word ∨ (next modes '<' cs).kind = some .symbol) :
    (next modes '<' cs).length ≤ 3 := by
  have hcode (modes : List Mode) :
      code modes '<' cs = ⟨some .symbol, symbolLength ('<' :: cs), behindBrace '<' modes⟩ := by
    have hword : isWordStart '<' = false := by decide
    simp [code, hword, isLayout]
  rw [next.eq_def] at h ⊢
  split at h
  · simp [line, here] at h
  · simp [block, here] at h
  · rw [hcode]
    exact symbolLength_le cs

namespace Token

/-- What a token of a text was scanned as. -/
theorem exists_scan_of_mem {skip offset : Nat} {modes : List Mode} {cs : List Char} {t : Token}
    (ht : t ∈ tokensFrom skip offset modes cs) :
    ∃ modes c cs, (Scan.next modes c cs).kind = some t.kind ∧
      t.text = String.ofList (c :: cs.take ((Scan.next modes c cs).length - 1)) := by
  induction cs generalizing skip offset modes with
  | nil => simp [tokensFrom] at ht
  | cons c cs ih =>
    cases skip with
    | succ skip => exact ih (by simpa only [tokensFrom] using ht)
    | zero =>
      simp only [tokensFrom] at ht
      split at ht
      · exact ih ht
      · rename_i kind hkind
        rcases List.mem_cons.1 ht with rfl | ht
        · exact ⟨modes, c, cs, hkind, rfl⟩
        · exact ih ht

/-- What the grammar may read as a keyword or a symbol is not the name of constructors. -/
theorem text_ne_of_isPlain {source : String} {t : Token} (ht : t ∈ ofText source)
    (hp : t.isPlain = true) : t.text ≠ "<init>" := by
  intro he
  obtain ⟨modes, c, cs, hk, htext⟩ := exists_scan_of_mem ht
  have hl := congrArg String.toList (htext.symm.trans he)
  rw [String.toList_ofList, show "<init>".toList = ['<', 'i', 'n', 'i', 't', '>'] from rfl,
    List.cons.injEq] at hl
  obtain ⟨rfl, hl⟩ := hl
  have hshort := @Scan.length_next_le modes cs (by
    rw [isPlain] at hp
    rw [hk, Option.some.injEq, Option.some.injEq]
    split at hp
    · exact .inl ‹_›
    · exact .inr ‹_›
    · simp at hp)
  have hlen := congrArg List.length hl
  rw [List.length_take] at hlen
  simp only [List.length_cons, List.length_nil] at hlen
  omega

/-- The number of bytes of some characters. -/
def bytes (cs : List Char) : Nat := (String.ofList cs).utf8ByteSize

theorem bytes_eq (cs : List Char) : bytes cs = String.utf8Len cs := String.utf8ByteSize_ofList cs

theorem bytes_nil : bytes [] = 0 := bytes_eq []

theorem bytes_cons (c : Char) (cs : List Char) : bytes (c :: cs) = c.utf8Size + bytes cs := by
  rw [bytes_eq, bytes_eq, String.utf8Len_cons, Nat.add_comm]

theorem bytes_append (cs ds : List Char) : bytes (cs ++ ds) = bytes cs + bytes ds := by
  simp only [bytes_eq, String.utf8Len_append]

theorem bytes_pos {cs : List Char} (h : cs ≠ []) : 0 < bytes cs := by
  rw [bytes_eq]
  exact Nat.pos_of_ne_zero fun hz => h (String.utf8Len_eq_zero.1 hz)

theorem eq_nil_of_bytes_eq_zero {cs : List Char} (h : bytes cs = 0) : cs = [] := by
  by_contra hne
  exact absurd h (Nat.ne_of_gt (bytes_pos hne))

/-- Of two beginnings of a text, the one with fewer bytes is the beginning of the other one. -/
theorem exists_between {l l' r r' : List Char} (h : l ++ r = l' ++ r') (hb : bytes l ≤ bytes l') :
    ∃ m, l' = l ++ m ∧ r = m ++ r' := by
  rcases List.append_eq_append_iff.1 h with ⟨m, rfl, rfl⟩ | ⟨m, rfl, rfl⟩
  · exact ⟨m, rfl, rfl⟩
  · rw [bytes_append] at hb
    have hm : m = [] := eq_nil_of_bytes_eq_zero (by omega)
    exact ⟨[], by simp [hm], by simp [hm]⟩

/-- Tokens from `lo` up to `hi`, in the order of the text and each of some length. -/
def InOrder (lo hi : Nat) : List Token → Prop
  | [] => lo ≤ hi
  | t :: ts => lo ≤ t.span.start ∧ t.span.start < t.span.stop ∧ InOrder t.span.stop hi ts

variable {lo mid hi : Nat} {t u : Token} {ts : List Token}

theorem InOrder.lower (h : InOrder mid hi ts) (hm : lo ≤ mid) : InOrder lo hi ts := by
  cases ts with
  | nil => exact Nat.le_trans hm h
  | cons t ts => exact ⟨Nat.le_trans hm h.1, h.2⟩

theorem InOrder.le (h : InOrder lo hi ts) : lo ≤ hi := by
  induction ts generalizing lo with
  | nil => exact h
  | cons t ts ih =>
    obtain ⟨h₁, h₂, h₃⟩ := h
    have h₄ := ih h₃
    omega

theorem InOrder.of_mem (h : InOrder lo hi ts) (ht : t ∈ ts) :
    lo ≤ t.span.start ∧ t.span.start < t.span.stop ∧ t.span.stop ≤ hi := by
  induction ts generalizing lo with
  | nil => simp at ht
  | cons u ts ih =>
    obtain ⟨h₁, h₂, h₃⟩ := h
    rcases List.mem_cons.1 ht with rfl | ht
    · exact ⟨h₁, h₂, h₃.le⟩
    · obtain ⟨h₄, h₅, h₆⟩ := ih h₃ ht
      exact ⟨by omega, h₅, h₆⟩

theorem InOrder.filter (h : InOrder lo hi ts) (p : Token → Bool) : InOrder lo hi (ts.filter p) := by
  induction ts generalizing lo with
  | nil => exact h
  | cons t ts ih =>
    obtain ⟨h₁, h₂, h₃⟩ := h
    rw [List.filter_cons]
    split
    · exact ⟨h₁, h₂, ih h₃⟩
    · exact (ih h₃).lower (by omega)

theorem InOrder.pairwise (h : InOrder lo hi ts) :
    ts.Pairwise fun t u => t.span.stop ≤ u.span.start := by
  induction ts generalizing lo with
  | nil => exact .nil
  | cons t ts ih =>
    obtain ⟨_, _, h₃⟩ := h
    exact List.pairwise_cons.2 ⟨fun u hu => (h₃.of_mem hu).1, ih h₃⟩

/-- Two tokens do not overlap. -/
theorem InOrder.apart (h : InOrder lo hi ts) (ht : t ∈ ts) (hu : u ∈ ts) :
    t = u ∨ t.span.stop ≤ u.span.start ∨ u.span.stop ≤ t.span.start :=
  pairwise_cases h.pairwise ht hu

/-! ## Layout -/

/-- Characters of which some are laid out as the tokens, the others as white space between them;
the first one is `lo` bytes into the text. -/
inductive Laid : Nat → List Char → List Token → Prop where
  | nil {lo : Nat} : Laid lo [] []
  | layout {lo : Nat} {c : Char} {cs : List Char} {ts : List Token} :
      Scan.isLayout c = true → Laid (lo + c.utf8Size) cs ts → Laid lo (c :: cs) ts
  | token {lo : Nat} {w cs : List Char} {t : Token} {ts : List Token} :
      w ≠ [] → t.text = String.ofList w → t.span = ⟨lo, lo + bytes w⟩ →
        Laid (lo + bytes w) cs ts → Laid lo (w ++ cs) (t :: ts)

theorem laid_tokensFrom (skip offset : Nat) (modes : List Mode) (cs : List Char) :
    Laid (offset + bytes (cs.take skip)) (cs.drop skip) (tokensFrom skip offset modes cs) := by
  induction cs generalizing skip offset modes with
  | nil =>
    rw [tokensFrom, List.drop_nil]
    exact .nil
  | cons c cs ih =>
    cases skip with
    | succ skip =>
      rw [tokensFrom, List.take_succ_cons, bytes_cons, ← Nat.add_assoc]
      exact ih skip (offset + c.utf8Size) modes
    | zero =>
      rw [List.take_zero, bytes_nil, Nat.add_zero, List.drop_zero]
      simp only [tokensFrom]
      have hs := ih ((Scan.next modes c cs).length - 1) (offset + c.utf8Size)
        (Scan.next modes c cs).modes
      split
      · rename_i hk
        obtain ⟨hc, hl⟩ := Scan.isLayout_of_kind_eq_none hk
        rw [hl] at hs ⊢
        rw [List.take_zero, bytes_nil] at hs
        exact .layout hc hs
      · rename_i kind hk
        generalize (Scan.next modes c cs).length - 1 = n at hs ⊢
        have hw : c :: cs = (c :: cs.take n) ++ cs.drop n := by
          rw [List.cons_append, List.take_append_drop]
        rw [Nat.add_assoc, ← bytes_cons] at hs
        conv => arg 2; rw [hw]
        exact .token (List.cons_ne_nil _ _) rfl rfl hs

theorem laid_ofText (source : String) : Laid 0 source.toList (ofText source) := by
  have h := laid_tokensFrom 0 0 [] source.toList
  rwa [List.take_zero, bytes_nil] at h

variable {cs : List Char}

theorem Laid.inOrder (h : Laid lo cs ts) : InOrder lo (lo + bytes cs) ts := by
  induction h with
  | nil => exact Nat.le_add_right _ _
  | layout _ _ ih =>
    rw [bytes_cons, ← Nat.add_assoc]
    exact ih.lower (Nat.le_add_right _ _)
  | token hw _ hs _ ih =>
    have hpos := bytes_pos hw
    rw [bytes_append, ← Nat.add_assoc, InOrder, hs]
    exact ⟨Nat.le_refl _, Nat.lt_add_of_pos_right hpos, ih⟩

theorem inOrder_ofText (source : String) : InOrder 0 source.utf8ByteSize (ofText source) := by
  have h := (laid_ofText source).inOrder
  rwa [bytes, String.ofList_toList, Nat.zero_add] at h

/-! ## The text of a span -/

theorem text_of_toList_eq {source : String} {l m r : List Char} (h : source.toList = l ++ m ++ r) :
    (⟨bytes l, bytes l + bytes m⟩ : Span).text source = String.ofList m := by
  rw [Span.text, ← String.ofList_toList (s := source), h, bytes_eq, bytes_eq]
  exact String.extract_of_valid l m r

theorem Laid.exists_of_mem (h : Laid lo cs ts) (ht : t ∈ ts) :
    ∃ l w r, cs = l ++ w ++ r ∧ t.text = String.ofList w ∧
      t.span = ⟨lo + bytes l, lo + bytes l + bytes w⟩ := by
  induction h with
  | nil => simp at ht
  | @layout lo c cs ts _ _ ih =>
    obtain ⟨l, w, r, rfl, hw, hs⟩ := ih ht
    refine ⟨c :: l, w, r, rfl, hw, ?_⟩
    rw [hs, bytes_cons, Nat.add_assoc lo]
  | @token lo w cs u ts _ hw hs _ ih =>
    rcases List.mem_cons.1 ht with rfl | ht
    · refine ⟨[], w, cs, rfl, hw, ?_⟩
      rw [hs, bytes_nil, Nat.add_zero]
    · obtain ⟨l, v, r, rfl, hv, hs⟩ := ih ht
      refine ⟨w ++ l, v, r, by simp, hv, ?_⟩
      rw [hs, bytes_append, Nat.add_assoc lo]

/-- The span of a token covers its text. -/
theorem text_of_mem {source : String} (h : t ∈ ofText source) : t.span.text source = t.text := by
  obtain ⟨l, w, r, hcs, hw, hs⟩ := (laid_ofText source).exists_of_mem h
  rw [hs, hw, Nat.zero_add, text_of_toList_eq hcs]

/-- The text from one token to another one begins with that of the first. -/
theorem text_isPrefix {source : String} (ht : t ∈ ofText source) (hu : u ∈ ofText source)
    (htu : t.span.start < u.span.stop) :
    t.text.toList <+: ((⟨t.span.start, u.span.stop⟩ : Span).text source).toList := by
  have hle : t.span.stop ≤ u.span.stop := by
    rcases (inOrder_ofText source).apart ht hu with rfl | h | h
    · exact Nat.le_refl _
    · have := ((inOrder_ofText source).of_mem hu).2.1
      omega
    · omega
  obtain ⟨l, w, r, hl, hw, hts⟩ := (laid_ofText source).exists_of_mem ht
  obtain ⟨l', w', r', hl', hw', hus⟩ := (laid_ofText source).exists_of_mem hu
  rw [Nat.zero_add] at hts hus
  rw [hts, hus, ← bytes_append, ← bytes_append] at hle
  obtain ⟨m, hm, -⟩ := exists_between (hl.symm.trans hl') hle
  have hsource : source.toList = l ++ (w ++ m) ++ r' := by
    rw [hl', hm, ← List.append_assoc]
  have hstart : t.span.start = bytes l := by rw [hts]
  have hstop : u.span.stop = bytes l + bytes (w ++ m) := by
    rw [hus, ← bytes_append, ← bytes_append, hm, List.append_assoc]
  rw [hstart, hstop, text_of_toList_eq hsource, hw, String.toList_ofList, String.toList_ofList]
  exact List.prefix_append w m

/-- Characters without those that are white space between tokens. -/
def dense (cs : List Char) : List Char := cs.filter fun c => !Scan.isLayout c

/-- The characters of some tokens. -/
def chars (ts : List Token) : List Char := ts.flatMap fun t => t.text.toList

theorem dense_append (cs ds : List Char) : dense (cs ++ ds) = dense cs ++ dense ds :=
  List.filter_append cs ds

/-- From where the first token may begin up to the end of the token `u` are, layout apart, the
tokens that are not behind `u`. -/
theorem Laid.exists_upTo (h : Laid lo cs ts) (hu : u ∈ ts) :
    ∃ m r, cs = m ++ r ∧ lo + bytes m = u.span.stop ∧
      dense m = dense (chars (ts.filter fun t => decide (t.span.stop ≤ u.span.stop))) := by
  induction h with
  | nil => simp at hu
  | @layout lo c cs ts hc _ ih =>
    obtain ⟨m, r, rfl, hb, hm⟩ := ih hu
    refine ⟨c :: m, r, rfl, ?_, ?_⟩
    · rw [bytes_cons, ← Nat.add_assoc, hb]
    · rw [← hm, dense, List.filter_cons, hc]
      rfl
  | @token lo w cs t ts hw htext hs hlaid ih =>
    have htoList : t.text.toList = w := by rw [htext, String.toList_ofList]
    have hstop : t.span.stop = lo + bytes w := by rw [hs]
    rcases List.mem_cons.1 hu with rfl | hu
    · refine ⟨w, cs, rfl, by rw [hs], ?_⟩
      have hnone : ts.filter (fun t => decide (t.span.stop ≤ u.span.stop)) = [] := by
        refine List.filter_eq_nil_iff.2 fun t ht => ?_
        have ho := hlaid.inOrder.of_mem ht
        rw [decide_eq_true_eq]
        omega
      rw [List.filter_cons, decide_eq_true (Nat.le_refl _), if_pos rfl, hnone, chars,
        List.flatMap_singleton, htoList]
    · obtain ⟨m, r, rfl, hb, hm⟩ := ih hu
      have hle : t.span.stop ≤ u.span.stop := by omega
      refine ⟨w ++ m, r, by simp, ?_, ?_⟩
      · rw [bytes_append, ← Nat.add_assoc, hb]
      · rw [List.filter_cons, decide_eq_true hle, if_pos rfl, chars, List.flatMap_cons, htoList,
          dense_append, dense_append, hm]
        rfl

/-- From the token `t` to the token `u` are, layout apart, the tokens inside. -/
theorem Laid.exists_within (h : Laid lo cs ts) (ht : t ∈ ts) (hu : u ∈ ts)
    (htu : t.span.start < u.span.stop) :
    ∃ l m r, cs = l ++ m ++ r ∧ lo + bytes l = t.span.start ∧
      t.span.start + bytes m = u.span.stop ∧
      dense m = dense (chars (ts.filter fun x =>
        (⟨t.span.start, u.span.stop⟩ : Span).covers x.span)) := by
  induction h with
  | nil => simp at ht
  | @layout lo c cs ts hc _ ih =>
    obtain ⟨l, m, r, rfl, hl, hm⟩ := ih ht hu
    refine ⟨c :: l, m, r, rfl, ?_, hm⟩
    rw [bytes_cons, ← Nat.add_assoc, hl]
  | @token lo w cs x ts hw htext hs hlaid ih =>
    have hlaid' : Laid lo (w ++ cs) (x :: ts) := .token hw htext hs hlaid
    have hstart : x.span.start = lo := by rw [hs]
    have hstop : x.span.stop = lo + bytes w := by rw [hs]
    have hpos := bytes_pos hw
    rcases List.mem_cons.1 ht with rfl | ht
    · obtain ⟨m, r, hcs, hb, hm⟩ := hlaid'.exists_upTo hu
      refine ⟨[], m, r, hcs, hstart.symm, by rw [← hb, hstart], ?_⟩
      rw [hm]
      congr 2
      refine List.filter_congr fun y hy => ?_
      have ho := hlaid'.inOrder.of_mem hy
      simp [Span.covers, hstart, ho.1]
    · have hto := hlaid.inOrder.of_mem ht
      have hux : u ∈ ts := by
        rcases List.mem_cons.1 hu with rfl | hu
        · omega
        · exact hu
      obtain ⟨l, m, r, rfl, hl, hm, hd⟩ := ih ht hux
      refine ⟨w ++ l, m, r, by simp, ?_, hm, ?_⟩
      · rw [bytes_append, ← Nat.add_assoc, hl]
      · rw [hd, List.filter_cons, if_neg]
        rw [Span.covers_iff]
        show ¬(t.span.start ≤ x.span.start ∧ x.span.stop ≤ u.span.stop)
        omega

/-- The text from one token to another one is, layout apart, that of the tokens inside. -/
theorem dense_text {source : String} (ht : t ∈ ofText source) (hu : u ∈ ofText source)
    (htu : t.span.start < u.span.stop) :
    dense ((⟨t.span.start, u.span.stop⟩ : Span).text source).toList =
      dense (chars ((ofText source).filter fun x =>
        (⟨t.span.start, u.span.stop⟩ : Span).covers x.span)) := by
  obtain ⟨l, m, r, hcs, hl, hm, hd⟩ := (laid_ofText source).exists_within ht hu htu
  rw [Nat.zero_add] at hl
  rw [← hd, ← hm, ← hl, text_of_toList_eq hcs, String.toList_ofList]

end Token

end InjectionPoints.Java
