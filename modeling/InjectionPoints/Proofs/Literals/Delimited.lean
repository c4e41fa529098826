/-
String literals stand between two quotes. The grammar reads one from a quote, tokens of which the
first one is no quote, and the same quote again (`Reads.quoted`). So the text of a literal is what
stands between two copies of its quote, and it begins with three quotes only if it is a text block
(`exists_between_quotes`).
-/
import InjectionPoints.Proofs.Literals.Quotes

namespace InjectionPoints.Java

/-- The span from a quote among the tokens to the next one like it; no quote follows the first one
inside. -/
def Delimited (tokens : List Token) (s : Span) : Prop :=
  ∃ opening inside closing behind, (opening :: inside ++ closing :: behind) <:+ tokens ∧
    opening.isQuote = true ∧ closing.isQuote = true ∧ closing.text = opening.text ∧
    (∀ t ∈ inside.head?, t.isQuote = false) ∧ s = ⟨opening.span.start, closing.span.stop⟩

namespace Tree

/-- All string literals of a tree are delimited by quotes. -/
def Quoted (tokens : List Token) (t : Tree) : Prop :=
  ∀ u ∈ t.preorder, u.kind = .stringLiteral → Delimited tokens u.span

variable {tokens : List Token} {t : Tree}

theorem quoted_iff :
    t.Quoted tokens ↔ (t.kind = .stringLiteral → Delimited tokens t.span) ∧
      ∀ c ∈ t.children, c.Quoted tokens :=
  forall_mem_preorder_iff

theorem Quoted.withField (h : t.Quoted tokens) (f : Option Field) :
    (t.withField f).Quoted tokens := by
  obtain ⟨hs, hc⟩ := quoted_iff.1 h
  exact quoted_iff.2 ⟨by simpa using hs, by simpa using hc⟩

theorem Quoted.leaf {k : Kind} (hk : k ≠ .stringLiteral) (s : Span) :
    (Tree.leaf k s).Quoted tokens :=
  quoted_iff.2 ⟨fun h => absurd h hk, by simp [Tree.leaf]⟩

end Tree

namespace Grammar

namespace Rule

/-- Whether the rule reads something, and no quote first. -/
def unquoted : Rule → Bool
  | joined [part] _ _ => part != "\"" && part != "\"\"\""
  | piece _ | silent => true
  | seq a _ | node _ a => unquoted a
  | alt a b => unquoted a && unquoted b
  | _ => false

/-- Whether the rule leaves the siblings in place. -/
def adds : Rule → Bool
  | seq a b | alt a b => adds a && adds b
  | many a => adds a
  | onto _ _ _ | ref _ => false
  | _ => true

/-- Whether the rule reads from a quote to another one like it. -/
def delimited : Rule → Bool
  | seq (seq (joined [opening] _ _) (many a)) (joined [closing] _ _) =>
    (opening == "\"" || opening == "\"\"\"") && closing == opening && a.unquoted && a.adds
  | alt a b => delimited a && delimited b
  | _ => false

/-- Whether all string literals are read from quote to quote. -/
def quoting : Rule → Bool
  | joined _ _ kind | word _ kind => kind != .stringLiteral
  | piece kinds => !kinds.contains .stringLiteral
  | seq a b | alt a b => quoting a && quoting b
  | many a | field _ a => quoting a
  | node kind a => (kind != .stringLiteral || delimited a) && quoting a
  | onto _ kind a => kind != .stringLiteral && quoting a
  | _ => true

variable {grammar : Name → Rule} {rule : Rule} {s s' : List Tree} {ts ts' tokens : List Token}

theorem takeJoined_single {part : String} {span : Span}
    (h : takeJoined [part] none ts = some (some span, ts')) :
    ∃ t, ts = t :: ts' ∧ t.isPlain = true ∧ t.text = part ∧ t.span = span := by
  cases ts with
  | nil => simp [takeJoined] at h
  | cons t ts =>
    simp only [takeJoined] at h
    split at h
    · next hc =>
      simp only [Bool.and_eq_true, beq_iff_eq] at hc
      simp only [Option.map_some, Option.some.injEq, Prod.mk.injEq] at h
      obtain ⟨rfl, rfl⟩ := h
      exact ⟨t, rfl, hc.1.1, hc.1.2, rfl⟩
    · simp at h

theorem Reads.unquoted (h : Reads grammar rule s ts s' ts') (hr : rule.unquoted = true) :
    ∃ t rest, ts = t :: rest ∧ t.isQuote = false ∧ ts' <:+ rest := by
  induction h with
  | @joined parts _ _ _ _ _ _ hj =>
    match parts with
    | [part] =>
      obtain ⟨t, rfl, hp, rfl, _⟩ := takeJoined_single hj
      simp only [Rule.unquoted, Bool.and_eq_true, bne_iff_ne] at hr
      exact ⟨t, _, rfl, by simp [Token.isQuote, hr], List.suffix_refl _⟩
    | [] | _ :: _ :: _ => simp [Rule.unquoted] at hr
  | @piece _ _ _ t _ _ hk =>
    exact ⟨t, _, rfl, by simp [Token.isQuote, Token.isPlain, hk], List.suffix_refl _⟩
  | @silent _ t _ hk =>
    exact ⟨t, _, rfl, by simp [Token.isQuote, Token.isPlain, hk], List.suffix_refl _⟩
  | seq _ hb iha =>
    obtain ⟨t, rest, rfl, hq, hsuf⟩ := iha hr
    exact ⟨t, rest, rfl, hq, hb.suffix.trans hsuf⟩
  | left _ ih =>
    simp only [Rule.unquoted, Bool.and_eq_true] at hr
    exact ih hr.1
  | right _ ih =>
    simp only [Rule.unquoted, Bool.and_eq_true] at hr
    exact ih hr.2
  | node _ ih => exact ih hr
  | _ => simp [Rule.unquoted] at hr

theorem Reads.adds (h : Reads grammar rule s ts s' ts') (hr : rule.adds = true) : s <:+ s' := by
  induction h with
  | seq _ _ iha ihb =>
    simp only [Rule.adds, Bool.and_eq_true] at hr
    exact (iha hr.1).trans (ihb hr.2)
  | left _ ih =>
    simp only [Rule.adds, Bool.and_eq_true] at hr
    exact ih hr.1
  | right _ ih =>
    simp only [Rule.adds, Bool.and_eq_true] at hr
    exact ih hr.2
  | again _ _ iha ihm => exact (iha hr).trans (ihm hr)
  | onto _ _ | ref _ _ => simp [Rule.adds] at hr
  | joined _ | word | piece _ _ | node _ _ => exact List.suffix_cons _ _
  | field _ _ => exact List.suffix_append _ _
  | _ => exact List.suffix_refl _

/-- What is read again and again is the part of the tokens in front of those left. -/
theorem Reads.many_unquoted {a : Rule} (h : Reads grammar (.many a) s ts s' ts')
    (ha : a.unquoted = true) :
    ∃ inside, ts = inside ++ ts' ∧ ∀ t ∈ inside.head?, t.isQuote = false := by
  generalize hr : Rule.many a = rule at h
  cases h with
  | done => exact ⟨[], rfl, by simp⟩
  | again hfirst hmore =>
    cases hr
    obtain ⟨t, rest, rfl, hq, hsuf⟩ := hfirst.unquoted ha
    obtain ⟨inside, rfl⟩ := hmore.suffix.trans hsuf
    exact ⟨t :: inside, rfl, by simpa using hq⟩
  | _ => cases hr

/-- What is read from quote to quote is delimited. -/
theorem Reads.delimited {children : List Tree} {kind : Kind}
    (h : Reads grammar rule [] ts children ts') (hr : rule.delimited = true) (hts : ts <:+ tokens) :
    Delimited tokens (Tree.branch kind children.reverse).span := by
  fun_induction Rule.delimited rule with
  | case1 opening _ _ a closing _ _ =>
    simp only [Bool.and_eq_true, Bool.or_eq_true, beq_iff_eq] at hr
    obtain ⟨⟨⟨hquote, rfl⟩, ha⟩, hadds⟩ := hr
    cases h with
    | seq h hclose =>
      cases h with
      | seq hopen hmany =>
        cases hopen with
        | joined hj =>
          obtain ⟨x, rfl, hx, hxt, rfl⟩ := takeJoined_single hj
          cases hclose with
          | joined hj =>
            obtain ⟨y, rfl, hy, hyt, rfl⟩ := takeJoined_single hj
            obtain ⟨inside, rfl, hinside⟩ := hmany.many_unquoted ha
            obtain ⟨more, rfl⟩ := hmany.adds hadds
            refine ⟨x, inside, y, ts', hts, ?_, ?_, by rw [hxt, hyt], hinside, ?_⟩
            · simpa [Token.isQuote, hx, hxt] using hquote
            · simpa [Token.isQuote, hy, hyt] using hquote
            · simp [Tree.branch, Tree.leaf, Tree.start, Tree.stop, Tree.span, List.getLast?_cons]
  | case2 a b iha ihb =>
    simp only [Bool.and_eq_true] at hr
    cases h with
    | left h => exact iha h hr.1
    | right h => exact ihb h hr.2
  | case3 => simp at hr

/-- All string literals that are read are delimited by quotes. -/
theorem Reads.quoted (hq : ∀ name, (grammar name).quoting = true)
    (h : Reads grammar rule s ts s' ts') (hr : rule.quoting = true) (hts : ts <:+ tokens)
    (hs : ∀ t ∈ s, t.Quoted tokens) : ∀ t ∈ s', t.Quoted tokens := by
  induction h with
  | empty | silent _ | avoid | given _ | done => exact hs
  | joined _ | word => exact List.forall_mem_cons.2 ⟨.leaf (by simpa [quoting] using hr) _, hs⟩
  | piece hk _ =>
    refine List.forall_mem_cons.2 ⟨.leaf ?_ _, hs⟩
    rintro rfl
    simp [quoting, hk] at hr
  | seq ha _ iha ihb =>
    simp only [quoting, Bool.and_eq_true] at hr
    exact ihb hr.2 (ha.suffix.trans hts) (iha hr.1 hts hs)
  | left _ ih =>
    simp only [quoting, Bool.and_eq_true] at hr
    exact ih hr.1 hts hs
  | right _ ih =>
    simp only [quoting, Bool.and_eq_true] at hr
    exact ih hr.2 hts hs
  | again ha _ iha ihm => exact ihm hr (ha.suffix.trans hts) (iha hr hts hs)
  | @node kind a _ children _ _ ha ih =>
    simp only [quoting, Bool.and_eq_true, Bool.or_eq_true, bne_iff_ne] at hr
    obtain ⟨hk, ha'⟩ := hr
    have hc := ih ha' hts (by simp)
    refine List.forall_mem_cons.2 ⟨Tree.quoted_iff.2 ⟨fun hkind => ?_, fun c hcm => ?_⟩, hs⟩
    · exact ha.delimited (hk.resolve_left fun hne => hne hkind) hts
    · exact hc c (List.mem_reverse.1 hcm)
  | @onto role kind a first older children _ _ ha ih =>
    simp only [quoting, Bool.and_eq_true, bne_iff_ne] at hr
    obtain ⟨hfirst, holder⟩ := List.forall_mem_cons.1 hs
    have hc := ih hr.2 hts (by simpa using hfirst.withField role)
    refine List.forall_mem_cons.2 ⟨Tree.quoted_iff.2 ⟨fun hkind => absurd hkind hr.1, ?_⟩, holder⟩
    exact fun c hcm => hc c (List.mem_reverse.1 hcm)
  | @field role _ _ _ _ _ _ ih =>
    have hc := ih hr hts (by simp)
    refine List.forall_mem_append.2 ⟨fun t ht => ?_, hs⟩
    obtain ⟨c, hcm, rfl⟩ := List.mem_map.1 ht
    exact (hc c hcm).withField (some role)
  | ref _ ih => exact ih (hq _) hts hs

end Rule

theorem names_quoting : (names.all fun name => (flat name).quoting) = true := by
  decide +kernel

theorem quoting (name : Name) : (flat name).quoting = true := by
  obtain ⟨n, hn, hf, _⟩ := exists_mem_names name
  rw [← hf]
  exact List.all_eq_true.1 names_quoting n hn

theorem quoted_of_read? {tokens : List Token} {nodes : List Tree} (h : read? tokens = some nodes) :
    ∀ t ∈ nodes, t.Quoted tokens := by
  have hq := (reads_of_read? h).quoted quoting rfl (List.suffix_refl tokens) (by simp)
  exact fun t ht => hq t (List.mem_reverse.2 ht)

end Grammar

/-! ## The text of a literal -/

open Token StringLiteral

/-- The string literals of a text are delimited by quotes. -/
theorem Tree.delimited_of_ofText? {source : String} {t u : Tree} (h : Tree.ofText? source = some t)
    (hu : u ∈ t.preorder) (hk : u.kind = .stringLiteral) : Delimited (codeOf source) u.span := by
  obtain ⟨c, hc, huc⟩ := exists_mem_code h hu (by rw [hk]; rfl) (by rw [hk]; simp)
  rw [← span_code]
  exact Grammar.quoted_of_read? (codeAll_of_ofText? h) c hc _ huc (by rw [kind_code, hk])

variable {source : String} {s : Span}

/-- A token that begins where another one ends is the next one. -/
theorem eq_next_of_start_eq {lo hi : Nat} {ts rest : List Token} {x y u : Token}
    (h : InOrder lo hi ts) (hsuf : x :: y :: rest <:+ ts) (hu : u ∈ ts)
    (hs : u.span.start = x.span.stop) : u = y := by
  obtain ⟨pre, rfl⟩ := hsuf
  obtain ⟨-, hfilled, -⟩ := h.of_mem hu
  obtain ⟨-, hxfilled, -⟩ := h.of_mem (t := x) (by simp)
  obtain ⟨-, hyfilled, -⟩ := h.of_mem (t := y) (by simp)
  obtain ⟨-, hafter, hbefore⟩ := List.pairwise_append.1 h.pairwise
  obtain ⟨hx, hy⟩ := List.pairwise_cons.1 hafter
  have hxy := hx y List.mem_cons_self
  rcases List.mem_append.1 hu with hu | hu
  · have := hbefore u hu x List.mem_cons_self
    omega
  · rcases List.mem_cons.1 hu with rfl | hu
    · omega
    · rcases List.mem_cons.1 hu with rfl | hu
      · rfl
      · have := (List.pairwise_cons.1 hy).1 u hu
        omega

/-- If two more quotes follow the first one, the last one is among them. -/
theorem start_eq_of_two_behind {x y : Token} {inside behind : List Token} {l r : List Char}
    (hsuf : x :: inside ++ y :: behind <:+ codeOf source)
    (hinside : ∀ t ∈ inside.head?, t.isQuote = false) (hx : x.isPlain = true)
    (hq : x.text = "\"") (hs : source.toList = l ++ '"' :: '"' :: '"' :: r)
    (hl : x.span.start = bytes l) : y.span.start = x.span.stop := by
  have ho : InOrder 0 source.utf8ByteSize (codeOf source) := (inOrder_ofText source).filter _
  have hxm : x ∈ codeOf source := hsuf.subset (by simp)
  obtain ⟨u, hu, huq, hus⟩ :=
    exists_quote_behind (mem_ofText_of_mem_codeOf hxm) hx hq hs hl
  have huc : u ∈ codeOf source := by
    refine List.mem_filter.2 ⟨hu, ?_⟩
    simp [isComment_of_isPlain (isQuote_iff.1 huq).1]
  cases inside with
  | nil =>
    obtain rfl := eq_next_of_start_eq ho hsuf huc hus
    exact hus
  | cons z inside =>
    obtain rfl := eq_next_of_start_eq ho hsuf huc hus
    simp [huq] at hinside

/-- Two quotes of a text, the tokens `opening` and `closing`, with the characters `m` between them and
`l` in front; together they begin with three quotes only if they are those of a text block. -/
structure QuotedAt (source : String) (opening closing : Token) (quote l m : List Char) : Prop where
  opening_mem : opening ∈ ofText source
  closing_mem : closing ∈ ofText source
  opening_quote : opening.isQuote = true
  closing_quote : closing.isQuote = true
  opening_text : opening.text = String.ofList quote
  closing_text : closing.text = String.ofList quote
  opening_span : opening.span = ⟨bytes l, bytes (l ++ quote)⟩
  closing_span : closing.span = ⟨bytes (l ++ quote ++ m), bytes (l ++ quote ++ m ++ quote)⟩
  source_eq : ∃ r, source.toList = l ++ (quote ++ m ++ quote) ++ r
  block : tripleQuote <+: quote ++ m ++ quote → quote = tripleQuote

theorem isQuote_of_text {t : Token} {quote : List Char} (h : t.isQuote = true)
    (ht : t.text = String.ofList quote) : IsQuote quote := by
  have toList {q : String} (hq : t.text = q) : quote = q.toList := by
    rw [← hq, ht, String.toList_ofList]
  exact (isQuote_iff.1 h).2.imp toList toList

/-- The quotes of a literal are tokens of the text. -/
theorem Delimited.exists_quotedAt (h : Delimited (codeOf source) s) :
    ∃ opening closing quote l m, QuotedAt source opening closing quote l m ∧
      s = ⟨opening.span.start, closing.span.stop⟩ := by
  obtain ⟨x, inside, y, behind, hsuf, hx, hy, htext, hinside, rfl⟩ := h
  have ho : InOrder 0 source.utf8ByteSize (codeOf source) := (inOrder_ofText source).filter _
  have hxm : x ∈ ofText source := mem_ofText_of_mem_codeOf (hsuf.subset (by simp))
  have hym : y ∈ ofText source := mem_ofText_of_mem_codeOf (hsuf.subset (by simp))
  -- the two quotes in the source
  obtain ⟨l, w, r, hl, hw, hxs⟩ := (laid_ofText source).exists_of_mem hxm
  obtain ⟨l', w', r', hl', hw', hys⟩ := (laid_ofText source).exists_of_mem hym
  obtain rfl : w = w' := by
    have := congrArg String.toList (hw'.symm.trans (htext.trans hw))
    simpa using this.symm
  rw [Nat.zero_add] at hxs hys
  have hxy : x.span.stop ≤ y.span.start :=
    List.rel_of_pairwise_cons (ho.pairwise.sublist hsuf.sublist) (by simp)
  rw [hxs, hys, ← bytes_append] at hxy
  obtain ⟨m, rfl, hr⟩ := exists_between ((hl.symm.trans hl').trans (List.append_assoc ..)) hxy
  have hsource : source.toList = l ++ (w ++ m ++ w) ++ r' := by
    simp [hl', List.append_assoc]
  refine ⟨x, y, w, l, m, ⟨hxm, hym, hx, hy, hw, hw', ?_, ?_, ⟨r', hsource⟩, fun hq => ?_⟩, rfl⟩
  · rw [hxs, bytes_append]
  · rw [hys, ← bytes_append]
  · refine (isQuote_of_text hx hw).resolve_left fun hone => ?_
    subst hone
    obtain ⟨rest, hrest⟩ := hq
    have hthree : source.toList = l ++ '"' :: '"' :: '"' :: (rest ++ r') := by
      rw [hsource, ← hrest, List.append_assoc]
      rfl
    have hplain := (isQuote_iff.1 hx).1
    have hyx := start_eq_of_two_behind hsuf hinside hplain hw hthree (by rw [hxs])
    rw [hxs, hys] at hyx
    simp only [bytes_append] at hyx
    obtain rfl : m = [] := eq_nil_of_bytes_eq_zero (by omega)
    simp [tripleQuote] at hrest

/-- What stands between two quotes, in a text and by its bytes; it begins with three quotes only in a
text block. -/
theorem Delimited.exists_between_quotes (h : Delimited (codeOf source) s) :
    ∃ quote, IsQuote quote ∧ ∃ l m r,
      source.toList = l ++ (quote ++ m ++ quote) ++ r ∧
      s = ⟨bytes l, bytes l + bytes (quote ++ m ++ quote)⟩ ∧
      (tripleQuote <+: quote ++ m ++ quote → quote = tripleQuote) := by
  obtain ⟨x, y, quote, l, m, hq, rfl⟩ := h.exists_quotedAt
  obtain ⟨r, hsource⟩ := hq.source_eq
  refine ⟨quote, isQuote_of_text hq.opening_quote hq.opening_text, l, m, r, hsource, ?_, hq.block⟩
  rw [hq.opening_span, hq.closing_span, ← bytes_append]
  simp [List.append_assoc]

/-- The contents of a literal are what stands between its quotes. -/
theorem contentSpan_quoted {quote l m : List Char} (hq : IsQuote quote)
    (hb : tripleQuote <+: quote ++ m ++ quote → quote = tripleQuote) :
    contentSpan ⟨bytes l, bytes l + bytes (quote ++ m ++ quote)⟩
        (String.ofList (quote ++ m ++ quote)) =
      ⟨bytes (l ++ quote), bytes (l ++ quote) + bytes m⟩ := by
  have hlen : (if tripleQuote.isPrefixOf (quote ++ m ++ quote) then 3 else 1) = bytes quote := by
    rcases hq with rfl | rfl
    · rw [if_neg fun hp => absurd (hb (List.isPrefixOf_iff_prefix.1 hp)) (by decide)]
      rfl
    · rw [if_pos (by simp)]
      rfl
  simp only [contentSpan, String.toList_ofList, hlen, bytes_append, Span.mk.injEq]
  omega

end InjectionPoints.Java
