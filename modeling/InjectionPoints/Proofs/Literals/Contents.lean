/-
The contents of a literal and its value. The contents are what stands between the two tokens that
delimit the literal, and the value is read from just that text: from all of it on a line, from what is
behind the first line feed in a text block (`exists_contentsBetween`).
-/
import InjectionPoints.Proofs.Literals.Delimited
import InjectionPoints.Proofs.Literals.Value

namespace InjectionPoints.Java

open Token StringLiteral

/-- The characters of a source where the contents of a literal stand. -/
def contentText (source : String) (literal : Tree) : List Char :=
  ((contentSpan literal.span (literal.text source)).text source).toList

/-- The literal stands between the tokens `opening` and `closing`, its contents are all that is between
them, and its value is made of its contents: of all in a line, of those behind the first line feed in
a text block. -/
structure ContentsBetween (source : String) (literal : Tree) (opening closing : Token) : Prop where
  opening_quote : opening.isQuote = true
  closing_quote : closing.isQuote = true
  same : closing.text = opening.text
  literal_span : literal.span = ⟨opening.span.start, closing.span.stop⟩
  contents_span : contentSpan literal.span (literal.text source) =
    ⟨opening.span.stop, closing.span.start⟩
  within : literal.span.start < opening.span.stop ∧ opening.span.stop ≤ closing.span.start ∧
    closing.span.start < literal.span.stop
  line : opening.text = "\"" →
    value (literal.text source) = String.ofList (unescape (contentText source literal))
  block : opening.text = "\"\"\"" → ∀ front rest, contentText source literal = front ++ '\n' :: rest →
    '\n' ∉ front → value (literal.text source) = String.ofList (unescape rest)
  flat_block : opening.text = "\"\"\"" → '\n' ∉ contentText source literal →
    value (literal.text source) = String.ofList (unescape (contentText source literal))

variable {quote m : List Char}

/-- Two quotes of a text and what a literal between them says. -/
theorem QuotedAt.contentsBetween {source : String} {opening closing : Token} {l : List Char}
    {literal : Tree} (h : QuotedAt source opening closing quote l m)
    (hs : literal.span = ⟨opening.span.start, closing.span.stop⟩) :
    ContentsBetween source literal opening closing := by
  have hq : IsQuote quote := isQuote_of_text h.opening_quote h.opening_text
  obtain ⟨r, hsource⟩ := h.source_eq
  have hspan : literal.span = ⟨bytes l, bytes l + bytes (quote ++ m ++ quote)⟩ := by
    rw [hs, h.opening_span, h.closing_span, ← bytes_append]
    simp [List.append_assoc]
  have htext : literal.text source = String.ofList (quote ++ m ++ quote) := by
    rw [Tree.text, hspan, text_of_toList_eq hsource]
  have hinside : contentSpan literal.span (literal.text source) =
      ⟨bytes (l ++ quote), bytes (l ++ quote) + bytes m⟩ := by
    rw [hspan, htext, contentSpan_quoted hq h.block]
  have hcontents : contentText source literal = m := by
    have hcut : source.toList = (l ++ quote) ++ m ++ (quote ++ r) := by
      simp [hsource, List.append_assoc]
    rw [contentText, hinside, text_of_toList_eq hcut, String.toList_ofList]
  have hquote {q : String} (hq : opening.text = q) : quote = q.toList := by
    rw [← hq, h.opening_text, String.toList_ofList]
  have hfilled : 0 < bytes quote := by
    rcases hq with rfl | rfl <;> decide
  refine ⟨h.opening_quote, h.closing_quote, by rw [h.opening_text, h.closing_text], hs, ?_, ?_, ?_,
    ?_, ?_⟩
  · rw [hinside, h.opening_span, h.closing_span, ← bytes_append]
  · rw [hs, h.opening_span, h.closing_span]
    simp only [bytes_append]
    omega
  · intro ho
    have hb := h.block
    obtain rfl : quote = ['"'] := hquote ho
    rw [hcontents, htext, value_line hb]
  · intro ho front rest hm hf
    obtain rfl : quote = tripleQuote := hquote ho
    rw [hcontents] at hm
    rw [htext, hm, value_block hf]
  · intro ho hm
    obtain rfl : quote = tripleQuote := hquote ho
    rw [hcontents] at hm ⊢
    rw [htext, value_flat_block hm]

/-- A string literal stands between two quotes of its text, its contents begin behind the first of them
and end in front of the second, and its value is read from its contents. -/
theorem exists_contentsBetween {source : String} {t literal : Tree}
    (h : Tree.ofText? source = some t) (hl : literal ∈ t.preorder)
    (hk : literal.kind = .stringLiteral) :
    ∃ opening ∈ ofText source, ∃ closing ∈ ofText source,
      ContentsBetween source literal opening closing := by
  obtain ⟨opening, closing, quote, l, m, hq, hs⟩ := (Tree.delimited_of_ofText? h hl hk).exists_quotedAt
  exact ⟨opening, hq.opening_mem, closing, hq.closing_mem, hq.contentsBetween hs⟩

/-- The second literal of `f("a\"", """""");`, a text block of nothing but its quotes. -/
theorem exists_contentsBetween_empty :
    let source := "f(\"a\\\"\", \"\"\"\"\"\");"
    ∃ t literal, Tree.ofText? source = some t ∧ literal ∈ t.preorder ∧
      literal.kind = .stringLiteral ∧ literal.text source = "\"\"\"\"\"\"" ∧
      ∃ opening ∈ ofText source, ∃ closing ∈ ofText source,
        ContentsBetween source literal opening closing := by
  intro source
  have hread : ((Tree.ofText? source).bind fun t =>
      (t.preorder.filter fun u => u.kind == .stringLiteral)[1]?.map fun u => u.text source) =
      some "\"\"\"\"\"\"" := by
    decide +kernel
  obtain ⟨t, ht, hu⟩ := Option.bind_eq_some_iff.1 hread
  obtain ⟨literal, hl, htext⟩ := Option.map_eq_some_iff.1 hu
  obtain ⟨hmem, hk⟩ := List.mem_filter.1 (List.mem_of_getElem? hl)
  have hkind : literal.kind = .stringLiteral := by simpa using hk
  exact ⟨t, literal, ht, hmem, hkind, htext, exists_contentsBetween ht hmem hkind⟩

end InjectionPoints.Java
