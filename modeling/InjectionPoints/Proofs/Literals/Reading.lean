/-
Texts that make a literal when they are put between quotes. A text without quotes and backslashes is
one token between the two quotes (`ofText_quoted`), and the grammar reads the three as a string
literal (`isLiteral_quoted`).
-/
import InjectionPoints.Proofs.Literals.Value

namespace InjectionPoints.Java

namespace Grammar

/-! ## Rules that can be read -/

namespace Rule

variable {grammar : Name → Rule} {fuel : Nat} {a b : Rule} {s s' : List Tree} {x : Token}
  {ts ts' : List Token}

theorem read_tok {q : String} (hx : x.isPlain = true) (h : x.text = q) :
    (tok q).read grammar (fuel + 1) s (x :: ts) = some (.leaf (.token q) x.span :: s, ts) := by
  have hnext : nextIs [] ts = false := by cases ts <;> simp [nextIs]
  simp [tok, Rule.read, takeJoined, hx, h, hnext]

theorem read_tok_eq_none {q : String} (h : x.text ≠ q) :
    (tok q).read grammar (fuel + 1) s (x :: ts) = none := by
  simp [tok, Rule.read, takeJoined, h]

theorem read_seq (h : a.read grammar fuel s ts = some (s', ts')) :
    (a ++ b).read grammar (fuel + 1) s ts = b.read grammar fuel s' ts' := by
  show (seq a b).read grammar (fuel + 1) s ts = _
  rw [Rule.read, h]

theorem read_seq_eq_none (h : a.read grammar fuel s ts = none) :
    (a ++ b).read grammar (fuel + 1) s ts = none := by
  show (seq a b).read grammar (fuel + 1) s ts = _
  rw [Rule.read, h]

theorem read_alt_left {r : List Tree × List Token} (h : a.read grammar fuel s ts = some r) :
    (alt a b).read grammar (fuel + 1) s ts = some r := by
  rw [Rule.read, h]

theorem read_alt_right (h : a.read grammar fuel s ts = none) :
    (alt a b).read grammar (fuel + 1) s ts = b.read grammar fuel s ts := by
  rw [Rule.read, h]

theorem read_many (h : a.read grammar fuel s ts = some (s', ts')) :
    (many a).read grammar (fuel + 1) s ts = (many a).read grammar fuel s' ts' := by
  rw [Rule.read, h]

theorem read_many_done (h : a.read grammar fuel s ts = none) :
    (many a).read grammar (fuel + 1) s ts = some (s, ts) := by
  rw [Rule.read, h]

end Rule

/-! ## The rule of literals -/

open Rule

variable {grammar : Name → Rule} {fuel : Nat} {q : String} {x y : Token} {inside : List Token}

/-- What is between the quotes of a literal. -/
def pieces : Rule :=
  oneOf [
    piece [.stringFragment, .multilineStringFragment, .escapeSequence],
    silent,
    node .stringInterpolation (tok "\\\x7b" ++ expression ++ closeBrace)]

theorem stringLiteral_eq :
    stringLiteral = node .stringLiteral
      (alt (tok "\"" ++ many pieces ++ tok "\"") (tok "\"\"\"" ++ many pieces ++ tok "\"\"\"")) :=
  rfl

/-- A token that is text of a literal. -/
def IsFragment (t : Token) : Prop :=
  t.kind = .piece .stringFragment ∨ t.kind = .piece .multilineStringFragment

/-- Nothing, or one token of text. -/
def IsFilling (ts : List Token) : Prop := ts = [] ∨ ∃ t, IsFragment t ∧ ts = [t]

theorem read_pieces_fragment (fuel : Nat) (s : List Tree) (ts : List Token) (h : IsFragment x) :
    ∃ t, pieces.read grammar (fuel + 2) s (x :: ts) = some (t :: s, ts) := by
  obtain ⟨k, text, span⟩ := x
  rcases h with rfl | rfl <;> exact ⟨_, read_alt_left rfl⟩

theorem read_pieces_quote {s : List Tree} {ts : List Token} (h : x.isQuote = true) :
    pieces.read grammar (fuel + 6) s (x :: ts) = none := by
  obtain ⟨hp, ht⟩ := Token.isQuote_iff.1 h
  have hne : x.text ≠ "\\\x7b" := by
    rcases ht with ht | ht <;> simp [ht]
  have hpiece (kinds : List Kind) (fuel : Nat) :
      (piece kinds).read grammar (fuel + 1) s (x :: ts) = none := by
    obtain ⟨k, text, span⟩ := x
    cases k <;> simp_all [Rule.read, Token.isPlain]
  have hsilent (fuel : Nat) : silent.read grammar (fuel + 1) s (x :: ts) = none := by
    obtain ⟨k, text, span⟩ := x
    cases k <;> simp_all [Rule.read, Token.isPlain]
  have hembedded (fuel : Nat) : (node .stringInterpolation
      (tok "\\\x7b" ++ expression ++ closeBrace)).read grammar (fuel + 4) s (x :: ts) = none := by
    rw [Rule.read, read_seq_eq_none (read_seq_eq_none (read_tok_eq_none hne))]
  exact (read_alt_right (hpiece _ _)).trans ((read_alt_right (hsilent _)).trans (hembedded fuel))

theorem read_between (grammar : Name → Rule) (fuel : Nat) (hx : x.isPlain = true)
    (hxt : x.text = q) (hy : y.isQuote = true) (hyt : y.text = q) (hi : IsFilling inside) :
    ∃ children, (tok q ++ many pieces ++ tok q).read grammar (fuel + 10) [] (x :: inside ++ [y]) =
      some (children, []) := by
  have hmany : ∃ s, (many pieces).read grammar (fuel + 8) [.leaf (.token q) x.span] (inside ++ [y]) =
      some (s, [y]) := by
    rcases hi with rfl | ⟨t, ht, rfl⟩
    · exact ⟨_, read_many_done (read_pieces_quote hy)⟩
    · obtain ⟨n, hn⟩ := read_pieces_fragment (fuel + 5) [.leaf (.token q) x.span] [y] ht
      exact ⟨_, (read_many hn).trans (read_many_done (read_pieces_quote hy))⟩
  obtain ⟨s, hs⟩ := hmany
  have hfront := (read_seq (b := many pieces) (read_tok hx hxt)).trans hs
  exact ⟨_, (read_seq hfront).trans (read_tok (Token.isQuote_iff.1 hy).1 hyt)⟩

/-- A quote, at most one token of text and the same quote are read as a literal. -/
theorem read_stringLiteral (fuel : Nat) (hx : x.isQuote = true) (hy : y.isQuote = true)
    (ht : y.text = x.text) (hi : IsFilling inside) :
    ∃ node, (ref .stringLiteral).read Grammar.rule (fuel + 13) [] (x :: inside ++ [y]) =
      some ([node], []) := by
  obtain ⟨hp, hxt⟩ := Token.isQuote_iff.1 hx
  have hread : ∃ children, (alt (tok "\"" ++ many pieces ++ tok "\"")
      (tok "\"\"\"" ++ many pieces ++ tok "\"\"\"")).read Grammar.rule (fuel + 11) []
        (x :: inside ++ [y]) = some (children, []) := by
    rcases hxt with hxt | hxt
    · obtain ⟨children, hc⟩ := read_between Grammar.rule fuel hp hxt hy (ht.trans hxt) hi
      exact ⟨children, read_alt_left hc⟩
    · obtain ⟨children, hc⟩ := read_between Grammar.rule fuel hp hxt hy (ht.trans hxt) hi
      refine ⟨children, (read_alt_right ?_).trans hc⟩
      exact read_seq_eq_none (read_seq_eq_none (read_tok_eq_none (by simp [hxt])))
  obtain ⟨children, hc⟩ := hread
  refine ⟨.branch .stringLiteral children.reverse, ?_⟩
  rw [Rule.read, Grammar.rule, stringLiteral_eq, Rule.read, hc]

end Grammar

/-! ## Tokens that can be cut off -/

namespace Token

open Scan

theorem tokensFrom_length (cs ds : List Char) (offset : Nat) (modes : List Mode) :
    tokensFrom cs.length offset modes (cs ++ ds) = tokensFrom 0 (offset + bytes cs) modes ds := by
  induction cs generalizing offset with
  | nil => rw [bytes_nil]; rfl
  | cons c cs ih =>
    rw [List.length_cons, List.cons_append, tokensFrom, ih, bytes_cons, Nat.add_assoc]

/-- A token is cut off a text when the scanner finds it there. -/
theorem exists_tokensFrom {modes modes' : List Mode} {c : Char} {w ds : List Char}
    {kind : TokenKind}
    (h : next modes c (w ++ ds) = ⟨some kind, 1 + w.length, modes'⟩) (offset : Nat) :
    ∃ s, tokensFrom 0 offset modes (c :: w ++ ds) =
      ⟨kind, String.ofList (c :: w), s⟩ :: tokensFrom 0 (offset + bytes (c :: w)) modes' ds := by
  refine ⟨⟨offset, offset + bytes (c :: w)⟩, ?_⟩
  simp only [List.cons_append, tokensFrom, h, Nat.add_sub_cancel_left, List.take_left,
    tokensFrom_length, bytes_cons, Nat.add_assoc]
  rw [← bytes_cons]
  rfl

end Token

/-! ## Texts between quotes -/

namespace StringLiteral

open Token Scan

/-- Whether a text is one string literal. -/
def isLiteral (text : String) : Bool :=
  let tokens := ofText text
  let rule := Grammar.Rule.ref .stringLiteral
  match rule.read Grammar.rule (Grammar.depth tokens.length) [] tokens with
  | some (_, []) => true
  | _ => false

/-- A text that holds nothing with a meaning of its own between the quotes. -/
structure Plain (quote cs : List Char) : Prop where
  chars : ∀ c ∈ cs, Scan.isPlain c = true
  block : quote = tripleQuote → '\n' ∉ cs

variable {quote cs : List Char}

theorem ne_of_isPlain {c : Char} (h : Scan.isPlain c = true) : c ≠ '"' ∧ c ≠ '\\' := by
  simpa [Scan.isPlain] using h

theorem Plain.kept (h : Plain quote cs) : Kept quote cs := by
  refine ⟨verbatim_of_forall fun c hc => (ne_of_isPlain (h.chars c hc)).2, h.block, ?_⟩
  rintro rfl m hm
  cases cs with
  | nil => simp [tripleQuote] at hm
  | cons c cs =>
    simp only [tripleQuote, List.cons_append, List.nil_append, List.cons.injEq, true_and] at hm
    exact (ne_of_isPlain (h.chars c List.mem_cons_self)).1 hm.1

/-- The tokens of a plain text between quotes, when the scanner goes from quote to quote. -/
theorem exists_ofText (mode : Mode) (kind : Kind) (w : List Char)
    (hopen : next [] '"' (w ++ (cs ++ '"' :: w)) = ⟨some .symbol, 1 + w.length, [mode]⟩)
    (hinside : ∀ c m, cs = c :: m →
      next [mode] c (m ++ '"' :: w) = ⟨some (.piece kind), 1 + m.length, [mode]⟩)
    (hclose : next [mode] '"' (w ++ []) = ⟨some .symbol, 1 + w.length, []⟩) :
    ∃ s s' inside, ofText (String.ofList ('"' :: w ++ (cs ++ '"' :: w))) =
        ⟨.symbol, String.ofList ('"' :: w), s⟩ :: inside ++
          [⟨.symbol, String.ofList ('"' :: w), s'⟩] ∧
      (inside = [] ∨ ∃ t, t.kind = .piece kind ∧ inside = [t]) := by
  obtain ⟨s, hs⟩ := exists_tokensFrom hopen 0
  have hend (offset : Nat) : ∃ s', tokensFrom 0 offset [mode] ('"' :: w) =
      [⟨.symbol, String.ofList ('"' :: w), s'⟩] := by
    obtain ⟨s', hs'⟩ := exists_tokensFrom hclose offset
    exact ⟨s', by simpa [tokensFrom] using hs'⟩
  rw [ofText, String.toList_ofList, hs]
  cases cs with
  | nil =>
    obtain ⟨s', hs'⟩ := hend (0 + bytes ('"' :: w))
    exact ⟨s, s', [], by rw [List.nil_append, hs']; rfl, .inl rfl⟩
  | cons c m =>
    obtain ⟨s₁, hs₁⟩ := exists_tokensFrom (hinside c m rfl) (0 + bytes ('"' :: w))
    obtain ⟨s', hs'⟩ := hend (0 + bytes ('"' :: w) + bytes (c :: m))
    exact ⟨s, s', [_], by rw [hs₁, hs']; rfl, .inr ⟨_, rfl, rfl⟩⟩

theorem takeWhile_isPlain (h : ∀ c ∈ cs, Scan.isPlain c = true) (ds : List Char) :
    (cs ++ '"' :: ds).takeWhile Scan.isPlain = cs :=
  Text.takeWhile_append_eq h fun c hc => by
    obtain rfl := Option.some.inj hc
    rfl

/-- A plain text between quotes is a quote, at most one token, and the quote again. -/
theorem ofText_quoted (hq : IsQuote quote)
    (h : ∀ c ∈ cs, Scan.isPlain c = true) :
    ∃ s s' inside, ofText (String.ofList (quote ++ cs ++ quote)) =
        ⟨.symbol, String.ofList quote, s⟩ :: inside ++ [⟨.symbol, String.ofList quote, s'⟩] ∧
      Grammar.IsFilling inside := by
  have hne (c : Char) (m : List Char) (hcs : cs = c :: m) :
      c ≠ '"' ∧ c ≠ '\\' ∧ ∀ d ∈ m, Scan.isPlain d = true := by
    subst hcs
    obtain ⟨h₁, h₂⟩ := ne_of_isPlain (h c List.mem_cons_self)
    exact ⟨h₁, h₂, fun d hd => h d (List.mem_cons_of_mem c hd)⟩
  rcases hq with rfl | rfl
  · have htwo : ['"', '"'].isPrefixOf (cs ++ ['"']) = false := by
      cases cs with
      | nil => rfl
      | cons c m => simp [List.isPrefixOf, (hne c m rfl).1.symm]
    have hopen : next [] '"' (cs ++ ['"']) = ⟨some .symbol, 1, [.line]⟩ := by
      have hcode : InCode [] := trivial
      rw [next_of_inCode hcode, code_quote, htwo]
      rfl
    have hinside (c : Char) (m : List Char) (hcs : cs = c :: m) :
        next [.line] c (m ++ ['"']) = ⟨some (.piece .stringFragment), 1 + m.length, [.line]⟩ := by
      obtain ⟨h₁, h₂, hm⟩ := hne c m hcs
      simp [next, line, here, h₁, h₂, takeWhile_isPlain hm]
    obtain ⟨s, s', inside, ht, hi⟩ := exists_ofText .line .stringFragment [] hopen hinside rfl
    refine ⟨s, s', inside, ht, hi.imp_right fun hone => ?_⟩
    obtain ⟨t, hk, he⟩ := hone
    exact ⟨t, .inl hk, he⟩
  · have hinside (c : Char) (m : List Char) (hcs : cs = c :: m) :
        next [.block] c (m ++ tripleQuote) =
          ⟨some (.piece .multilineStringFragment), 1 + m.length, [.block]⟩ := by
      obtain ⟨h₁, h₂, hm⟩ := hne c m hcs
      simp [next, block, here, h₁, h₂, tripleQuote, takeWhile_isPlain hm]
    obtain ⟨s, s', inside, ht, hi⟩ :=
      exists_ofText .block .multilineStringFragment ['"', '"'] rfl hinside rfl
    refine ⟨s, s', inside, ht, hi.imp_right fun hone => ?_⟩
    obtain ⟨t, hk, he⟩ := hone
    exact ⟨t, .inr hk, he⟩

/-- A plain text between quotes is a literal. -/
theorem isLiteral_quoted (hq : IsQuote quote)
    (h : ∀ c ∈ cs, Scan.isPlain c = true) :
    isLiteral (String.ofList (quote ++ cs ++ quote)) = true := by
  obtain ⟨s, s', inside, ht, hi⟩ := ofText_quoted hq h
  have hquote (s : Span) : (⟨.symbol, String.ofList quote, s⟩ : Token).isQuote = true := by
    rcases hq with rfl | rfl <;> rfl
  have hfuel (n : Nat) : ∃ fuel, Grammar.depth n = fuel + 13 :=
    ⟨Grammar.depth n - 13, by simp only [Grammar.depth]; omega⟩
  rw [isLiteral, ht]
  obtain ⟨fuel, hf⟩ := hfuel (⟨.symbol, String.ofList quote, s⟩ :: inside ++
    [⟨.symbol, String.ofList quote, s'⟩] : List Token).length
  obtain ⟨node, hread⟩ := Grammar.read_stringLiteral fuel (hquote s) (hquote s') rfl hi
  rw [hf, hread]

end StringLiteral

end InjectionPoints.Java
