/-
The quotes of a text. Literals begin in code only (`nested_next`), so a quote that is a token begins a
literal or ends one; and where two more quotes follow a single one, they are a token of their own, or
begin one (`exists_quote_behind`).
-/
import InjectionPoints.Proofs.Layout.Code
import InjectionPoints.Java.StringLiteral

namespace InjectionPoints.Java

/-- A token that begins or ends a string literal. -/
def Token.isQuote (t : Token) : Bool := t.isPlain && (t.text == "\"" || t.text == "\"\"\"")

theorem Token.isQuote_iff {t : Token} :
    t.isQuote = true ↔ t.isPlain = true ∧ (t.text = "\"" ∨ t.text = "\"\"\"") := by
  simp [isQuote]

theorem Token.isComment_of_isPlain {t : Token} (h : t.isPlain = true) : t.isComment = false := by
  cases hk : t.kind <;> simp_all [isPlain, isComment]

/-- The quotes of literals: one for a line, three for a text block. -/
def StringLiteral.IsQuote (quote : List Char) : Prop := quote = ['"'] ∨ quote = tripleQuote

/-! ## What the scanner makes of a quote -/

namespace Scan

/-- Outside of all literals, or in code that is embedded in one. -/
def InCode : List Mode → Prop
  | .line :: _ | .block :: _ => False
  | _ => True

/-- Literals begin in code only. -/
def Nested : List Mode → Prop
  | [] => True
  | .embedded _ :: modes => Nested modes
  | .line :: modes | .block :: modes => InCode modes ∧ Nested modes

variable {modes : List Mode} {c : Char} {cs : List Char}

theorem next_of_inCode (h : InCode modes) (c : Char) (cs : List Char) :
    next modes c cs = code modes c cs := by
  match modes with
  | [] => rfl
  | .embedded _ :: _ => rfl

theorem nested_behindBrace (h : Nested modes) (c : Char) : Nested (behindBrace c modes) := by
  match modes with
  | [] => exact h
  | .line :: _ => exact h
  | .block :: _ => exact h
  | .embedded n :: outer =>
    simp only [behindBrace]
    split
    · exact h
    · split
      · cases n <;> exact h
      · exact h

theorem modes_escape (modes : List Mode) (cs : List Char) : (escape modes cs).modes = modes := by
  rw [escape]
  split <;> rfl

theorem nested_code (h : Nested modes) (hc : InCode modes) : Nested (code modes c cs).modes := by
  rw [code]
  split
  · exact h
  · split
    · exact h
    · split
      · split <;> exact ⟨hc, h⟩
      · split
        · split <;> exact h
        · split
          · exact h
          · split
            · exact h
            · split
              · exact h
              · exact nested_behindBrace h c

/-- Literals begin in code only, whatever is scanned. -/
theorem nested_next (h : Nested modes) (c : Char) (cs : List Char) :
    Nested (next modes c cs).modes := by
  match modes with
  | [] => exact nested_code h trivial
  | .embedded n :: outer =>
    have hn : Nested (.embedded n :: outer) := h
    exact nested_code hn trivial
  | .line :: outer =>
    rw [next, line]
    split
    · exact h.2
    · split
      · split
        · exact h
        · rw [modes_escape]
          exact h
      · exact h
  | .block :: outer =>
    rw [next, block]
    split
    · split
      · exact h.2
      · exact h
    · split
      · split
        · exact h
        · rw [modes_escape]
          exact h
      · exact h

theorem code_quote (modes : List Mode) (cs : List Char) :
    code modes '"' cs =
      if ['"', '"'].isPrefixOf cs then ⟨some .symbol, 3, .block :: modes⟩
      else ⟨some .symbol, 1, .line :: modes⟩ :=
  rfl

/-- What a double quote is: three of them are one token, and one alone begins a line, or ends one in
code; else it is text of a block. -/
theorem next_quote (h : Nested modes) (cs : List Char) :
    (['"', '"'] <+: cs ∧ (next modes '"' cs).length = 3) ∨
      ((['"', '"'] <+: cs → InCode (next modes '"' cs).modes) ∧
        (next modes '"' cs).length = 1) ∨
      ∃ kind, (next modes '"' cs).kind = some (.piece kind) := by
  have opens (hm : InCode modes) : (['"', '"'] <+: cs ∧ (next modes '"' cs).length = 3) ∨
      ((['"', '"'] <+: cs → InCode (next modes '"' cs).modes) ∧
        (next modes '"' cs).length = 1) := by
    rw [next_of_inCode hm, code_quote]
    split
    · next hq => exact .inl ⟨List.isPrefixOf_iff_prefix.1 hq, rfl⟩
    · next hq => exact .inr ⟨fun hp => absurd (List.isPrefixOf_iff_prefix.2 hp) hq, rfl⟩
  match modes with
  | [] => exact (opens trivial).imp_right .inl
  | .embedded _ :: _ => exact (opens trivial).imp_right .inl
  | .line :: _ => exact .inr (.inl ⟨fun _ => h.1, rfl⟩)
  | .block :: outer =>
    have hblock : next (.block :: outer) '"' cs =
        if ['"', '"'].isPrefixOf cs then ⟨some .symbol, 3, outer⟩
        else here (.block :: outer) (.piece .multilineStringFragment) (1 + quotedLength cs) := rfl
    rw [hblock]
    split
    · next hq => exact .inl ⟨List.isPrefixOf_iff_prefix.1 hq, rfl⟩
    · exact .inr (.inr ⟨_, rfl⟩)

end Scan

namespace Token

open Scan

variable {t : Token}

/-- Behind the token `t`, a single quote among some characters, the scanner goes on: in code if two
more quotes follow. -/
def GoesOn (t : Token) (offset : Nat) (cs : List Char) (ts : List Token) : Prop :=
  ∃ l r behind, cs = l ++ '"' :: r ∧ t.span.start = offset + bytes l ∧
    t.span.stop = t.span.start + 1 ∧ (['"', '"'] <+: r → InCode behind) ∧
    tokensFrom 0 t.span.stop behind r ⊆ ts

theorem GoesOn.cons {offset : Nat} {c : Char} {cs : List Char} {ts us : List Token}
    (h : GoesOn t (offset + c.utf8Size) cs ts) (hts : ts ⊆ us) : GoesOn t offset (c :: cs) us := by
  obtain ⟨l, r, behind, rfl, hs, hstop, hm, hsub⟩ := h
  refine ⟨c :: l, r, behind, rfl, ?_, hstop, hm, List.Subset.trans hsub hts⟩
  rw [hs, bytes_cons, Nat.add_assoc offset]

theorem goesOn_of_mem {skip offset : Nat} {modes : List Mode} {cs : List Char}
    (hn : Nested modes) (ht : t ∈ tokensFrom skip offset modes cs) (hp : t.isPlain = true)
    (hq : t.text = "\"") : GoesOn t offset cs (tokensFrom skip offset modes cs) := by
  induction cs generalizing skip offset modes with
  | nil => simp [tokensFrom] at ht
  | cons c cs ih =>
    cases skip with
    | succ skip => exact (ih hn ht).cons (List.Subset.refl _)
    | zero =>
      have hrest := nested_next hn c cs
      simp only [tokensFrom] at ht ⊢
      split at ht
      · exact (ih hrest ht).cons (List.Subset.refl _)
      · next kind hk =>
        rcases List.mem_cons.1 ht with rfl | ht
        · -- the token is this quote
          have htext : c :: cs.take ((next modes c cs).length - 1) = ['"'] := by
            simpa using congrArg String.toList hq
          obtain ⟨rfl, htake⟩ := List.cons.inj htext
          rcases next_quote hn cs with ⟨htwo, hlen⟩ | ⟨hm, hlen⟩ | ⟨k, hpiece⟩
          · rw [hlen] at htake
            cases cs <;> simp at htake htwo
          · refine ⟨[], cs, (next modes '"' cs).modes, rfl, rfl, ?_, hm, ?_⟩
            · rw [htext]
              rfl
            · rw [htext, hlen]
              exact List.subset_cons_self _ _
          · rw [hk, Option.some.injEq] at hpiece
            simp [isPlain, hpiece] at hp
        · exact (ih hrest ht).cons (List.subset_cons_self _ _)

/-- In code a quote is a token. -/
theorem exists_quote_of_inCode {offset : Nat} {modes : List Mode} (hm : InCode modes)
    (cs : List Char) :
    ∃ u ∈ tokensFrom 0 offset modes ('"' :: cs), u.isQuote = true ∧ u.span.start = offset := by
  by_cases hq : ['"', '"'].isPrefixOf cs = true
  · have hnext : next modes '"' cs = ⟨some .symbol, 3, .block :: modes⟩ := by
      rw [next_of_inCode hm, code_quote, if_pos hq]
    obtain ⟨rest, rfl⟩ := List.isPrefixOf_iff_prefix.1 hq
    simp only [tokensFrom, hnext]
    exact ⟨_, List.mem_cons_self, rfl, rfl⟩
  · have hnext : next modes '"' cs = ⟨some .symbol, 1, .line :: modes⟩ := by
      rw [next_of_inCode hm, code_quote, if_neg hq]
    simp only [tokensFrom, hnext]
    exact ⟨_, List.mem_cons_self, rfl, rfl⟩

/-- A single quote is not followed by two more unless another quote begins right behind it. -/
theorem exists_quote_behind {source : String} {l r : List Char} (ht : t ∈ ofText source)
    (hp : t.isPlain = true) (hq : t.text = "\"") (hs : source.toList = l ++ '"' :: '"' :: '"' :: r)
    (hl : t.span.start = bytes l) :
    ∃ u ∈ ofText source, u.isQuote = true ∧ u.span.start = t.span.stop := by
  have hn : Nested [] := trivial
  obtain ⟨l', r', behind, hcs, hstart, _, hm, hsub⟩ := goesOn_of_mem hn ht hp hq
  have hbytes : bytes l = bytes l' := by omega
  obtain ⟨m, rfl, hr⟩ := exists_between (hs.symm.trans hcs) (Nat.le_of_eq hbytes)
  rw [bytes_append] at hbytes
  obtain rfl : m = [] := eq_nil_of_bytes_eq_zero (by omega)
  obtain rfl : '"' :: '"' :: r = r' := (List.cons.inj hr).2
  obtain ⟨u, hu, hquote, hstart⟩ := exists_quote_of_inCode (hm ⟨r, rfl⟩) ('"' :: r)
  exact ⟨u, hsub hu, hquote, hstart⟩

end Token

end InjectionPoints.Java
