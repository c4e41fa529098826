/-
Texts with the same code in different layout. `SameCode` compares their tokens without the comments
and without their places; then a `Shift` moves the tokens of one text to those of the other
(`exists_shift`). A span from one token to another one has the same text in both, layout apart, if
no comment stands inside (`dense_text_shift`).
-/
import InjectionPoints.Proofs.Tokens

namespace InjectionPoints.Java

/-! ## Code -/

/-- A token apart from its place. -/
structure Lexeme where
  kind : TokenKind
  text : String
  /-- Whether the next token continues this one. -/
  joined : Bool
deriving DecidableEq

namespace Token

/-- Tokens that are one symbol or keyword when they touch: a symbol that begins with `>`, since in a
text the character always stands alone, or `non-sealed`. -/
def seams : List (String × String) :=
  [(">", ">"), (">", "="), (">", "=="), ("=", ">"), ("=", "="), ("=", "=="), ("non", "-"),
    ("-", "sealed")]

/-- Whether the token and the next one make one symbol or keyword. -/
def isJoined (t : Token) : List Token → Bool
  | [] => false
  | u :: _ => seams.contains (t.text, u.text) && t.span.stop == u.span.start

/-- Tokens apart from their places. -/
def lexemes : List Token → List Lexeme
  | [] => []
  | t :: ts => ⟨t.kind, t.text, t.isJoined ts⟩ :: lexemes ts

/-- The tokens of a text that are no comments. -/
def codeOf (source : String) : List Token := (ofText source).filter fun t => !t.isComment

end Token

open Token

/-- Two texts have the same tokens in the same order: they differ at most in comments and in the
white space between tokens. -/
def SameCode (a b : String) : Prop := lexemes (codeOf a) = lexemes (codeOf b)

instance (a b : String) : Decidable (SameCode a b) :=
  inferInstanceAs (Decidable (lexemes (codeOf a) = lexemes (codeOf b)))

/-! ## Shifts -/

/-- Where the starts and the ends of tokens go. -/
structure Shift where
  start : Nat → Nat
  stop : Nat → Nat

namespace Shift

variable (m : Shift)

/-- The span between the places to which the ends of `s` go. -/
def span (s : Span) : Span := ⟨m.start s.start, m.stop s.stop⟩

/-- The token at its new place. -/
def token (t : Token) : Token := { t with span := m.span t.span }

@[simp] theorem span_start (s : Span) : (m.span s).start = m.start s.start := rfl

@[simp] theorem span_stop (s : Span) : (m.span s).stop = m.stop s.stop := rfl

@[simp] theorem token_kind (t : Token) : (m.token t).kind = t.kind := rfl

@[simp] theorem token_text (t : Token) : (m.token t).text = t.text := rfl

@[simp] theorem token_span (t : Token) : (m.token t).span = m.span t.span := rfl

@[simp] theorem token_isPlain (t : Token) : (m.token t).isPlain = t.isPlain := rfl

end Shift

variable {m : Shift} {lo hi lo' hi' : Nat} {t u x : Token} {ts us : List Token}

theorem exists_shift_of_lexemes (h : lexemes ts = lexemes us) (ho : InOrder lo hi ts) :
    ∃ m : Shift, us = ts.map m.token := by
  induction ts generalizing us lo with
  | nil =>
    cases us with
    | nil => exact ⟨⟨id, id⟩, rfl⟩
    | cons u us => simp [lexemes] at h
  | cons t ts ih =>
    cases us with
    | nil => simp [lexemes] at h
    | cons u us =>
      simp only [lexemes, List.cons.injEq, Lexeme.mk.injEq] at h
      obtain ⟨⟨hkind, htext, _⟩, h⟩ := h
      obtain ⟨_, hfilled, ho⟩ := ho
      obtain ⟨m, rfl⟩ := ih h ho
      -- the places of the tokens behind `t` are other ones than its own
      refine ⟨⟨fun n => if n = t.span.start then u.span.start else m.start n,
        fun n => if n = t.span.stop then u.span.stop else m.stop n⟩, ?_⟩
      rw [List.map_cons]
      congr 1
      · simp [Shift.token, Shift.span, hkind, htext]
      · refine List.map_congr_left fun x hx => ?_
        have hxo := ho.of_mem hx
        have hstart : x.span.start ≠ t.span.start := by omega
        have hstop : x.span.stop ≠ t.span.stop := by omega
        simp [Shift.token, Shift.span, hstart, hstop]

/-- The code of a text is moved to the same code in other layout. -/
theorem exists_shift {a b : String} (h : SameCode a b) :
    ∃ m : Shift, codeOf b = (codeOf a).map m.token :=
  exists_shift_of_lexemes h ((inOrder_ofText a).filter _)

/-- Tokens that keep their lexemes do so from each of them on. -/
theorem lexemes_of_suffix (h : lexemes (ts.map m.token) = lexemes ts) (hs : us <:+ ts) :
    lexemes (us.map m.token) = lexemes us := by
  obtain ⟨pre, rfl⟩ := hs
  induction pre with
  | nil => exact h
  | cons t pre ih =>
    simp only [List.cons_append, List.map_cons, lexemes, List.cons.injEq] at h
    exact ih h.2

/-! ## Texts of spans -/

section Order

variable (ho : InOrder lo hi ts) (ho' : InOrder lo' hi' (ts.map m.token))

include ho ho'

theorem filled_shift (hx : x ∈ ts) :
    x.span.start < x.span.stop ∧ m.start x.span.start < m.stop x.span.stop :=
  ⟨(ho.of_mem hx).2.1, (ho'.of_mem (List.mem_map_of_mem hx)).2.1⟩

/-- Two tokens are in the same order before and after a shift. -/
theorem apart_shift (hx : x ∈ ts) (hy : u ∈ ts) :
    x = u ∨ x.span.stop ≤ u.span.start ∧ m.stop x.span.stop ≤ m.start u.span.start ∨
      u.span.stop ≤ x.span.start ∧ m.stop u.span.stop ≤ m.start x.span.start :=
  pairwise_cases (ho.pairwise.and (List.pairwise_map.1 ho'.pairwise)) hx hy

theorem start_lt_stop_shift (ht : t ∈ ts) (hu : u ∈ ts) :
    m.start t.span.start < m.stop u.span.stop ↔ t.span.start < u.span.stop := by
  have htf := filled_shift ho ho' ht
  have huf := filled_shift ho ho' hu
  rcases apart_shift ho ho' ht hu with rfl | h | h <;> omega

/-- A token is between two others before and after a shift. -/
theorem covers_shift (ht : t ∈ ts) (hu : u ∈ ts) (hx : x ∈ ts) :
    (m.span ⟨t.span.start, u.span.stop⟩).covers (m.span x.span) =
      (⟨t.span.start, u.span.stop⟩ : Span).covers x.span := by
  have hxf := filled_shift ho ho' hx
  have htf := filled_shift ho ho' ht
  have huf := filled_shift ho ho' hu
  have hstart : m.start t.span.start ≤ m.start x.span.start ↔ t.span.start ≤ x.span.start := by
    rcases apart_shift ho ho' ht hx with rfl | h | h <;> omega
  have hstop : m.stop x.span.stop ≤ m.stop u.span.stop ↔ x.span.stop ≤ u.span.stop := by
    rcases apart_shift ho ho' hu hx with rfl | h | h <;> omega
  rw [Bool.eq_iff_iff, Span.covers_iff, Span.covers_iff]
  exact and_congr hstart hstop

end Order

/-- Whether no comment stands inside a span of a text. -/
def uncommented (source : String) (s : Span) : Bool :=
  (ofText source).all fun c => !(c.isComment && s.covers c.span)

theorem filter_covers_of_uncommented {source : String} {s : Span}
    (h : uncommented source s = true) :
    (ofText source).filter (fun x => s.covers x.span) =
      (codeOf source).filter fun x => s.covers x.span := by
  rw [codeOf, List.filter_filter]
  refine List.filter_congr fun c hc => ?_
  have hcc := List.all_eq_true.1 h c hc
  rw [Bool.not_and, Bool.or_eq_true, Bool.not_eq_true', Bool.not_eq_true'] at hcc
  rcases hcc with hcc | hcc <;> simp [hcc]

theorem mem_ofText_of_mem_codeOf {source : String} (h : t ∈ codeOf source) : t ∈ ofText source :=
  List.mem_of_mem_filter h

section Texts

variable {a b : String} (hm : codeOf b = (codeOf a).map m.token)

include hm

theorem mem_codeOf_shift (ht : t ∈ codeOf a) : m.token t ∈ codeOf b :=
  hm ▸ List.mem_map_of_mem ht

/-- A token has the same text wherever it is. -/
theorem text_shift (ht : t ∈ codeOf a) : (m.span t.span).text b = t.span.text a := by
  rw [text_of_mem (mem_ofText_of_mem_codeOf ht)]
  exact text_of_mem (mem_ofText_of_mem_codeOf (mem_codeOf_shift hm ht))

/-- From one token to another one the text is the same, layout apart, wherever they are, if no
comment stands in between. -/
theorem dense_text_shift (ht : t ∈ codeOf a) (hu : u ∈ codeOf a)
    (htu : t.span.start < u.span.stop)
    (hca : uncommented a ⟨t.span.start, u.span.stop⟩ = true)
    (hcb : uncommented b (m.span ⟨t.span.start, u.span.stop⟩) = true) :
    dense ((m.span ⟨t.span.start, u.span.stop⟩).text b).toList =
      dense ((⟨t.span.start, u.span.stop⟩ : Span).text a).toList := by
  have ho : InOrder 0 a.utf8ByteSize (codeOf a) := (inOrder_ofText a).filter _
  have ho' : InOrder 0 b.utf8ByteSize ((codeOf a).map m.token) := by
    rw [← hm]
    exact (inOrder_ofText b).filter _
  have hcovered : (codeOf b).filter (fun x =>
      (m.span ⟨t.span.start, u.span.stop⟩).covers x.span) =
        ((codeOf a).filter fun x =>
          (⟨t.span.start, u.span.stop⟩ : Span).covers x.span).map m.token := by
    rw [hm, List.filter_map]
    congr 1
    exact List.filter_congr fun x hx => covers_shift ho ho' ht hu hx
  have hb := dense_text (mem_ofText_of_mem_codeOf (mem_codeOf_shift hm ht))
    (mem_ofText_of_mem_codeOf (mem_codeOf_shift hm hu)) ((start_lt_stop_shift ho ho' ht hu).2 htu)
  calc dense ((m.span ⟨t.span.start, u.span.stop⟩).text b).toList
      = dense (chars ((ofText b).filter fun x =>
          (m.span ⟨t.span.start, u.span.stop⟩).covers x.span)) := hb
    _ = dense (chars (((codeOf a).filter fun x =>
          (⟨t.span.start, u.span.stop⟩ : Span).covers x.span).map m.token)) := by
        rw [filter_covers_of_uncommented hcb, hcovered]
    _ = dense (chars ((codeOf a).filter fun x =>
          (⟨t.span.start, u.span.stop⟩ : Span).covers x.span)) := by
        rw [chars, List.flatMap_map]
        rfl
    _ = dense ((⟨t.span.start, u.span.stop⟩ : Span).text a).toList := by
        rw [dense_text (mem_ofText_of_mem_codeOf ht) (mem_ofText_of_mem_codeOf hu) htu,
          filter_covers_of_uncommented hca]

end Texts

end InjectionPoints.Java
