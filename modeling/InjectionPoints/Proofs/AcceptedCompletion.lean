/-
Accepting a completion. The variant takes the place of what stands between the quotes of the literal
at the cursor, just as it is, so the literal says the variant exactly if the variant needs no escapes
there (`completions_accepted`). Selectors of members need none; the value of a string may, and then
the literal says something else (`not_value_accepted`).
-/
import InjectionPoints.Proofs.Completion
import InjectionPoints.Proofs.Cursors
import InjectionPoints.Proofs.Queries
import InjectionPoints.Proofs.Literals.Delimited
import InjectionPoints.Proofs.Literals.Reading

namespace InjectionPoints

open Java StringLiteral

/-- The text of a literal in which the completion is accepted. -/
def Completion.accepted (source : String) (literal : Span) (c : Completion) : String :=
  (⟨literal.start, c.replaceSpan.start⟩ : Span).text source ++ c.variant.insertText ++
    (⟨c.replaceSpan.stop, literal.stop⟩ : Span).text source

/-! ## Literals of members -/

/-- A character with no meaning of its own in any literal. -/
def Inert (c : Char) : Prop := Scan.isPlain c = true ∧ c ≠ '\n'

theorem plain_of_inert {quote cs : List Char} (h : ∀ c ∈ cs, Inert c) : Plain quote cs :=
  ⟨fun c hc => (h c hc).1, fun _ hlf => (h _ hlf).2 rfl⟩

theorem inert_of_isWordChar {c : Char} (h : isWordChar c = true) : Inert c := by
  refine ⟨?_, ?_⟩
  · rw [Scan.isPlain, Bool.not_eq_true', Bool.or_eq_false_iff, beq_eq_false_iff_ne,
      beq_eq_false_iff_ne]
    constructor <;> rintro rfl <;> exact absurd h (by decide)
  · rintro rfl
    exact absurd h (by decide)

theorem inert_of_isSpelling {s : String} (h : ClassIndex.IsSpelling s) : ∀ c ∈ s.toList, Inert c := by
  have hmarks : ∀ c ∈ '/' :: ';' :: typeMarks, Inert c := by
    simp [typeMarks, Inert, Scan.isPlain]
  intro c hc
  exact (ClassIndex.isSpelling_iff.1 h c hc).elim inert_of_isWordChar (hmarks c)

namespace QualifiedMember

variable {ix : ClassIndex}

theorem inert_name (h : ix.Plain) (m : Member ix) : ∀ c ∈ m.name.toList, Inert c := by
  have word {name : String} (hw : IsWord name) : ∀ c ∈ name.toList, Inert c := fun c hc =>
    inert_of_isWordChar (hw.chars c hc)
  cases m with
  | method id =>
    rcases ((h.decl id.owner).2.2.2.2.2.2 _ (List.getElem_mem _)).1 with hname | hname
    · rw [show (Member.method id).name = constructorName from hname]
      simp [constructorName, Inert, Scan.isPlain]
    · exact word hname
  | field id => exact word ((h.decl id.owner).2.2.2.2.2.1 _ (List.getElem_mem _)).1

theorem inert_descriptor (h : ix.Plain) (m : Member ix) : ∀ c ∈ m.descriptor.toList, Inert c := by
  cases m with
  | method id =>
    have hparameters : ∀ c ∈ (String.join (ix.parameterDescriptors id)).toList, Inert c := by
      rw [String.toList_join]
      intro c hc
      obtain ⟨d, hd, hc⟩ := List.mem_flatMap.1 hc
      exact inert_of_isSpelling (h.parameterDescriptors id d hd) c hc
    have hopen : ∀ c ∈ "(".toList, Inert c := by simp [Inert, Scan.isPlain]
    have hclose : ∀ c ∈ ")".toList, Inert c := by simp [Inert, Scan.isPlain]
    simp only [Member.descriptor, ClassIndex.methodDescriptor, String.toList_append,
      List.forall_mem_append]
    exact ⟨⟨⟨hopen, hparameters⟩, hclose⟩, inert_of_isSpelling (h.returnDescriptor id)⟩
  | field id => exact inert_of_isSpelling (h.fieldDescriptor id)

/-- The literal of a member has no meaning of its own in any string literal. -/
theorem inert_literal (h : ix.Plain) (m : QualifiedMember ix) : ∀ c ∈ m.literal.toList, Inert c := by
  have hmarks : Inert 'L' ∧ Inert ';' ∧ Inert ':' := by simp [Inert, Scan.isPlain]
  have hcolon : ∀ c ∈ if m.member.isField then [':'] else [], Inert c := by
    split <;> simp [hmarks]
  rw [literal, selector, Selector.toList_render]
  simp only [List.forall_mem_cons, List.forall_mem_append]
  exact ⟨hmarks.1, inert_of_isSpelling (h.internalName m.owner), hmarks.2.1, inert_name h m.member,
    hcolon, inert_descriptor h m.member⟩

end QualifiedMember

namespace Query

open Token Workspace

variable {files : List (String × String)} {path : String} {offset : Nat} {r : Reference}

/-- The literal at a cursor is a quote, some text and the same quote. -/
theorem exists_quoted_of_at? (hat : Reference.at? (ofFiles files) path offset = some r) :
    ∃ quote, IsQuote quote ∧ ∃ l m right,
      r.source.toList = l ++ (quote ++ m ++ quote) ++ right ∧
      r.literal.span = ⟨bytes l, bytes l + bytes (quote ++ m ++ quote)⟩ ∧
      (tripleQuote <+: quote ++ m ++ quote → quote = tripleQuote) := by
  obtain ⟨root, hr⟩ := exists_rootAt?_of_at? hat
  obtain ⟨t, rfl, ht⟩ := exists_readable hr
  obtain ⟨literal, hl, href⟩ := mem_literals_of_at? hr ht hat
  obtain ⟨hmem, hk⟩ := (mem_literals_iff hr).1 hl
  obtain ⟨file, hf, rfl, hs⟩ := exists_of_referenceOf? href
  obtain ⟨file', hf', hfile⟩ := Option.bind_eq_some_iff.1 hr
  obtain rfl : file = file' := Option.some.inj (hf.symm.trans hf')
  obtain ⟨path', hroot⟩ := exists_of_root? hfile
  rw [hroot] at hmem
  have hnode := Place.node_mem_preorder hmem
  have hkind : r.literal.node.kind = .stringLiteral := hk
  have hd := Tree.delimited_of_ofText? (SourceFile.ofText?_of_mem hnode (by simp [hkind])) hnode hkind
  rw [hs]
  exact hd.exists_between_quotes

/-- Accepting a completion keeps the quotes and puts the variant between them. -/
theorem accepted_eq {c : Completion} {quote l m right : List Char} {literal : Span}
    (hs : r.source.toList = l ++ (quote ++ m ++ quote) ++ right)
    (hl : literal = ⟨bytes l, bytes l + bytes (quote ++ m ++ quote)⟩)
    (hc : c.replaceSpan = ⟨bytes (l ++ quote), bytes (l ++ quote) + bytes m⟩) :
    c.accepted r.source literal =
      String.ofList (quote ++ c.variant.insertText.toList ++ quote) := by
  have hopen : (⟨bytes l, bytes (l ++ quote)⟩ : Span).text r.source = String.ofList quote := by
    rw [bytes_append]
    exact text_of_toList_eq (r := m ++ quote ++ right) (by simp [hs])
  have hclose : (⟨bytes (l ++ quote) + bytes m, bytes l + bytes (quote ++ m ++ quote)⟩ :
      Span).text r.source = String.ofList quote := by
    have hstop : bytes l + bytes (quote ++ m ++ quote) = bytes (l ++ quote ++ m) + bytes quote := by
      simp only [bytes_append]
      omega
    rw [hstop, ← bytes_append]
    exact text_of_toList_eq (r := right) (by simp [hs])
  rw [Completion.accepted, hl, hc, hopen, hclose, String.ofList_append, String.ofList_append,
    String.ofList_toList]

/-- A completion is a variant of the reference at the cursor. -/
theorem exists_of_mem_completions {ws : Workspace} {c : Completion}
    (h : c ∈ (completions ws path offset).value) :
    ∃ r, Reference.at? ws path offset = some r ∧ c.replaceSpan = r.contentSpan ∧
      ∃ element m, r.element = .ok element ∧ Target.resolve ws r.file r.point = .ok m ∧
        c.variant ∈ Usage.variants (Reference.scope ws m) element m.body := by
  rw [completions, ask] at h
  split at h
  · next r hr =>
    cases hv : r.variants ws with
    | error o => simp [hv, Logged.ofExcept, Except.map] at h
    | ok vs =>
      simp only [hv, Logged.ofExcept, Except.map, List.mem_map] at h
      obtain ⟨v, hmem, rfl⟩ := h
      simp only [Reference.variants, Except.bind_ok_iff] at hv
      obtain ⟨element, he, m, hm, hvs⟩ := hv
      obtain rfl := Except.ok.inj hvs
      exact ⟨r, hr, rfl, element, m, he, hm, hmem⟩
  · simp at h

/-- What accepting a completion makes of the literal at the cursor: the variant between the same
quotes. The literal then says the variant exactly if the variant stands for itself there. A variant
without quotes, backslashes and, in a text block, line feeds does, and what it makes is a literal;
the selectors of members are such variants where names and types are spelled plainly. -/
theorem completions_accepted (files : List (String × String)) (path : String) (offset : Nat)
    (c : Completion) (hc : c ∈ (completions (ofFiles files) path offset).value) :
    ∃ r quote old, Reference.at? (ofFiles files) path offset = some r ∧
      IsQuote quote ∧
      r.literal.text r.source = String.ofList (quote ++ old ++ quote) ∧
      c.replaceSpan.text r.source = String.ofList old ∧
      c.accepted r.source r.literal.span =
        String.ofList (quote ++ c.variant.insertText.toList ++ quote) ∧
      (value (c.accepted r.source r.literal.span) = c.variant.insertText ↔
        Kept quote c.variant.insertText.toList) ∧
      (Plain quote c.variant.insertText.toList →
        isLiteral (c.accepted r.source r.literal.span) = true ∧
        value (c.accepted r.source r.literal.span) = c.variant.insertText) ∧
      ((ofFiles files).index.Plain → ∀ element, r.element = .ok element → element.isMember = true →
        Plain quote c.variant.insertText.toList) := by
  obtain ⟨r, hat, hspan, element, m, he, -, hv⟩ := exists_of_mem_completions hc
  obtain ⟨quote, hq, l, old, right, hs, hl, hb⟩ := exists_quoted_of_at? hat
  have htext : r.literal.text r.source = String.ofList (quote ++ old ++ quote) := by
    have htext : r.literal.span.text r.source = String.ofList (quote ++ old ++ quote) := by
      rw [hl]
      exact text_of_toList_eq hs
    exact htext
  have hcontents : c.replaceSpan = ⟨bytes (l ++ quote), bytes (l ++ quote) + bytes old⟩ := by
    rw [hspan, Reference.contentSpan, htext, hl]
    exact contentSpan_quoted hq hb
  have haccepted := accepted_eq hs hl hcontents
  have hvalue : value (c.accepted r.source r.literal.span) = c.variant.insertText ↔
      Kept quote c.variant.insertText.toList := by
    rw [haccepted, ← value_quoted_iff hq, String.ofList_toList]
  refine ⟨r, quote, old, hat, hq, htext, ?_, haccepted, hvalue, fun hp => ?_, ?_⟩
  · rw [hcontents]
    exact text_of_toList_eq (r := quote ++ right) (by simp [hs])
  · refine ⟨?_, hvalue.2 hp.kept⟩
    rw [haccepted]
    exact isLiteral_quoted hq hp.chars
  · intro hix element' he' hmember
    obtain rfl : element = element' := Except.ok.inj (he.symm.trans he')
    obtain ⟨p, -, hp⟩ :=
      (Usage.mem_insertText_variants (Reference.scope (ofFiles files) m)).1 (List.mem_map_of_mem hv)
    simp only [Usage.literal?, Usage.variant?, hmember, if_true, Option.map_map,
      Option.map_eq_some_iff] at hp
    obtain ⟨n, -, hn⟩ := hp
    have hinert := QualifiedMember.inert_literal hix n
    rw [show n.literal = c.variant.insertText from hn] at hinert
    exact plain_of_inert hinert

/-! ## A string with a backslash -/

/-- A method that passes a `t` and a backslash before a `t`, and an injector that may name one. -/
def stringFiles : List (String × String) :=
  [("A.java", "class A\x7bvoid f()\x7bh(\"t\");h(\"\\\\t\");\x7d\x7d"),
    ("M.java", "@Mixin(A.class)class M\x7b@Inject(method=\"f\",at=@At(value=\"INVOKE_STRING\"," ++
      "target=\"\"))void g()\x7b\x7d\x7d")]

theorem completions_accepted_strings :
    ∃ c ∈ (completions (ofFiles stringFiles) "M.java" 79).value, c.variant.insertText = "t" ∧
      ∃ r, Reference.at? (ofFiles stringFiles) "M.java" 79 = some r ∧
        isLiteral (c.accepted r.source r.literal.span) = true ∧
        value (c.accepted r.source r.literal.span) = "t" := by
  have hmem : "t" ∈ (completions (ofFiles stringFiles) "M.java" 79).value.map
      fun c => c.variant.insertText := by
    decide +kernel
  obtain ⟨c, hc, htext⟩ := List.mem_map.1 hmem
  obtain ⟨r, quote, old, hat, -, -, -, -, -, hplain, -⟩ :=
    completions_accepted stringFiles "M.java" 79 c hc
  rw [htext] at hplain
  have ht : ∀ d ∈ "t".toList, Inert d := by simp [Inert, Scan.isPlain]
  exact ⟨c, hc, htext, r, hat, hplain (plain_of_inert ht)⟩

/-- The variant of a backslash before a `t` makes a literal that says a tab. -/
theorem not_value_accepted :
    ¬∀ (files : List (String × String)) (path : String) (offset : Nat) (c : Completion)
      (r : Reference), c ∈ (completions (ofFiles files) path offset).value →
        Reference.at? (ofFiles files) path offset = some r →
          isLiteral (c.accepted r.source r.literal.span) = true ∧
          value (c.accepted r.source r.literal.span) = c.variant.insertText := by
  intro h
  have hne : ((Reference.at? (ofFiles stringFiles) "M.java" 79).any fun r =>
      (completions (ofFiles stringFiles) "M.java" 79).value.any fun c =>
        value (c.accepted r.source r.literal.span) != c.variant.insertText) = true := by
    decide +kernel
  rw [Option.any_eq_true] at hne
  obtain ⟨r, hr, hne⟩ := hne
  obtain ⟨c, hc, hne⟩ := List.any_eq_true.1 hne
  exact absurd (h _ _ _ c r hc hr).2 (by simpa using hne)

end Query

end InjectionPoints
