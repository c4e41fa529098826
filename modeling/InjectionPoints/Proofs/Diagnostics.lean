/-
Diagnostics of a file and the question at a cursor. The diagnostics of a file report the literals at
which a cursor is told that nothing is found, each once and in the order of the text; and such a
literal tells it everywhere but inside an attribute (`diagnostics_of_cursors`). A string with an
annotation inside shows that the attributes matter (`not_isUnresolved_in_attribute`).
-/
import InjectionPoints.Proofs.Cursors
import InjectionPoints.Proofs.Queries

namespace InjectionPoints

open Java

namespace Query

variable (ws : Workspace) (path : String)

/-- A literal is a reference that applies and selects nothing. -/
def misses (literal : Place) : Bool :=
  (referenceOf? ws path literal).any fun r => (Logged.ofExcept false (r.isUnresolved ws)).value

theorem references_eq : references ws path = (literals ws path).filterMap (referenceOf? ws path) := by
  unfold references literals rootAt? referenceOf?
  cases ws.fileId? path with
  | none => rfl
  | some file => cases h : ws.root? file <;> simp [h]

variable {ws path}

section Cursor

variable {t : Tree} {literal : Place} {offset : Nat}

/-- A cursor is told that nothing is found exactly in the literals that miss, their attributes
apart. -/
theorem isUnresolved_iff (hr : rootAt? ws path = some (.root t)) (h : t.Readable)
    (ha : LiteralsApart ws path) :
    (isUnresolved ws path offset).value = true ↔ ∃ literal ∈ literals ws path,
      literal.Holds offset ∧ ¬literal.InAttribute offset ∧ misses ws path literal = true := by
  have hask : (isUnresolved ws path offset).value = (Reference.at? ws path offset).any fun r =>
      (Logged.ofExcept false (r.isUnresolved ws)).value := by
    rw [isUnresolved, ask]
    cases Reference.at? ws path offset <;> rfl
  rw [hask, Option.any_eq_true]
  constructor
  · intro hx
    obtain ⟨r, hat, hmiss⟩ := hx
    obtain ⟨literal, h₁, h₂, h₃, hl⟩ := (at?_eq_some_iff hr h ha).1 hat
    exact ⟨literal, h₁, h₂, h₃, by rw [misses, hl]; exact hmiss⟩
  · intro hx
    obtain ⟨literal, h₁, h₂, h₃, hmiss⟩ := hx
    obtain ⟨r, hl, hmiss⟩ := (Option.any_eq_true _ _).1 hmiss
    exact ⟨r, (at?_eq_some_iff hr h ha).2 ⟨literal, h₁, h₂, h₃, hl⟩, hmiss⟩

/-- Only one literal is around a cursor. -/
theorem literal_unique (hr : rootAt? ws path = some (.root t)) (h : t.Readable)
    (ha : LiteralsApart ws path) {other : Place} (hl : literal ∈ literals ws path)
    (ho : other ∈ literals ws path) (hheld : literal.Holds offset) (hoheld : other.Holds offset) :
    other = literal := by
  have hlt := ((mem_literals_iff hr).1 hl).1
  have hot := ((mem_literals_iff hr).1 ho).1
  rcases Place.nested_or_apart (r := .root t) h.ordered hlt hot with hin | hin | hle | hle
  · exact (ha other ho literal hl hin).symm
  · exact ha literal hl other ho hin
  · exact absurd (Nat.le_trans hle hoheld.1) (Nat.not_le.2 hheld.2)
  · exact absurd (Nat.le_trans hle hheld.1) (Nat.not_le.2 hoheld.2)

/-- A literal misses exactly when it is told so at some cursor inside. -/
theorem misses_iff_exists (hr : rootAt? ws path = some (.root t)) (h : t.Readable)
    (ha : LiteralsApart ws path) (hl : literal ∈ literals ws path) :
    misses ws path literal = true ↔
      ∃ offset, literal.Holds offset ∧ (isUnresolved ws path offset).value = true := by
  constructor
  · intro hmiss
    obtain ⟨hlt, hk⟩ := (mem_literals_iff hr).1 hl
    obtain ⟨offset, hheld, hno⟩ := exists_not_inAttribute h hlt hk
    exact ⟨offset, hheld, (isUnresolved_iff hr h ha).2 ⟨literal, hl, hheld, hno, hmiss⟩⟩
  · intro hx
    obtain ⟨offset, hheld, hu⟩ := hx
    obtain ⟨other, ho, hoheld, _, hmiss⟩ := (isUnresolved_iff hr h ha).1 hu
    rwa [literal_unique hr h ha hl ho hheld hoheld] at hmiss

/-- Literals apart come one behind the other. -/
theorem pairwise_literals (hr : rootAt? ws path = some (.root t)) (h : t.Readable)
    (ha : LiteralsApart ws path) :
    (literals ws path).Pairwise fun a b => a.stop ≤ b.start := by
  have hp := (Place.pairwise_preorder (q := .root t) h.ordered).filter fun p => p.kind == .stringLiteral
  have he : literals ws path = (Place.root t).preorder.filter fun p => p.kind == .stringLiteral := by
    rw [literals, hr]
  rw [← he] at hp
  refine hp.imp_of_mem fun {a b} hla hlb hab => ?_
  rcases hab with ⟨hin, hne⟩ | hle
  · exact absurd (ha a hla b hlb hin).symm hne
  · exact hle

end Cursor

/-! ## Diagnostics -/

/-- The text of the file with a path. -/
def sourceAt (ws : Workspace) (path : String) : String := ((ws.fileId? path).map ws.text).getD ""

/-- The diagnostic for a literal that selects nothing: its string, and where its characters are. -/
def diagnosticAt (source : String) (literal : Place) : Diagnostic :=
  { severity := .error
    code := "MIXIN_UNRESOLVED_TARGET"
    message := "Cannot resolve target reference '" ++ Annotations.stringAt source literal ++ "'"
    span := StringLiteral.contentSpan literal.span (literal.text source) }

/-- Taking what is wanted out of what some elements give, or first the elements that give it. -/
theorem map_filter_filterMap {α β γ : Type} {f : α → Option β} {wanted : β → Bool} {g : β → γ}
    {g' : α → γ} (h : ∀ a b, f a = some b → g b = g' a) (l : List α) :
    ((l.filterMap f).filter wanted).map g = (l.filter fun a => (f a).any wanted).map g' := by
  induction l with
  | nil => rfl
  | cons a l ih =>
    cases hf : f a with
    | none => simpa [hf] using ih
    | some b => cases hw : wanted b <;> simp [hf, hw, ih, h a b hf]

/-- The diagnostics of a file are those of the literals that miss. -/
theorem diagnostics_value (ws : Workspace) (path : String) : (diagnostics ws path).value =
    ((literals ws path).filter (misses ws path)).map (diagnosticAt (sourceAt ws path)) := by
  have hshow : ∀ literal r, referenceOf? ws path literal = some r →
      Diagnostic.unresolved r = diagnosticAt (sourceAt ws path) literal := by
    intro literal r hr
    obtain ⟨file, hf, rfl, hs⟩ := exists_of_referenceOf? hr
    simp [Diagnostic.unresolved, diagnosticAt, Reference.text, Reference.contentSpan, sourceAt, hf, hs]
  have hvalue : (diagnostics ws path).value = ((references ws path).filter fun r =>
      (Logged.ofExcept false (r.isUnresolved ws)).value).map .unresolved := by
    simp [diagnostics, List.filter_map, Function.comp_def]
  rw [hvalue, references_eq, map_filter_filterMap hshow]
  rfl

open Workspace

/-- The diagnostics of a file and what cursors in it are told. Reported are, in the order of the text
and each once, the literals in which some cursor is told that nothing is found. In such a literal
every cursor is told so that is in no attribute inside the literal, and outside of these literals no
cursor is. -/
theorem diagnostics_of_cursors (files : List (String × String)) (path : String)
    (ha : LiteralsApart (ofFiles files) path) :
    ∃ reported : List Place,
      (diagnostics (ofFiles files) path).value =
        reported.map (diagnosticAt (sourceAt (ofFiles files) path)) ∧
      (reported.Pairwise fun a b => a.stop ≤ b.start) ∧ reported.Nodup ∧
      (∀ literal, literal ∈ reported ↔ literal ∈ literals (ofFiles files) path ∧
        ∃ offset, literal.Holds offset ∧ (isUnresolved (ofFiles files) path offset).value = true) ∧
      (∀ literal ∈ reported, ∀ offset, literal.Holds offset →
        ((isUnresolved (ofFiles files) path offset).value = true ↔ ¬literal.InAttribute offset)) ∧
      ∀ offset, (∀ literal ∈ reported, ¬literal.Holds offset) →
        (isUnresolved (ofFiles files) path offset).value = false := by
  refine ⟨_, diagnostics_value _ path, ?_⟩
  cases hr : rootAt? (ofFiles files) path with
  | none =>
    have hnone : ∀ offset, (isUnresolved (ofFiles files) path offset).value = false := by
      intro offset
      have hat : Reference.at? (ofFiles files) path offset = none := by
        rw [rootAt?, Option.bind_eq_none_iff] at hr
        rw [Reference.at?, Option.bind_eq_bind, Option.bind_eq_none_iff]
        intro file hf
        rw [hr file hf]
        rfl
      rw [isUnresolved, ask, hat]
    simp [literals, hr, hnone]
  | some root =>
    obtain ⟨t, rfl, h⟩ := exists_readable hr
    have hp := (pairwise_literals hr h ha).filter (misses (ofFiles files) path)
    simp only [List.mem_filter]
    refine ⟨hp, hp.imp_of_mem fun {a b} hma _ hle e => ?_, fun literal => ?_,
      fun literal hx offset hheld => ?_, fun offset hout => ?_⟩
    · obtain ⟨hlt, hk⟩ := (mem_literals_iff hr).1 (List.mem_filter.1 hma).1
      obtain ⟨offset, ⟨h₁, h₂⟩, _⟩ := exists_not_inAttribute h hlt hk
      subst e
      omega
    · exact and_congr_right fun hl => misses_iff_exists hr h ha hl
    · obtain ⟨hl, hmiss⟩ := hx
      rw [isUnresolved_iff hr h ha]
      constructor
      · intro hx
        obtain ⟨other, ho, hoheld, hno, _⟩ := hx
        rwa [literal_unique hr h ha hl ho hheld hoheld] at hno
      · intro hno
        exact ⟨literal, hl, hheld, hno, hmiss⟩
    · rw [← Bool.not_eq_true, isUnresolved_iff hr h ha]
      intro hx
      obtain ⟨literal, hl, hheld, _, hmiss⟩ := hx
      exact hout literal ⟨hl, hmiss⟩ hheld

/-! ## A string with an annotation inside -/

/-- Literals that come one behind the other are apart. -/
theorem literalsApart_of_pairwise {files : List (String × String)} {path : String}
    (hp : (literals (ofFiles files) path).Pairwise fun a b => a.stop ≤ b.start) :
    LiteralsApart (ofFiles files) path := by
  intro a hla b hlb hin
  cases hr : rootAt? (ofFiles files) path with
  | none => simp [literals, hr] at hla
  | some root =>
    obtain ⟨t, rfl, h⟩ := exists_readable hr
    have hat := ((mem_literals_iff hr).1 hla).1
    obtain ⟨hbt, hbk⟩ := (mem_literals_iff hr).1 hlb
    have hoa := (Place.ordered_of_mem_preorder (q := .root t) h.ordered hat).2.1
    obtain ⟨h₁, _, h₂⟩ := Place.ordered_of_mem_preorder hoa hin
    obtain ⟨offset, ⟨h₃, h₄⟩, _⟩ := exists_not_inAttribute h hbt hbk
    rcases pairwise_cases hp hla hlb with rfl | hle | hle
    · rfl
    · omega
    · omega

def annotatedFiles : List (String × String) :=
  [("T", "class T\x7bvoid t()\x7b\x7d\x7d"),
    ("M", "@Mixin(T.class)class M\x7b@Inject(method=\"t\",at=@At(value=\"INVOKE\"," ++
      "target=\"g\\\x7bnew @A(x=1)B()\x7d\"))void h()\x7b\x7d\x7d")]

/-- Where the literals are, and what is told: in the last literal the attribute is at 82. -/
theorem annotatedFiles_run :
    (literals (ofFiles annotatedFiles) "M").map Place.span = [⟨38, 41⟩, ⟨55, 63⟩, ⟨71, 91⟩] ∧
      (diagnostics (ofFiles annotatedFiles) "M").value.length = 1 ∧
      (isUnresolved (ofFiles annotatedFiles) "M" 71).value = true ∧
      (isUnresolved (ofFiles annotatedFiles) "M" 82).value = false := by
  decide +kernel

theorem annotatedFiles_apart : LiteralsApart (ofFiles annotatedFiles) "M" := by
  have hspans : ((literals (ofFiles annotatedFiles) "M").map Place.span).Pairwise
      fun s s' => s.stop ≤ s'.start := by
    rw [annotatedFiles_run.1]
    decide
  exact literalsApart_of_pairwise (List.pairwise_map.1 hspans)

theorem diagnostics_of_annotated :
    LiteralsApart (ofFiles annotatedFiles) "M" ∧
      ∃ literal, (diagnostics (ofFiles annotatedFiles) "M").value =
          [diagnosticAt (sourceAt (ofFiles annotatedFiles) "M") literal] ∧
        ∀ offset, literal.Holds offset →
          ((isUnresolved (ofFiles annotatedFiles) "M" offset).value = true ↔
            ¬literal.InAttribute offset) := by
  obtain ⟨reported, hd, _, _, _, hin, _⟩ :=
    diagnostics_of_cursors annotatedFiles "M" annotatedFiles_apart
  have hlen := annotatedFiles_run.2.1
  rw [hd, List.length_map] at hlen
  obtain ⟨literal, rfl⟩ := List.length_eq_one_iff.1 hlen
  exact ⟨annotatedFiles_apart, literal, hd, hin literal (List.mem_singleton.2 rfl)⟩

/-- At the attribute in the string no cursor is told that nothing is found. -/
theorem not_isUnresolved_in_attribute :
    ¬∀ (files : List (String × String)) (path : String), LiteralsApart (ofFiles files) path →
      ∀ literal ∈ literals (ofFiles files) path,
        (∃ offset, literal.Holds offset ∧
          (isUnresolved (ofFiles files) path offset).value = true) →
        ∀ offset, literal.Holds offset → (isUnresolved (ofFiles files) path offset).value = true := by
  intro hall
  obtain ⟨hspans, _, hquote, hattribute⟩ := annotatedFiles_run
  obtain ⟨literal, hl, hs⟩ : ∃ literal ∈ literals (ofFiles annotatedFiles) "M",
      literal.span = ⟨71, 91⟩ := List.mem_map.1 (by rw [hspans]; simp)
  have hheld : ∀ offset, 71 ≤ offset → offset < 91 → literal.Holds offset := by
    intro offset h₁ h₂
    rw [Place.Holds, show literal.start = 71 from congrArg Span.start hs,
      show literal.stop = 91 from congrArg Span.stop hs]
    exact ⟨h₁, h₂⟩
  have htold := hall annotatedFiles "M" annotatedFiles_apart literal hl
    ⟨71, hheld 71 (by decide) (by decide), hquote⟩ 82 (hheld 82 (by decide) (by decide))
  rw [hattribute] at htold
  exact Bool.false_ne_true htold

end Query

end InjectionPoints
