/-
What is offered for completion selects what it was offered for. The literal of a member is read back
as the selector of that member (`parse?_literal`), so a variant, taken as the text of a reference,
selects every node whose best candidate it names; and the variants of a body are its literals, each
once, in the order of the text.
-/
import InjectionPoints.Proofs.PlainIndex
import InjectionPoints.Proofs.SelectorLiteral
import InjectionPoints.Target
import InjectionPoints.Usage

namespace InjectionPoints

open Java

variable {ix : ClassIndex}

/-! ## Literals of members -/

namespace QualifiedMember

theorem ownerChars (h : ix.Plain) (c : ix.ClassId) :
    (ix.decl c).internalName.toList ≠ [] ∧
      ∀ d ∈ (ix.decl c).internalName.toList, d ≠ ';' ∧ d ≠ '(' ∧ d ≠ ':' ∧ d ≠ '.' := by
  have h := (h.decl c).2.2.1
  simp only [ClassDecl.internalName, internalForm, Selector.internalChars, String.toList_ofList]
  refine ⟨by simpa using h.1, fun d hd => ?_⟩
  obtain ⟨e, he, rfl⟩ := List.mem_map.1 hd
  split
  · decide
  · next hdot =>
    rcases h.chars e he with hw | rfl
    · refine ⟨?_, ?_, ?_, by simpa using hdot⟩ <;> rintro rfl <;> exact absurd hw (by decide)
    · exact absurd rfl hdot

theorem nameChars_word {name : String} (h : name = constructorName ∨ IsWord name) :
    name.toList ≠ [] ∧ ∀ c ∈ name.toList, c ≠ '(' ∧ c ≠ ':' ∧ Text.isBlank c = false := by
  rcases h with rfl | hw
  · simp [constructorName]
    decide
  · refine ⟨hw.1, fun c hc => ⟨?_, ?_, isBlank_of_isWordChar (hw.chars c hc)⟩⟩ <;> rintro rfl <;>
      exact absurd (hw.chars _ hc) (by decide)

theorem nameChars (h : ix.Plain) (m : QualifiedMember ix) :
    m.member.name.toList ≠ [] ∧
      ∀ c ∈ m.member.name.toList, c ≠ '(' ∧ c ≠ ':' ∧ Text.isBlank c = false := by
  obtain ⟨member, qualifier⟩ := m
  cases member with
  | method id => exact nameChars_word ((h.decl id.owner).2.2.2.2.2.2 _ (List.getElem_mem _)).1
  | field id => exact nameChars_word (.inr ((h.decl id.owner).2.2.2.2.2.1 _ (List.getElem_mem _)).1)

theorem readable (h : ix.Plain) (m : QualifiedMember ix) :
    Selector.Readable (ix.decl m.owner).internalName.toList m.member.name.toList
      m.member.descriptor.toList m.member.isField := by
  obtain ⟨howner, hownerChars⟩ := ownerChars h m.owner
  obtain ⟨hname, hnameChars⟩ := nameChars h m
  refine ⟨howner, hownerChars, hname, hnameChars, ?_, ?_, ?_⟩
  · obtain ⟨member, qualifier⟩ := m
    cases member with
    | method id => exact ClassIndex.endsInk_methodDescriptor id
    | field id => exact ClassIndex.endsInk_descriptorWithin _ _ _ _
  · obtain ⟨member, qualifier⟩ := m
    cases member with
    | method id => simp [Member.isField]
    | field id =>
      intro _ hmem
      exact absurd (ClassIndex.isSpelling_iff.1 (h.fieldDescriptor id) _ hmem) (by decide)
  · obtain ⟨member, qualifier⟩ := m
    cases member with
    | method id => simp [Member.descriptor, ClassIndex.methodDescriptor]
    | field id => simp [Member.isField]

/-- The literal of a member is read back as its selector. -/
theorem parse?_literal (h : ix.Plain) (m : QualifiedMember ix) :
    Selector.parse? m.literal = some m.selector :=
  Selector.parse?_render (readable h m)

theorem isSelectedBy_selector (m : QualifiedMember ix) : m.isSelectedBy m.selector = true := by
  rw [isSelectedBy, Selector.selects_iff]
  simp [selector]

/-- Members with one literal are selected by each other's selectors. -/
theorem isSelectedBy_of_literal_eq (h : ix.Plain) {m n : QualifiedMember ix}
    (e : m.literal = n.literal) : m.isSelectedBy n.selector = true := by
  have hp := parse?_literal h m
  rw [e, parse?_literal h n, Option.some.injEq] at hp
  exact hp ▸ isSelectedBy_selector m

end QualifiedMember

namespace Usage

variable (s : Scope ix)

/-- The text of the variant that a node gives rise to. -/
def literal? (element : Element) (p : Place) : Option String :=
  (variant? s element p).map Variant.insertText

/-- A node's own literal selects it. -/
theorem mem_find?_of_literal? (h : ix.Plain) {element : Element} {body : Place} {text : String}
    (hw : ∃ p ∈ walked body, literal? s element p = some text) :
    ∃ found, find? s element body text false = some found ∧
      ∀ p ∈ walked body, literal? s element p = some text → p ∈ found := by
  obtain ⟨p₀, -, hp₀⟩ := hw
  unfold find?
  split
  · next hm =>
    have members_of : ∀ p, literal? s element p = some text →
        ∃ m ∈ members s element p, m.literal = text := by
      intro p hp
      simp only [literal?, variant?, hm, if_true, Option.map_map, Option.map_eq_some_iff] at hp
      obtain ⟨m, hhead, e⟩ := hp
      exact ⟨m, List.mem_of_head? hhead, e⟩
    obtain ⟨m₀, -, e₀⟩ := members_of p₀ hp₀
    have hparse := QualifiedMember.parse?_literal h m₀
    rw [e₀] at hparse
    rw [hparse, Option.map_some]
    refine ⟨_, rfl, fun p hp hl => ?_⟩
    obtain ⟨m, hmem, e⟩ := members_of p hl
    rw [collect_all, List.mem_filterMap]
    have hany : (members s element p).any (·.isSelectedBy m₀.selector) = true :=
      List.any_eq_true.2 ⟨m, hmem, QualifiedMember.isSelectedBy_of_literal_eq h (e.trans e₀.symm)⟩
    exact ⟨p, hp, by simp [hany]⟩
  · next hm =>
    refine ⟨_, rfl, fun p hp hl => ?_⟩
    rw [collect_all, List.mem_filterMap]
    refine ⟨p, hp, ?_⟩
    simp only [literal?, variant?, hm, Bool.false_eq_true, if_false, Option.map_map,
      Option.map_eq_some_iff] at hl
    obtain ⟨value, hv, rfl⟩ := hl
    simp [hv, stringVariant]

theorem map_insertText_collect (element : Element) (body : Place) :
    (collect false (variant? s element) body).map Variant.insertText =
      (walked body).filterMap (literal? s element) := by
  rw [collect_all, List.map_filterMap]
  rfl

/-- A text is offered exactly when it is the literal of a node of the walk. -/
theorem mem_insertText_variants {element : Element} {body : Place} {text : String} :
    text ∈ (variants s element body).map Variant.insertText ↔
      ∃ p ∈ walked body, literal? s element p = some text := by
  rw [variants, mem_map_firstsBy, map_insertText_collect, List.mem_filterMap]
  simp

/-- Every variant selects all nodes of the walk whose best candidate it names, at least one; no two
variants have the same text, they stand in the order of the first nodes that they name, and every
node with a candidate is selected by one of them. -/
theorem variants_select_back (h : ix.Plain) (s : Scope ix) (element : Element) (body : Place) :
    (∀ v ∈ variants s element body, ∃ found,
      find? s element body v.insertText false = some found ∧ found ≠ [] ∧
        ∀ p ∈ walked body, literal? s element p = some v.insertText → p ∈ found) ∧
    ((variants s element body).map Variant.insertText).Nodup ∧
    (((variants s element body).map Variant.insertText).Pairwise fun a b =>
      ((walked body).filterMap (literal? s element)).idxOf a <
        ((walked body).filterMap (literal? s element)).idxOf b) ∧
    ∀ p ∈ walked body, (literal? s element p).isSome = true → ∃ v ∈ variants s element body,
      ∃ found, find? s element body v.insertText false = some found ∧ p ∈ found := by
  have named : ∀ v ∈ variants s element body,
      ∃ p ∈ walked body, literal? s element p = some v.insertText := fun v hv =>
    (mem_insertText_variants s).1 (List.mem_map_of_mem hv)
  refine ⟨fun v hv => ?_, nodup_map_firstsBy _ _ _, ?_, fun p hp hsome => ?_⟩
  · obtain ⟨found, hf, hall⟩ := mem_find?_of_literal? s h (named v hv)
    obtain ⟨p, hp, hl⟩ := named v hv
    exact ⟨found, hf, List.ne_nil_of_mem (hall p hp hl), hall⟩
  · rw [← map_insertText_collect]
    exact firstsBy_pairwise _ _ _
  · obtain ⟨text, hl⟩ := Option.isSome_iff_exists.1 hsome
    obtain ⟨v, hv, rfl⟩ := List.mem_map.1 ((mem_insertText_variants s).2 ⟨p, hp, hl⟩)
    obtain ⟨found, hf, hall⟩ := mem_find?_of_literal? s h ⟨p, hp, hl⟩
    exact ⟨v, hv, found, hf, hall p hp hl⟩

/-! ## A generic method that calls itself -/

def genericText : String := "class A{int[] f;<T extends A>void m(T t){m(f);}}"

def genericWorkspace : Workspace := Workspace.empty.addFile "A.java" genericText

def genericMethod : genericWorkspace.index.MethodId :=
  ⟨⟨0, by decide +kernel⟩, ⟨0, by decide +kernel⟩⟩

def genericTarget : TargetMethod genericWorkspace.index :=
  (Target.declaration? genericWorkspace genericMethod).get (by decide +kernel)

def genericScope : Scope genericWorkspace.index :=
  .ofMethod genericText genericMethod genericTarget.declaration

theorem variants_select_back_generic :
    genericWorkspace.index.Plain ∧
      (variants genericScope .call genericTarget.body).map Variant.insertText = ["LA;m(LA;)V"] ∧
      ∀ v ∈ variants genericScope .call genericTarget.body, ∃ found,
        find? genericScope .call genericTarget.body v.insertText false = some found ∧ found ≠ [] ∧
          ∀ p ∈ walked genericTarget.body,
            literal? genericScope .call p = some v.insertText → p ∈ found :=
  ⟨by decide +kernel, by decide +kernel,
    (variants_select_back (by decide +kernel) genericScope .call genericTarget.body).1⟩

end Usage

end InjectionPoints
