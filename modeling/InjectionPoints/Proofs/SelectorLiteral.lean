/-
Reading the literal of a selector back. `parse?_render` says that a selector with an owner, a name
and a descriptor is read back from its literal as it was, when its parts hold none of the characters
at which a literal is cut (`Readable`).
-/
import InjectionPoints.Selector

namespace InjectionPoints

open Text

namespace Text

theorem dropWhile_isBlank_eq_self {cs : List Char} (h : ∀ c ∈ cs.head?, isBlank c = false) :
    cs.dropWhile isBlank = cs := by
  cases cs with
  | nil => rfl
  | cons c cs => exact List.dropWhile_cons_of_neg (by simp [h c (by simp)])

theorem trimChars_eq_self {cs : List Char} (hh : ∀ c ∈ cs.head?, isBlank c = false)
    (hl : ∀ c ∈ cs.getLast?, isBlank c = false) : trimChars cs = cs := by
  unfold trimChars
  rw [dropWhile_isBlank_eq_self hh, dropWhile_isBlank_eq_self (by simpa using hl),
    List.reverse_reverse]

theorem trimChars_of_forall {cs : List Char} (h : ∀ c ∈ cs, isBlank c = false) :
    trimChars cs = cs :=
  trimChars_eq_self (fun c hc => h c (List.mem_of_mem_head? hc))
    fun c hc => h c (List.mem_of_mem_getLast? hc)

theorem cutFirst_append {α : Type} {p : α → Bool} {x : List α} (a : α) (y : List α) (ha : p a = true)
    (hx : ∀ b ∈ x, p b = false) : cutFirst p (x ++ a :: y) = some (x, y) :=
  cutFirst_eq_some_iff.2 ⟨a, rfl, ha, hx⟩

end Text

namespace Selector

/-- Parts of a selector that can be told apart in its literal: neither owner nor name is empty, the
owner holds no character that ends it, the name none that begins a descriptor, and the descriptor
begins as that of a method does exactly when it is no field's. -/
structure Readable (owner name descriptor : List Char) (ofField : Bool) : Prop where
  owner_ne : owner ≠ []
  owner_chars : ∀ c ∈ owner, c ≠ ';' ∧ c ≠ '(' ∧ c ≠ ':' ∧ c ≠ '.'
  name_ne : name ≠ []
  name_chars : ∀ c ∈ name, c ≠ '(' ∧ c ≠ ':' ∧ isBlank c = false
  ends : ∃ c, descriptor.getLast? = some c ∧ isBlank c = false
  field : ofField = true → '(' ∉ descriptor
  method : ofField = false → descriptor.head? = some '('

theorem splitOwnerDescriptor_eq_some_iff {cs owner rest : List Char} :
    splitOwnerDescriptor cs = some (owner, rest) ↔
      cs = 'L' :: (owner ++ ';' :: rest) ∧ owner ≠ [] ∧
        ∀ c ∈ owner, c ≠ ';' ∧ c ≠ '(' ∧ c ≠ ':' ∧ c ≠ '.' := by
  constructor
  · intro h
    unfold splitOwnerDescriptor at h
    split at h
    · rename_i cs
      split at h
      · rename_i o r hcut
        split at h
        · simp at h
        · rename_i hbad
          simp only [Option.some.injEq, Prod.mk.injEq] at h
          obtain ⟨rfl, rfl⟩ := h
          obtain ⟨a, rfl, ha, ho⟩ := cutFirst_eq_some_iff.1 hcut
          simp only [Bool.or_eq_true, not_or, Bool.not_eq_true, List.any_eq_false,
            List.isEmpty_eq_false_iff] at hbad
          rw [beq_iff_eq] at ha
          subst ha
          refine ⟨rfl, hbad.1, fun c hc => ⟨by simpa using ho c hc, ?_⟩⟩
          simpa [and_assoc] using hbad.2 c hc
      · simp at h
    · simp at h
  · intro hx
    obtain ⟨rfl, hne, h⟩ := hx
    have hcut : cutFirst (· == ';') (owner ++ ';' :: rest) = some (owner, rest) :=
      cutFirst_append ';' rest (by simp) fun c hc => by simpa using (h c hc).1
    have hany : owner.any (fun c => c == '(' || c == ':' || c == '.') = false := by
      rw [List.any_eq_false]
      intro c hc
      obtain ⟨-, h1, h2, h3⟩ := h c hc
      simp [h1, h2, h3]
    simp only [splitOwnerDescriptor, hcut, List.isEmpty_eq_false_iff.2 hne, hany, Bool.or_false,
      Bool.false_eq_true, if_false]

theorem splitOwner_descriptor {owner : List Char} (rest : List Char) (hne : owner ≠ [])
    (h : ∀ c ∈ owner, c ≠ ';' ∧ c ≠ '(' ∧ c ≠ ':' ∧ c ≠ '.') :
    splitOwner ('L' :: (owner ++ ';' :: rest)) = (some owner, rest) := by
  rw [splitOwner, splitOwnerDescriptor_eq_some_iff.2 ⟨rfl, hne, h⟩]

theorem splitDescriptor_paren {name : List Char} (descriptor : List Char) (h : '(' ∉ name) :
    splitDescriptor (name ++ '(' :: descriptor) = (name, some ('(' :: descriptor)) := by
  have hcut : cutFirst (· == '(') (name ++ '(' :: descriptor) = some (name, descriptor) :=
    cutFirst_append '(' descriptor (by simp) fun c hc => by
      rw [beq_eq_false_iff_ne]
      rintro rfl
      exact h hc
  simp only [splitDescriptor, hcut]

theorem splitDescriptor_colon {name descriptor : List Char} (h : ':' ∉ name)
    (hp : '(' ∉ name ++ ':' :: descriptor) :
    splitDescriptor (name ++ ':' :: descriptor) = (name, some descriptor) := by
  have hnone : cutFirst (· == '(') (name ++ ':' :: descriptor) = none := by
    refine cutFirst_eq_none_iff.2 fun c hc => ?_
    rw [beq_eq_false_iff_ne]
    rintro rfl
    exact hp hc
  have hcut : cutFirst (· == ':') (name ++ ':' :: descriptor) = some (name, descriptor) :=
    cutFirst_append ':' descriptor (by simp) fun c hc => by
      rw [beq_eq_false_iff_ne]
      rintro rfl
      exact h hc
  simp only [splitDescriptor, hnone, hcut]

theorem internalChars_eq_self {cs : List Char} (h : ∀ c ∈ cs, c ≠ '.') : internalChars cs = cs := by
  have : cs.map (fun c => if c == '.' then '/' else c) = cs.map id :=
    List.map_congr_left fun c hc => by simp [h c hc]
  simpa [internalChars] using this

/-- The characters of a literal. -/
theorem toList_render (owner name descriptor : String) (ofField : Bool) :
    (render ⟨some owner, name, some descriptor⟩ ofField).toList =
      'L' :: (owner.toList ++ ';' :: (name.toList ++
        ((if ofField then [':'] else []) ++ descriptor.toList))) := by
  cases ofField <;> simp [render]

theorem Readable.splitDescriptor {owner name descriptor : List Char} {ofField : Bool}
    (h : Readable owner name descriptor ofField) :
    Selector.splitDescriptor (name ++ ((if ofField then [':'] else []) ++ descriptor)) =
      (name, some descriptor) := by
  have hparen : '(' ∉ name := fun hm => (h.name_chars _ hm).1 rfl
  cases ofField with
  | true =>
    have hcolon : ':' ∉ name := fun hm => (h.name_chars _ hm).2.1 rfl
    have hopen : '(' ∉ name ++ ':' :: descriptor := by simpa [hparen] using h.field rfl
    have hcut := splitDescriptor_colon hcolon hopen
    simpa using hcut
  | false =>
    obtain ⟨rest, rfl⟩ : ∃ rest, descriptor = '(' :: rest := by
      cases descriptor with
      | nil => simpa using h.method rfl
      | cons c rest => simpa using h.method rfl
    simpa using splitDescriptor_paren rest hparen

theorem Readable.trim {owner name descriptor : List Char} {ofField : Bool}
    (h : Readable owner name descriptor ofField) :
    let cs := 'L' :: (owner ++ ';' :: (name ++ ((if ofField then [':'] else []) ++ descriptor)))
    trimChars cs = cs := by
  intro cs
  obtain ⟨c, hc, hblank⟩ := h.ends
  have hlast : cs.getLast? = some c := by
    simp [cs, List.getLast?_cons, List.getLast?_append, hc]
  refine trimChars_eq_self (fun d hd => ?_) fun d hd => ?_
  · simp only [cs, List.head?_cons, Option.mem_some_iff] at hd
    subst hd
    decide
  · rw [hlast, Option.mem_some_iff] at hd
    exact hd ▸ hblank

/-- A selector is read back from its literal. -/
theorem parse?_render {owner name descriptor : String} {ofField : Bool}
    (h : Readable owner.toList name.toList descriptor.toList ofField) :
    parse? (render ⟨some owner, name, some descriptor⟩ ofField) =
      some ⟨some owner, name, some descriptor⟩ := by
  have hname : trimChars name.toList = name.toList :=
    trimChars_of_forall fun c hc => (h.name_chars c hc).2.2
  have howner : internalChars owner.toList = owner.toList :=
    internalChars_eq_self fun c hc => (h.owner_chars c hc).2.2.2
  have hdesc : descriptor.toList ≠ [] := by
    obtain ⟨c, hc, -⟩ := h.ends
    rintro e
    simp [e] at hc
  simp only [parse?, toList_render, h.trim, splitOwner_descriptor _ h.owner_ne h.owner_chars,
    h.splitDescriptor, hname, List.isEmpty_eq_false_iff.2 h.name_ne, Option.isNone_some,
    Bool.and_false, Bool.false_eq_true, if_false, Option.map_some, howner, String.ofList_toList,
    Option.filter_some, List.isEmpty_eq_false_iff.2 hdesc, Bool.not_false, if_true]

end Selector

end InjectionPoints
