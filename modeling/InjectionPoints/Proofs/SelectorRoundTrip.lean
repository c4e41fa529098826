/-
Writing a selector that was read, and reading it again. What is read has the shape `Parsed`; a
selector of this shape comes back from its literal when its owner, if any, is not empty and holds no
semicolon (`Parsed.parse?_render`), and otherwise not (`Parsed.parse?_render_ne`). Both together are
`parse?_render_iff`.
-/
import InjectionPoints.Proofs.SelectorLiteral

namespace InjectionPoints

open Text

namespace Text

theorem head?_dropWhile_isBlank (cs : List Char) :
    ∀ c ∈ (cs.dropWhile isBlank).head?, isBlank c = false := by
  intro c hc
  have h := List.head?_dropWhile_not isBlank cs
  rw [Option.mem_def.1 hc] at h
  simpa using h

theorem trimChars_suffix {cs : List Char} (h : ∀ c ∈ cs.head?, isBlank c = false) :
    ∃ blanks, cs = trimChars cs ++ blanks ∧ ∀ c ∈ blanks, isBlank c = true := by
  refine ⟨(cs.reverse.takeWhile isBlank).reverse, ?_, fun c hc => ?_⟩
  · rw [trimChars, dropWhile_isBlank_eq_self h, ← List.reverse_append, List.takeWhile_append_dropWhile, List.reverse_reverse]
  · exact List.all_eq_true.1 List.all_takeWhile c (List.mem_reverse.1 hc)

/-- A trimmed text does not end with white space. -/
theorem getLast?_trimChars (cs : List Char) :
    ∀ c ∈ (trimChars cs).getLast?, isBlank c = false := by
  intro c hc
  rw [trimChars, List.getLast?_reverse] at hc
  exact head?_dropWhile_isBlank _ c hc

/-- A trimmed text does not begin with white space. -/
theorem head?_trimChars (cs : List Char) : ∀ c ∈ (trimChars cs).head?, isBlank c = false := by
  intro c hc
  obtain ⟨blanks, hb, _⟩ := trimChars_suffix (head?_dropWhile_isBlank cs)
  have ht : trimChars (cs.dropWhile isBlank) = trimChars cs := by
    rw [trimChars, dropWhile_isBlank_eq_self (head?_dropWhile_isBlank cs), trimChars]
  rw [ht] at hb
  refine head?_dropWhile_isBlank cs c ?_
  rw [hb, Option.mem_def, List.head?_append, Option.mem_def.1 hc, Option.some_or]

theorem trimChars_trimChars (cs : List Char) : trimChars (trimChars cs) = trimChars cs :=
  trimChars_eq_self (head?_trimChars cs) (getLast?_trimChars cs)

/-- The end of a text ends where the text does. -/
theorem getLast?_of_suffix {cs front : List Char} (h : front <:+ cs)
    (hc : ∀ c ∈ cs.getLast?, isBlank c = false) : ∀ c ∈ front.getLast?, isBlank c = false := by
  intro c hl
  obtain ⟨before, rfl⟩ := h
  refine hc c ?_
  rw [Option.mem_def, List.getLast?_append, Option.mem_def.1 hl, Option.some_or]

theorem getLast?_append_of_both {cs ds : List Char} (hc : ∀ c ∈ cs.getLast?, isBlank c = false)
    (hd : ∀ c ∈ ds.getLast?, isBlank c = false) :
    ∀ c ∈ (cs ++ ds).getLast?, isBlank c = false := by
  intro c h
  rw [Option.mem_def, List.getLast?_append, Option.or_eq_some_iff] at h
  rcases h with h | ⟨_, h⟩
  · exact hd c h
  · exact hc c h

theorem mem_of_mem_trimChars {cs : List Char} {c : Char} (h : c ∈ trimChars cs) : c ∈ cs := by
  rw [trimChars, List.mem_reverse] at h
  exact List.dropWhile_subset _ (List.mem_reverse.1 (List.dropWhile_subset _ h))

end Text

namespace Selector

/-! ## Cutting off an owner -/

/-- A path is cut at a separator in front of the descriptor. -/
theorem exists_of_splitOwnerPath {cs owner rest : List Char}
    (h : splitOwnerPath cs = some (owner, rest)) :
    ∃ a name, (cs.takeWhile fun c => !(c == '(' || c == ':')) = owner ++ a :: name ∧
      cs = owner ++ a :: rest ∧ (a = '.' ∨ a = '/') := by
  simp only [splitOwnerPath, Option.map_eq_some_iff] at h
  obtain ⟨⟨o, name⟩, hcut, he⟩ := h
  simp only [Prod.mk.injEq] at he
  obtain ⟨rfl, rfl⟩ := he
  obtain ⟨a, hcs, ha, _⟩ := cutLast_eq_some_iff.1 hcut
  refine ⟨a, name, hcs, ?_, by simpa using ha⟩
  have hpre := List.prefix_iff_eq_append.1
    (List.takeWhile_prefix (l := cs) fun c => !(c == '(' || c == ':'))
  rw [← List.cons_append, ← List.append_assoc, ← hcs, hpre]

theorem splitOwner_none_iff {cs : List Char} :
    (splitOwner cs).1 = none ↔ splitOwnerDescriptor cs = none ∧
      ∀ c ∈ cs.takeWhile fun c => !(c == '(' || c == ':'), c ≠ '.' ∧ c ≠ '/' := by
  unfold splitOwner
  cases hd : splitOwnerDescriptor cs with
  | some x => simp
  | none =>
    cases hp : splitOwnerPath cs with
    | some x =>
      obtain ⟨a, name, hcs, _, ha⟩ := exists_of_splitOwnerPath hp
      simp only [reduceCtorEq, true_and, false_iff, Classical.not_forall]
      refine ⟨a, by rw [hcs]; simp, ?_⟩
      rcases ha with rfl | rfl <;> simp
    | none =>
      simp only [splitOwnerPath, Option.map_eq_none_iff, cutLast_eq_none_iff] at hp
      simpa using hp

theorem splitOwner_of_fst_none {cs : List Char} (h : (splitOwner cs).1 = none) :
    splitOwner cs = (none, cs) := by
  unfold splitOwner at h ⊢
  cases hd : splitOwnerDescriptor cs with
  | some x => simp [hd] at h
  | none =>
    cases hp : splitOwnerPath cs with
    | some x => simp [hd, hp] at h
    | none => rfl

/-- In an owner and the semicolon behind it nothing stands with which a descriptor could begin, so they
end in front of it. -/
theorem exists_of_splitOwnerDescriptor {front tail owner rest : List Char}
    (ht : ∀ c ∈ tail.head?, c = '(' ∨ c = ':')
    (h : splitOwnerDescriptor (front ++ tail) = some (owner, rest)) :
    ∃ front', front = 'L' :: owner ++ [';'] ++ front' := by
  obtain ⟨hcs, -, hchars⟩ := splitOwnerDescriptor_eq_some_iff.1 h
  have he : front ++ tail = ('L' :: owner ++ [';']) ++ rest := by simpa using hcs
  rcases List.append_eq_append_iff.1 he with ⟨x, hx, htail⟩ | ⟨x, hx, -⟩
  · cases x with
    | nil => exact ⟨[], by simpa using hx.symm⟩
    | cons c x =>
      have hc : c ∈ 'L' :: owner ++ [';'] := by simp [hx]
      have hend := ht c (by simp [htail])
      simp only [List.cons_append, List.mem_cons, List.mem_append, List.not_mem_nil,
        or_false] at hc
      rcases hc with rfl | hc | rfl
      · simp at hend
      · obtain ⟨_, h₁, h₂, _⟩ := hchars c hc
        exact absurd hend (by simp [h₁, h₂])
      · simp at hend
  · exact ⟨x, hx⟩

/-- Whether a text begins with an owner is decided in front of the descriptor: a text without owner
that is cut off, and gets a descriptor or none, has no owner either. -/
theorem splitOwner_cut {name rest tail : List Char} (h : (splitOwner (name ++ rest)).1 = none)
    (ht : ∀ c ∈ tail.head?, c = '(' ∨ c = ':') : (splitOwner (name ++ tail)).1 = none := by
  rw [splitOwner_none_iff] at h ⊢
  obtain ⟨hd, hp⟩ := h
  constructor
  · rw [Option.eq_none_iff_forall_ne_some]
    rintro ⟨owner, r⟩ ho
    obtain ⟨-, hne, hchars⟩ := splitOwnerDescriptor_eq_some_iff.1 ho
    obtain ⟨n, rfl⟩ := exists_of_splitOwnerDescriptor ht ho
    have hagain : splitOwnerDescriptor (('L' :: owner ++ [';'] ++ n) ++ rest) = some (owner, n ++ rest) :=
      splitOwnerDescriptor_eq_some_iff.2 ⟨by simp, hne, hchars⟩
    rw [hagain] at hd
    simp at hd
  · intro c hc
    refine hp c ?_
    have hhead : tail.takeWhile (fun c => !(c == '(' || c == ':')) = [] :=
      takeWhile_append_eq (l := []) (by simp) fun c hc => by rcases ht c hc with rfl | rfl <;> rfl
    rw [List.takeWhile_append] at hc ⊢
    split at hc
    · rename_i hl
      rw [hhead, List.append_nil] at hc
      rw [if_pos hl]
      exact List.mem_append_left _ hc
    · rename_i hl
      rwa [if_neg hl]

/-! ## Cutting off a descriptor -/

theorem splitDescriptor_plain {name : List Char} (h : ':' ∉ name) (hp : '(' ∉ name) :
    splitDescriptor name = (name, none) := by
  have hno : ∀ d, d ∉ name → cutFirst (· == d) name = none := by
    intro d hd
    refine cutFirst_eq_none_iff.2 fun c hc => ?_
    rw [beq_eq_false_iff_ne]
    rintro rfl
    exact hd hc
  simp only [splitDescriptor, hno _ hp, hno _ h]

/-- The three ways in which a text is cut into a name and a descriptor. -/
theorem splitDescriptor_cases {cs name : List Char} {descriptor : Option (List Char)}
    (h : splitDescriptor cs = (name, descriptor)) :
    (∃ d, descriptor = some ('(' :: d) ∧ cs = name ++ '(' :: d ∧ '(' ∉ name) ∨
      (∃ d, descriptor = some d ∧ cs = name ++ ':' :: d ∧ '(' ∉ cs ∧ ':' ∉ name) ∨
      (descriptor = none ∧ cs = name ∧ '(' ∉ cs ∧ ':' ∉ cs) := by
  have absent : ∀ {l : List Char} {d : Char}, (∀ c ∈ l, (c == d) = false) → d ∉ l := by
    intro l d hl hd
    simpa using hl d hd
  unfold splitDescriptor at h
  split at h
  · rename_i n d hcut
    simp only [Prod.mk.injEq] at h
    obtain ⟨rfl, rfl⟩ := h
    obtain ⟨a, rfl, ha, hn⟩ := cutFirst_eq_some_iff.1 hcut
    rw [beq_iff_eq] at ha
    subst ha
    exact .inl ⟨d, rfl, rfl, absent hn⟩
  · rename_i hnone
    have hp := absent (cutFirst_eq_none_iff.1 hnone)
    split at h
    · rename_i n d hcut
      simp only [Prod.mk.injEq] at h
      obtain ⟨rfl, rfl⟩ := h
      obtain ⟨a, rfl, ha, hn⟩ := cutFirst_eq_some_iff.1 hcut
      rw [beq_iff_eq] at ha
      subst ha
      exact .inr (.inl ⟨d, rfl, rfl, hp, absent hn⟩)
    · rename_i hcolon
      simp only [Prod.mk.injEq] at h
      obtain ⟨rfl, rfl⟩ := h
      exact .inr (.inr ⟨rfl, rfl, hp, absent (cutFirst_eq_none_iff.1 hcolon)⟩)

/-! ## Selectors that were read -/

/-- Whether there is a descriptor, and none of a method. -/
def ofField (s : Selector) : Bool := s.descriptor.any fun d => d.toList.head? != some '('

/-- The literal behind the owner. -/
def body (s : Selector) : List Char :=
  s.name.toList ++
    match s.descriptor with
    | none => []
    | some d => (if d.toList.head? = some '(' then [] else [':']) ++ d.toList

theorem toList_render_ofField (s : Selector) :
    (s.render s.ofField).toList =
      (match s.owner with
        | none => []
        | some owner => 'L' :: (owner.toList ++ [';'])) ++ s.body := by
  obtain ⟨owner, name, descriptor⟩ := s
  cases owner <;> cases descriptor <;> simp [render, ofField, body]
  all_goals
    split <;> simp

/-- What every selector is like that was read: the parts end where the literal is cut, and without
an owner nothing in it looks like one. -/
structure Parsed (s : Selector) : Prop where
  owner : ∀ o, s.owner = some o → ∀ c ∈ o.toList, c ≠ '(' ∧ c ≠ ':' ∧ c ≠ '.'
  name_ne : s.name.toList ≠ []
  name_trim : trimChars s.name.toList = s.name.toList
  descriptor_ne : ∀ d, s.descriptor = some d → d.toList ≠ []
  split : splitDescriptor s.body = (s.name.toList, s.descriptor.map String.toList)
  ends : ∀ c ∈ s.body.getLast?, isBlank c = false
  bare : s.owner = none → (splitOwner s.body).1 = none

/-- How a selector is put together from what its text is cut into. -/
theorem parse?_eq_some_iff {text : String} {s : Selector} :
    parse? text = some s ↔ ∃ owner rest name descriptor,
      splitOwner (trimChars text.toList) = (owner, rest) ∧
      splitDescriptor rest = (name, descriptor) ∧ (owner = none → trimChars name ≠ []) ∧
      s.owner = owner.map (fun cs => String.ofList (internalChars cs)) ∧
      s.name = (if (trimChars name).isEmpty then constructorName
        else String.ofList (trimChars name)) ∧
      s.descriptor = (descriptor.filter fun cs => !cs.isEmpty).map String.ofList := by
  rcases hs : splitOwner (trimChars text.toList) with ⟨owner, rest⟩
  rcases hd : splitDescriptor rest with ⟨name, descriptor⟩
  simp only [parse?, hs, hd]
  constructor
  · intro h
    split at h
    · simp at h
    · rename_i hno
      rw [Option.some.injEq] at h
      subst h
      refine ⟨owner, rest, name, descriptor, rfl, hd, ?_, rfl, rfl, rfl⟩
      rintro rfl hnil
      simp [hnil] at hno
  · intro hx
    obtain ⟨_, _, _, _, he, hd', hne, h₁, h₂, h₃⟩ := hx
    simp only [Prod.mk.injEq] at he
    obtain ⟨rfl, rfl⟩ := he
    rw [hd, Prod.mk.injEq] at hd'
    obtain ⟨rfl, rfl⟩ := hd'
    rw [if_neg, ← h₁, ← h₂, ← h₃]
    cases owner with
    | none => simpa using hne rfl
    | some o => simp

/-- An owner holds nothing that begins a descriptor. -/
theorem chars_of_splitOwner {cs owner rest : List Char} (h : splitOwner cs = (some owner, rest)) :
    ∀ c ∈ internalChars owner, c ≠ '(' ∧ c ≠ ':' ∧ c ≠ '.' := by
  have hchars : ∀ c ∈ owner, c ≠ '(' ∧ c ≠ ':' := by
    intro c hc
    unfold splitOwner at h
    split at h
    · rename_i o r hd
      simp only [Prod.mk.injEq, Option.some.injEq] at h
      obtain ⟨rfl, rfl⟩ := h
      obtain ⟨_, _, ho⟩ := splitOwnerDescriptor_eq_some_iff.1 hd
      exact ⟨(ho c hc).2.1, (ho c hc).2.2.1⟩
    · split at h
      · rename_i o r hp
        simp only [Prod.mk.injEq, Option.some.injEq] at h
        obtain ⟨rfl, rfl⟩ := h
        obtain ⟨a, name, hhead, _⟩ := exists_of_splitOwnerPath hp
        have hm : c ∈ cs.takeWhile fun c => !(c == '(' || c == ':') := by
          rw [hhead]
          exact List.mem_append_left _ hc
        simpa using List.all_eq_true.1 List.all_takeWhile c hm
      · simp at h
  intro c hc
  obtain ⟨d, hd, rfl⟩ := List.mem_map.1 hc
  split
  · decide
  · rename_i hdot
    exact ⟨(hchars d hd).1, (hchars d hd).2, by simpa using hdot⟩

/-- An owner that is read back from behind its mark is not empty and holds no semicolon: what is read
ends in front of the first semicolon, or else begins with the mark. -/
theorem owner_of_splitOwner {owner cs rest rest' : List Char}
    (hchars : ∀ c ∈ owner, c ≠ '(' ∧ c ≠ ':' ∧ c ≠ '.')
    (h : splitOwner ('L' :: (owner ++ ';' :: rest)) = (some cs, rest'))
    (he : internalChars cs = owner) : owner ≠ [] ∧ ';' ∉ owner := by
  unfold splitOwner at h
  split at h
  · rename_i o r hd
    simp only [Prod.mk.injEq, Option.some.injEq] at h
    obtain ⟨rfl, rfl⟩ := h
    obtain ⟨_, hne, ho⟩ := splitOwnerDescriptor_eq_some_iff.1 hd
    refine ⟨by simpa [← he, internalChars] using hne, fun hsemi => ?_⟩
    rw [← he] at hsemi
    obtain ⟨d, hdm, hds⟩ := List.mem_map.1 hsemi
    split at hds
    · simp at hds
    · exact (ho d hdm).1 hds
  · rename_i hd
    split at h
    · rename_i o r hp
      simp only [Prod.mk.injEq, Option.some.injEq] at h
      obtain ⟨rfl, rfl⟩ := h
      obtain ⟨a, name, _, hcs, ha⟩ := exists_of_splitOwnerPath hp
      obtain ⟨tail, rfl⟩ : ∃ tail, owner = 'L' :: tail := by
        cases o with
        | nil =>
          obtain rfl : 'L' = a := by simpa using congrArg List.head? hcs
          simp at ha
        | cons c o =>
          obtain rfl : 'L' = c := by simpa using congrArg List.head? hcs
          exact ⟨_, he.symm⟩
      refine ⟨by simp, fun hsemi => ?_⟩
      -- The text up to the first semicolon would have been taken for the owner.
      obtain ⟨front, back, hfront, hno⟩ := List.eq_append_cons_of_mem hsemi
      have hagain : splitOwnerDescriptor ('L' :: (front ++ ';' :: (back ++ ';' :: rest))) =
          some (front, back ++ ';' :: rest) := by
        refine splitOwnerDescriptor_eq_some_iff.2 ⟨rfl, ?_, fun c hc => ⟨?_, ?_⟩⟩
        · rintro rfl
          simp at hfront
        · rintro rfl
          exact hno hc
        · exact hchars c (by simp [hfront, hc])
      rw [hfront, List.append_assoc, List.cons_append, hagain] at hd
      simp at hd
    · simp at h

/-- What is left behind an owner is the end of the text. -/
theorem suffix_of_splitOwner {cs rest : List Char} {owner : Option (List Char)}
    (h : splitOwner cs = (owner, rest)) : rest <:+ cs := by
  unfold splitOwner at h
  split at h
  · rename_i o r hd
    simp only [Prod.mk.injEq] at h
    obtain ⟨rfl, rfl⟩ := h
    obtain ⟨rfl, _⟩ := splitOwnerDescriptor_eq_some_iff.1 hd
    exact ⟨'L' :: o ++ [';'], by simp⟩
  · split at h
    · rename_i o r hp
      simp only [Prod.mk.injEq] at h
      obtain ⟨rfl, rfl⟩ := h
      obtain ⟨a, name, _, rfl, _⟩ := exists_of_splitOwnerPath hp
      exact ⟨o ++ [a], by simp⟩
    · simp only [Prod.mk.injEq] at h
      obtain ⟨rfl, rfl⟩ := h
      exact List.suffix_refl _

/-- Behind the name the literal has the end of the text again, or nothing, and is cut there. -/
theorem exists_tail {rest cut : List Char} {descriptor : Option (List Char)} {s : Selector}
    (h : splitDescriptor rest = (cut, descriptor))
    (hs : s.descriptor = (descriptor.filter fun cs => !cs.isEmpty).map String.ofList)
    (hname : ∀ c, c = '(' ∨ c = ':' → c ∉ cut → c ∉ s.name.toList) :
    ∃ tail, s.body = s.name.toList ++ tail ∧ (∀ c ∈ tail.head?, c = '(' ∨ c = ':') ∧
      (tail = [] ∨ tail <:+ rest) ∧
      splitDescriptor s.body = (s.name.toList, s.descriptor.map String.toList) := by
  rcases splitDescriptor_cases h with ⟨d, rfl, rfl, hp⟩ | ⟨d, rfl, rfl, hp, hc⟩ | ⟨rfl, rfl, hp, hc⟩
  · have hd : s.descriptor = some (String.ofList ('(' :: d)) := hs
    have hbody : s.body = s.name.toList ++ '(' :: d := by simp [body, hd]
    refine ⟨'(' :: d, hbody, by simp, .inr (List.suffix_append ..), ?_⟩
    rw [hbody, splitDescriptor_paren d (hname '(' (.inl rfl) hp), hd]
    simp
  · have hc' := hname ':' (.inr rfl) hc
    have hp' := hname '(' (.inl rfl) fun hm => hp (List.mem_append_left _ hm)
    cases d with
    | nil =>
      have hd : s.descriptor = none := hs
      have hbody : s.body = s.name.toList := by simp [body, hd]
      refine ⟨[], by simp [hbody], by simp, .inl rfl, ?_⟩
      rw [hbody, splitDescriptor_plain hc' hp', hd]
      simp
    | cons e d =>
      have hd : s.descriptor = some (String.ofList (e :: d)) := hs
      have he : e ≠ '(' := by
        rintro rfl
        exact hp (by simp)
      have hbody : s.body = s.name.toList ++ ':' :: e :: d := by simp [body, hd, he]
      refine ⟨':' :: e :: d, hbody, by simp, .inr (List.suffix_append ..), ?_⟩
      rw [hbody, splitDescriptor_colon hc', hd]
      · simp
      · intro hm
        rcases List.mem_append.1 hm with hm | hm
        · exact hp' hm
        · exact hp (List.mem_append_right _ hm)
  · have hd : s.descriptor = none := hs
    have hbody : s.body = s.name.toList := by simp [body, hd]
    refine ⟨[], by simp [hbody], by simp, .inl rfl, ?_⟩
    rw [hbody, splitDescriptor_plain (hname ':' (.inr rfl) hc) (hname '(' (.inl rfl) hp), hd]
    simp

theorem name_cases {s : Selector} {cut : List Char}
    (h : s.name = if (trimChars cut).isEmpty then constructorName
      else String.ofList (trimChars cut)) :
    s.name = constructorName ∧ trimChars cut = [] ∨
      s.name.toList = trimChars cut ∧ trimChars cut ≠ [] := by
  rw [h]
  split
  · rename_i hcut
    exact .inl ⟨rfl, by simpa using hcut⟩
  · rename_i hcut
    exact .inr ⟨String.toList_ofList, by simpa using hcut⟩

/-- A text without owner begins with its name, so it has none either with another end. -/
theorem splitOwner_name {cs cut name tail : List Char} {descriptor : Option (List Char)}
    (ho : splitOwner (trimChars cs) = (none, trimChars cs))
    (hd : splitDescriptor (trimChars cs) = (cut, descriptor)) (hn : name = trimChars cut)
    (ht : ∀ c ∈ tail.head?, c = '(' ∨ c = ':') : (splitOwner (name ++ tail)).1 = none := by
  obtain ⟨behind, hbehind⟩ : ∃ behind, trimChars cs = cut ++ behind := by
    rcases splitDescriptor_cases hd with ⟨d, _, hr, _⟩ | ⟨d, _, hr, _⟩ | ⟨_, hr, _⟩
    · exact ⟨_, hr⟩
    · exact ⟨_, hr⟩
    · exact ⟨[], by simpa using hr⟩
  -- The text begins with no white space, so all that is trimmed off the name stands behind it.
  have hcut : ∀ c ∈ cut.head?, isBlank c = false := by
    intro c hc
    refine head?_trimChars cs c ?_
    rw [hbehind, Option.mem_def, List.head?_append, Option.mem_def.1 hc, Option.some_or]
  obtain ⟨blanks, hblanks, _⟩ := trimChars_suffix hcut
  have hnone : (splitOwner (name ++ (blanks ++ behind))).1 = none := by
    rw [hn, ← List.append_assoc, ← hblanks, ← hbehind, ho]
  exact splitOwner_cut hnone ht

/-- The shape that reading gives. -/
theorem parsed_of_parse? {text : String} {s : Selector} (h : parse? text = some s) : s.Parsed := by
  obtain ⟨owner, rest, cut, descriptor, ho, hd, hne, howner, hn, hdesc⟩ := parse?_eq_some_iff.1 h
  have hnamed := name_cases hn
  have hname : ∀ c, c = '(' ∨ c = ':' → c ∉ cut → c ∉ s.name.toList := by
    intro c hc hcut
    rcases hnamed with ⟨hn, _⟩ | ⟨hn, _⟩
    · rw [hn]
      rcases hc with rfl | rfl <;> decide
    · rw [hn]
      exact fun hm => hcut (mem_of_mem_trimChars hm)
  have htrim : trimChars s.name.toList = s.name.toList := by
    rcases hnamed with ⟨hn, _⟩ | ⟨hn, _⟩
    · rw [hn]
      decide
    · rw [hn, trimChars_trimChars]
  obtain ⟨tail, hbody, htail, hsuffix, hsplit⟩ := exists_tail hd hdesc hname
  refine ⟨?_, ?_, htrim, ?_, hsplit, ?_, ?_⟩
  · intro o hoo
    rw [howner] at hoo
    obtain ⟨cs, rfl, rfl⟩ := Option.map_eq_some_iff.1 hoo
    simpa using chars_of_splitOwner ho
  · rcases hnamed with ⟨hn, _⟩ | ⟨hn, hcut⟩
    · rw [hn]
      decide
    · rwa [hn]
  · intro d hdd
    rw [hdesc] at hdd
    obtain ⟨cs, hcs, rfl⟩ := Option.map_eq_some_iff.1 hdd
    simpa using (Option.filter_eq_some_iff.1 hcs).2
  · rw [hbody]
    refine getLast?_append_of_both (htrim ▸ getLast?_trimChars s.name.toList) ?_
    rcases hsuffix with rfl | hsuffix
    · simp
    · exact getLast?_of_suffix (hsuffix.trans (suffix_of_splitOwner ho)) (getLast?_trimChars _)
  · intro hnone
    rw [howner, Option.map_eq_none_iff] at hnone
    subst hnone
    have ho' : splitOwner (trimChars text.toList) = (none, trimChars text.toList) :=
      splitOwner_of_fst_none (by rw [ho])
    rw [ho, Prod.mk.injEq] at ho'
    rw [hbody]
    exact splitOwner_name (ho'.2 ▸ ho) (ho'.2 ▸ hd)
      (hnamed.resolve_left fun hx => hne rfl hx.2).1 htail

/-! ## The way back -/

namespace Parsed

variable {s : Selector} (h : s.Parsed)

include h

theorem body_ne : s.body ≠ [] := by
  simp [body, h.name_ne]

/-- The literal is not trimmed. -/
theorem trim_literal : trimChars (s.render s.ofField).toList = (s.render s.ofField).toList := by
  rw [toList_render_ofField]
  refine trimChars_eq_self ?_ ?_
  · cases s.owner with
    | none =>
      intro c hc
      refine head?_trimChars s.name.toList c ?_
      rw [h.name_trim]
      rwa [List.nil_append, body, Option.mem_def, List.head?_append,
        List.head?_eq_some_head h.name_ne, Option.some_or, ← List.head?_eq_some_head] at hc
    | some o =>
      intro c hc
      obtain rfl : 'L' = c := by simpa using hc
      decide
  · refine fun c hc => h.ends c ?_
    rwa [Option.mem_def, List.getLast?_append, List.getLast?_eq_some_getLast h.body_ne,
      Option.some_or, ← List.getLast?_eq_some_getLast] at hc

theorem internalChars_owner {o : String} (ho : s.owner = some o) :
    internalChars o.toList = o.toList :=
  internalChars_eq_self fun c hc => (h.owner o ho c hc).2.2

theorem filter_descriptor : ((s.descriptor.map String.toList).filter fun cs => !cs.isEmpty).map
    String.ofList = s.descriptor := by
  cases hd : s.descriptor with
  | none => rfl
  | some d =>
    have hne := h.descriptor_ne d hd
    rw [Option.map_some, Option.filter_some, if_pos (by simpa using hne), Option.map_some,
      String.ofList_toList]

/-- A selector is read back from its literal when its owner is read back. -/
theorem parse?_render_of_splitOwner
    (ho : splitOwner (s.render s.ofField).toList = (s.owner.map String.toList, s.body)) :
    parse? (s.render s.ofField) = some s := by
  refine parse?_eq_some_iff.2 ⟨_, _, _, _, by rw [h.trim_literal, ho], h.split, ?_, ?_, ?_, ?_⟩
  · intro _
    rw [h.name_trim]
    exact h.name_ne
  · cases hown : s.owner with
    | none => rfl
    | some o =>
      rw [Option.map_some, Option.map_some, h.internalChars_owner hown, String.ofList_toList]
  · rw [h.name_trim, if_neg (by simpa using h.name_ne), String.ofList_toList]
  · exact h.filter_descriptor.symm

/-- With an owner that a literal can show, or with none, a selector is read back. -/
theorem parse?_render (ho : ∀ o, s.owner = some o → o ≠ "" ∧ ';' ∉ o.toList) :
    parse? (s.render s.ofField) = some s := by
  refine h.parse?_render_of_splitOwner ?_
  rw [toList_render_ofField]
  cases hown : s.owner with
  | none => exact splitOwner_of_fst_none (h.bare hown)
  | some o =>
    obtain ⟨hne, hsemi⟩ := ho o hown
    have hchars : ∀ c ∈ o.toList, c ≠ ';' ∧ c ≠ '(' ∧ c ≠ ':' ∧ c ≠ '.' := by
      intro c hc
      refine ⟨?_, h.owner o hown c hc⟩
      rintro rfl
      exact hsemi hc
    simpa using splitOwner_descriptor s.body (by simpa using hne) hchars

/-- An empty owner is not read back, nor is one with a semicolon. -/
theorem parse?_render_ne {o : String} (hown : s.owner = some o) (ho : o = "" ∨ ';' ∈ o.toList) :
    parse? (s.render s.ofField) ≠ some s := by
  intro hread
  obtain ⟨owner, rest, _, _, hsplit, _, _, howner, _⟩ := parse?_eq_some_iff.1 hread
  rw [h.trim_literal, toList_render_ofField, hown] at hsplit
  rw [hown] at howner
  obtain ⟨cs, rfl, hcs⟩ := Option.map_eq_some_iff.1 howner.symm
  have hcs' : internalChars cs = o.toList := by rw [← hcs, String.toList_ofList]
  have hsplit' : splitOwner ('L' :: (o.toList ++ ';' :: s.body)) = (some cs, rest) := by
    simpa using hsplit
  obtain ⟨hne, hsemi⟩ := owner_of_splitOwner (h.owner o hown) hsplit' hcs'
  rcases ho with rfl | ho
  · simp at hne
  · exact hsemi ho

end Parsed

/-- Writing a selector that was read and reading it again gives the same one exactly when it has no
owner, or one that is not empty and holds no semicolon. -/
theorem parse?_render_iff {text : String} {s : Selector} (h : parse? text = some s) :
    parse? (s.render s.ofField) = some s ↔ ∀ o, s.owner = some o → o ≠ "" ∧ ';' ∉ o.toList := by
  have hs := parsed_of_parse? h
  constructor
  · intro hread o ho
    refine ⟨fun hnil => hs.parse?_render_ne ho (.inl hnil) hread, fun hsemi => ?_⟩
    exact hs.parse?_render_ne ho (.inr hsemi) hread
  · exact hs.parse?_render

/-- A name may hold a colon in front of a method's descriptor. An owner with a semicolon is read
only up to there. -/
theorem parse?_render_colon_and_semicolon :
    (∃ s : Selector, s = ⟨some "pkg/Owner", "na:me", some "(I)V"⟩ ∧
      parse? " pkg.Owner.na:me (I)V" = some s ∧ parse? (s.render s.ofField) = some s) ∧
    ∃ s : Selector, s = ⟨some "x;y", "z", some "I"⟩ ∧
      parse? "x;y.z:I" = some s ∧ parse? (s.render s.ofField) ≠ some s := by
  have hcolon : parse? " pkg.Owner.na:me (I)V" = some ⟨some "pkg/Owner", "na:me", some "(I)V"⟩ := by
    decide +kernel
  have hsemi : parse? "x;y.z:I" = some ⟨some "x;y", "z", some "I"⟩ := by decide +kernel
  refine ⟨⟨_, rfl, hcolon, (parse?_render_iff hcolon).2 ?_⟩, _, rfl, hsemi, fun hread => ?_⟩
  · simp
  · exact ((parse?_render_iff hsemi).1 hread "x;y" rfl).2 (by decide +kernel)

end Selector

end InjectionPoints
