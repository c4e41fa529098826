/-
The ways to write an owner. An owner of several parts stands in front of a member as `Lpkg/Owner;`, as
`pkg/Owner.`, as `pkg.Owner.` or as `pkg/Owner/`, and all four mean the same selector: that of the member
alone, with the owner (`parse?_ownerSpellings`). The owner ends in front of the name, since what stands
behind the name begins with a character that no owner holds (`splitOwnerDescriptor_eq_none`,
`splitOwnerPath_append`).
-/
import InjectionPoints.Proofs.SelectorRoundTrip

namespace InjectionPoints.Selector

open Text

/-! ## Texts of members and owners -/

/-- A part of an owner, or the name of a member: not empty, without white space, and without the
characters at which a selector is cut. -/
structure IsSegment (cs : List Char) : Prop where
  ne : cs ≠ []
  chars : ∀ c ∈ cs, c ≠ '.' ∧ c ≠ '/' ∧ c ≠ ';' ∧ c ≠ '(' ∧ c ≠ ':'
  visible : ∀ c ∈ cs, isBlank c = false

/-- What may stand behind a name: nothing, the descriptor of a method, or that of a field. -/
inductive IsSuffix : List Char → Prop where
  | none : IsSuffix []
  | method (params result : List Char) : IsSuffix ('(' :: (params ++ ')' :: result))
  | field (descriptor : List Char) : IsSuffix (':' :: descriptor)

/-- The descriptor that a suffix gives. -/
def suffixDescriptor : List Char → Option String
  | [] | [':'] => none
  | ':' :: descriptor => some (String.ofList descriptor)
  | descriptor => some (String.ofList descriptor)

/-- The four ways to write an owner in front of a member. -/
def ownerSpellings (segments : List (List Char)) (member : List Char) : List (List Char) :=
  let slashed := ['/'].intercalate segments
  let dotted := ['.'].intercalate segments
  ['L' :: (slashed ++ ';' :: member), slashed ++ '.' :: member, dotted ++ '.' :: member,
    slashed ++ '/' :: member]

variable {segments : List (List Char)} {name suffix front owner : List Char} {separator : Char}

theorem IsSuffix.head (h : IsSuffix suffix) : ∀ c ∈ suffix.head?, c = '(' ∨ c = ':' := by
  cases h <;> simp

theorem IsSegment.not_mem (h : IsSegment name) {c : Char}
    (hc : c = '.' ∨ c = '/' ∨ c = ';' ∨ c = '(' ∨ c = ':') : c ∉ name := by
  intro hm
  obtain ⟨h₁, h₂, h₃, h₄, h₅⟩ := h.chars c hm
  simp [h₁, h₂, h₃, h₄, h₅] at hc

theorem IsSegment.no_separator (h : IsSegment name) {c : Char} (hc : c ∈ name) :
    c ≠ '.' ∧ c ≠ '/' :=
  ⟨(h.chars c hc).1, (h.chars c hc).2.1⟩

theorem IsSegment.no_end (h : IsSegment name) {c : Char} (hc : c ∈ name) :
    c ≠ ';' ∧ c ≠ '(' ∧ c ≠ ':' :=
  (h.chars c hc).2.2

/-! ## Parts that are joined -/

theorem mem_joined (h : segments ≠ []) {c : Char} (hc : c ∈ [separator].intercalate segments) :
    c = separator ∨ ∃ cs ∈ segments, c ∈ cs := by
  induction segments with
  | nil => exact absurd rfl h
  | cons cs more ih =>
    cases more with
    | nil => exact .inr ⟨cs, by simp, by simpa using hc⟩
    | cons ds more =>
      rw [List.intercalate_cons_cons, List.append_assoc, List.singleton_append, List.mem_append,
        List.mem_cons] at hc
      rcases hc with hc | rfl | hc
      · exact .inr ⟨cs, by simp, hc⟩
      · exact .inl rfl
      · rcases ih (by simp) hc with rfl | ⟨es, he, hc⟩
        · exact .inl rfl
        · exact .inr ⟨es, List.mem_cons_of_mem _ he, hc⟩

theorem joined_ne (h : segments ≠ []) (hs : ∀ cs ∈ segments, IsSegment cs) :
    [separator].intercalate segments ≠ [] := by
  cases segments with
  | nil => exact absurd rfl h
  | cons cs more =>
    have hne := (hs cs List.mem_cons_self).ne
    cases more with
    | nil => simpa using hne
    | cons ds more => simp [List.intercalate_cons_cons, hne]

/-- With dots or with slashes, an owner has one internal name. -/
theorem internalChars_joined (h : segments ≠ []) (hs : ∀ cs ∈ segments, IsSegment cs)
    (hsep : separator = '.' ∨ separator = '/') :
    internalChars ([separator].intercalate segments) = ['/'].intercalate segments := by
  induction segments with
  | nil => exact absurd rfl h
  | cons cs more ih =>
    have hcs : internalChars cs = cs := internalChars_eq_self fun c hc => by
      rintro rfl
      exact (hs cs List.mem_cons_self).not_mem (by simp) hc
    cases more with
    | nil => simpa using hcs
    | cons ds more =>
      have hmore := ih (by simp) fun es he => hs es (List.mem_cons_of_mem _ he)
      have hslash : internalChars [separator] = ['/'] := by
        rcases hsep with rfl | rfl <;> rfl
      rw [List.intercalate_cons_cons, List.intercalate_cons_cons, ← hmore]
      simp only [internalChars, List.map_append] at hcs hslash ⊢
      rw [hcs, hslash]

/-! ## Where the owner ends -/

/-- In front of the descriptor there is nothing that begins one. -/
theorem takeWhile_front (hf : ∀ c ∈ front, c ≠ '(' ∧ c ≠ ':')
    (hs : ∀ c ∈ suffix.head?, c = '(' ∨ c = ':') :
    (front ++ suffix).takeWhile (fun c => !(c == '(' || c == ':')) = front :=
  takeWhile_append_eq (fun c hc => by simp [hf c hc]) fun c hc => by
    rcases hs c hc with rfl | rfl <;> rfl

/-- A text without semicolon in front of the descriptor does not begin with `Lpkg/Owner;`: a semicolon
in the descriptor comes too late. -/
theorem splitOwnerDescriptor_eq_none (hf : ';' ∉ front)
    (hs : ∀ c ∈ suffix.head?, c = '(' ∨ c = ':') : splitOwnerDescriptor (front ++ suffix) = none := by
  rw [Option.eq_none_iff_forall_ne_some]
  rintro ⟨owner, rest⟩ ho
  obtain ⟨front', rfl⟩ := exists_of_splitOwnerDescriptor hs ho
  exact hf (by simp)

/-- A path is cut at the separator in front of the name. -/
theorem splitOwnerPath_append (ho : ∀ c ∈ owner, c ≠ '(' ∧ c ≠ ':')
    (hsep : separator = '.' ∨ separator = '/') (hn : IsSegment name)
    (hs : ∀ c ∈ suffix.head?, c = '(' ∨ c = ':') :
    splitOwnerPath (owner ++ separator :: (name ++ suffix)) = some (owner, name ++ suffix) := by
  have he : owner ++ separator :: (name ++ suffix) = (owner ++ separator :: name) ++ suffix := by
    simp
  have hfront : ∀ c ∈ owner ++ separator :: name, c ≠ '(' ∧ c ≠ ':' := by
    intro c hc
    rcases List.mem_append.1 hc with hc | hc
    · exact ho c hc
    · rcases List.mem_cons.1 hc with rfl | hc
      · rcases hsep with rfl | rfl <;> simp
      · exact (hn.no_end hc).2
  have hcut : cutLast (fun c => c == '.' || c == '/') (owner ++ separator :: name) =
      some (owner, name) := by
    refine cutLast_eq_some_iff.2 ⟨separator, rfl, ?_, fun c hc => ?_⟩
    · rcases hsep with rfl | rfl <;> simp
    · simpa using hn.no_separator hc
  simp only [splitOwnerPath, he, takeWhile_front hfront hs, hcut, Option.map_some, List.drop_left]

/-- The owner that is cut off a text with a path, and the member behind it. -/
theorem splitOwner_path (ho : ∀ c ∈ owner, c ≠ ';' ∧ c ≠ '(' ∧ c ≠ ':')
    (hsep : separator = '.' ∨ separator = '/') (hn : IsSegment name)
    (hs : ∀ c ∈ suffix.head?, c = '(' ∨ c = ':') :
    splitOwner (owner ++ separator :: (name ++ suffix)) = (some owner, name ++ suffix) := by
  have hsemi : ';' ∉ owner ++ separator :: name := by
    intro hm
    rcases List.mem_append.1 hm with hm | hm
    · exact (ho ';' hm).1 rfl
    · rcases List.mem_cons.1 hm with rfl | hm
      · simp at hsep
      · exact hn.not_mem (by simp) hm
  have hnone : splitOwnerDescriptor (owner ++ separator :: (name ++ suffix)) = none := by
    simpa using splitOwnerDescriptor_eq_none hsemi hs
  simp only [splitOwner, hnone, splitOwnerPath_append (fun c hc => (ho c hc).2) hsep hn hs]

/-- A member alone has no owner. -/
theorem splitOwner_member (hn : IsSegment name) (hs : ∀ c ∈ suffix.head?, c = '(' ∨ c = ':') :
    splitOwner (name ++ suffix) = (none, name ++ suffix) := by
  refine splitOwner_of_fst_none (splitOwner_none_iff.2
    ⟨splitOwnerDescriptor_eq_none (hn.not_mem (by simp)) hs, fun c hc => ?_⟩)
  rw [takeWhile_front (fun c hc => (hn.no_end hc).2) hs] at hc
  exact hn.no_separator hc

/-- Each spelling of an owner is cut into an owner with the same internal name, and the member. -/
theorem exists_splitOwner (hne : segments ≠ []) (hseg : ∀ cs ∈ segments, IsSegment cs)
    (hn : IsSegment name) (hs : ∀ c ∈ suffix.head?, c = '(' ∨ c = ':') {text : List Char}
    (ht : text ∈ ownerSpellings segments (name ++ suffix)) :
    ∃ owner, splitOwner text = (some owner, name ++ suffix) ∧
      internalChars owner = ['/'].intercalate segments := by
  have hchars {separator : Char} (hsep : separator = '.' ∨ separator = '/') :
      ∀ c ∈ [separator].intercalate segments, c ≠ ';' ∧ c ≠ '(' ∧ c ≠ ':' := by
    intro c hc
    rcases mem_joined hne hc with rfl | ⟨cs, hcs, hc⟩
    · rcases hsep with rfl | rfl <;> simp
    · exact (hseg cs hcs).no_end hc
  simp only [ownerSpellings, List.mem_cons, List.not_mem_nil, or_false] at ht
  rcases ht with rfl | rfl | rfl | rfl
  · refine ⟨['/'].intercalate segments, splitOwner_descriptor _ (joined_ne hne hseg) fun c hc => ?_,
      internalChars_joined hne hseg (.inr rfl)⟩
    obtain ⟨h₁, h₂, h₃⟩ := hchars (.inr rfl) c hc
    refine ⟨h₁, h₂, h₃, ?_⟩
    rintro rfl
    rcases mem_joined hne hc with h | ⟨cs, hcs, hc⟩
    · simp at h
    · exact (hseg cs hcs).not_mem (by simp) hc
  · exact ⟨_, splitOwner_path (hchars (.inr rfl)) (.inl rfl) hn hs,
      internalChars_joined hne hseg (.inr rfl)⟩
  · exact ⟨_, splitOwner_path (hchars (.inl rfl)) (.inl rfl) hn hs,
      internalChars_joined hne hseg (.inl rfl)⟩
  · exact ⟨_, splitOwner_path (hchars (.inr rfl)) (.inr rfl) hn hs,
      internalChars_joined hne hseg (.inr rfl)⟩

/-! ## Names and descriptors -/

/-- What is cut off as the name of a member is not empty, and part of the member. -/
theorem name_of_splitDescriptor (hn : IsSegment name) {cut : List Char}
    {descriptor : Option (List Char)}
    (h : splitDescriptor (name ++ suffix) = (cut, descriptor)) :
    cut ≠ [] ∧ ∀ c ∈ cut, c ∈ name ++ suffix := by
  obtain ⟨first, more, rfl⟩ := List.exists_cons_of_ne_nil hn.ne
  have hfirst := (hn.no_end (c := first) List.mem_cons_self).2
  rcases splitDescriptor_cases h with ⟨d, _, he, _⟩ | ⟨d, _, he, _⟩ | ⟨_, he, _⟩
  · refine ⟨?_, fun c hc => by rw [he]; exact List.mem_append_left _ hc⟩
    rintro rfl
    exact hfirst.1 (List.cons.inj he).1
  · refine ⟨?_, fun c hc => by rw [he]; exact List.mem_append_left _ hc⟩
    rintro rfl
    exact hfirst.2 (List.cons.inj he).1
  · subst he
    exact ⟨by simp, fun c hc => hc⟩

/-- Unless a second parenthesis opens behind the first character of the suffix, the name is the part in
front of it. -/
theorem splitDescriptor_suffix (hn : IsSegment name) (hs : ∀ c ∈ suffix.head?, c = '(' ∨ c = ':')
    (hp : '(' ∉ suffix.tail) :
    ∃ descriptor, splitDescriptor (name ++ suffix) = (name, descriptor) ∧
      (descriptor.filter fun cs => !cs.isEmpty).map String.ofList = suffixDescriptor suffix := by
  have hparen : '(' ∉ name := hn.not_mem (by simp)
  have hcolon : ':' ∉ name := hn.not_mem (by simp)
  match suffix with
  | [] => exact ⟨none, by simpa using splitDescriptor_plain hcolon hparen, rfl⟩
  | c :: cs =>
    rcases hs c rfl with rfl | rfl
    · exact ⟨_, splitDescriptor_paren cs hparen, rfl⟩
    · have hno : '(' ∉ name ++ ':' :: cs := by
        have hcs : '(' ∉ cs := hp
        simp [hparen, hcs]
      refine ⟨_, splitDescriptor_colon hcolon hno, ?_⟩
      cases cs <;> rfl

/-- No spelling of an owner has white space in it. -/
theorem visible_of_mem_ownerSpellings (hne : segments ≠ [])
    (hseg : ∀ cs ∈ segments, IsSegment cs) {member text : List Char}
    (hm : ∀ c ∈ member, isBlank c = false) (ht : text ∈ ownerSpellings segments member) :
    ∀ c ∈ text, isBlank c = false := by
  have hjoined {separator : Char} (hsep : isBlank separator = false) :
      ∀ c ∈ [separator].intercalate segments, isBlank c = false := by
    intro c hc
    rcases mem_joined hne hc with rfl | ⟨cs, hcs, hc⟩
    · exact hsep
    · exact (hseg cs hcs).visible c hc
  have happend {owner : List Char} {separator : Char} (ho : ∀ c ∈ owner, isBlank c = false)
      (hsep : isBlank separator = false) :
      ∀ c ∈ owner ++ separator :: member, isBlank c = false :=
    List.forall_mem_append.2 ⟨ho, List.forall_mem_cons.2 ⟨hsep, hm⟩⟩
  have hslash : isBlank '/' = false := by decide
  have hdot : isBlank '.' = false := by decide
  simp only [ownerSpellings, List.mem_cons, List.not_mem_nil, or_false] at ht
  rcases ht with rfl | rfl | rfl | rfl
  · exact List.forall_mem_cons.2 ⟨by decide, happend (hjoined hslash) (by decide)⟩
  · exact happend (hjoined hslash) hdot
  · exact happend (hjoined hdot) hdot
  · exact happend (hjoined hslash) hslash

/-- A text whose owner was cut off means the member behind it, with that owner. -/
theorem parse?_of_splitOwner {text member cut : List Char} {owner descriptor : Option (List Char)}
    (hblank : ∀ c ∈ text, isBlank c = false) (ho : splitOwner text = (owner, member))
    (hd : splitDescriptor member = (cut, descriptor)) (hne : cut ≠ [])
    (hcut : ∀ c ∈ cut, isBlank c = false) :
    parse? (String.ofList text) = some
      { owner := owner.map fun cs => String.ofList (internalChars cs)
        name := String.ofList cut
        descriptor := (descriptor.filter fun cs => !cs.isEmpty).map String.ofList } := by
  have htrim : trimChars cut = cut := trimChars_of_forall hcut
  refine parse?_eq_some_iff.2 ⟨owner, member, cut, descriptor, ?_, hd, fun _ => ?_, rfl, ?_, rfl⟩
  · rw [String.toList_ofList, trimChars_of_forall hblank, ho]
  · rwa [htrim]
  · rw [htrim, if_neg (by simpa using hne)]

/-! ## The spellings of an owner -/

/-- In front of a member, with a descriptor or without one, the four spellings of an owner mean one
selector: the one that the member alone means, with the owner in it. -/
theorem parse?_ownerSpellings (hne : segments ≠ []) (hseg : ∀ cs ∈ segments, IsSegment cs)
    (hn : IsSegment name) (hs : IsSuffix suffix) (hblank : ∀ c ∈ suffix, isBlank c = false) :
    ∃ s : Selector, s.owner = none ∧ parse? (String.ofList (name ++ suffix)) = some s ∧
      ('(' ∉ suffix.tail → s.name = String.ofList name ∧ s.descriptor = suffixDescriptor suffix) ∧
      ∀ text ∈ ownerSpellings segments (name ++ suffix),
        parse? (String.ofList text) =
          some { s with owner := some (String.ofList (['/'].intercalate segments)) } := by
  have hmember : ∀ c ∈ name ++ suffix, isBlank c = false := fun c hc =>
    (List.mem_append.1 hc).elim (hn.visible c) (hblank c)
  obtain ⟨⟨cut, descriptor⟩, hd⟩ : ∃ r, splitDescriptor (name ++ suffix) = r := ⟨_, rfl⟩
  obtain ⟨hcut, hsub⟩ := name_of_splitDescriptor hn hd
  have hcb : ∀ c ∈ cut, isBlank c = false := fun c hc => hmember c (hsub c hc)
  refine ⟨_, ?_, parse?_of_splitOwner hmember (splitOwner_member hn hs.head) hd hcut hcb, ?_, ?_⟩
  · rfl
  · intro hp
    obtain ⟨d, hd', hsuffix⟩ := splitDescriptor_suffix hn hs.head hp
    rw [hd, Prod.mk.injEq] at hd'
    obtain ⟨rfl, rfl⟩ := hd'
    exact ⟨rfl, hsuffix⟩
  · intro text ht
    have hb := visible_of_mem_ownerSpellings hne hseg hmember ht
    obtain ⟨owner, ho, hinternal⟩ := exists_splitOwner hne hseg hn hs.head ht
    rw [parse?_of_splitOwner hb ho hd hcut hcb, Option.map_some, hinternal]

/-- An owner and a name that begin with the mark of an owner, in front of a descriptor that holds all
the characters at which an owner could end. -/
theorem parse?_ownerSpellings_marked :
    let segments := ["Lib".toList, "Foo".toList]
    let name := "Load".toList
    let suffix := "(Lp/Q;Lr.S;)V".toList
    segments ≠ [] ∧ (∀ cs ∈ segments, IsSegment cs) ∧ IsSegment name ∧ IsSuffix suffix ∧
      (∀ c ∈ suffix, isBlank c = false) ∧
      ∀ text ∈ ownerSpellings segments (name ++ suffix),
        parse? (String.ofList text) = some ⟨some "Lib/Foo", "Load", some "(Lp/Q;Lr.S;)V"⟩ := by
  intro segments name suffix
  have hseg : ∀ cs ∈ segments, IsSegment cs := by
    simp only [segments, List.mem_cons, List.not_mem_nil, or_false, forall_eq_or_imp, forall_eq]
    exact ⟨⟨by simp, by simp, by simp; decide⟩, ⟨by simp, by simp, by simp; decide⟩⟩
  have hn : IsSegment name := ⟨by simp [name], by simp [name], by simp [name]; decide⟩
  have hs : IsSuffix suffix := .method "Lp/Q;Lr.S;".toList "V".toList
  have hblank : ∀ c ∈ suffix, isBlank c = false := by
    simp [suffix]
    decide
  have hne : segments ≠ [] := by simp [segments]
  refine ⟨hne, hseg, hn, hs, hblank, fun text ht => ?_⟩
  obtain ⟨⟨owner, n, d⟩, -, -, hparts, hall⟩ := parse?_ownerSpellings hne hseg hn hs hblank
  obtain ⟨rfl, rfl⟩ := hparts (by simp [suffix])
  rw [hall text ht]
  rfl

end InjectionPoints.Selector
