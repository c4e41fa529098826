/-
Descriptors as the virtual machine spells them. No field descriptor is the beginning of another one
(`IsFieldDescriptor.append_inj`), so a method descriptor can be taken apart in one way only: it
determines the descriptors of its parameters and of what it returns (`IsMethodDescriptor.unique`).
-/
import InjectionPoints.Proofs.PlainIndex

namespace InjectionPoints

open Text

/-! ## Names of several parts -/

/-- A part of a name: at least one character, no white space, no punctuation. -/
def IsPart (cs : List Char) : Prop := cs ≠ [] ∧ cs.all isWordChar = true

instance (cs : List Char) : Decidable (IsPart cs) := inferInstanceAs (Decidable (_ ∧ _))

theorem IsPart.chars {cs : List Char} (h : IsPart cs) : ∀ c ∈ cs, isWordChar c = true :=
  List.all_eq_true.1 h.2

/-- Parts with a separator between them. -/
inductive Parted (separator : Char) : List Char → Prop
  | one {part : List Char} (h : IsPart part) : Parted separator part
  | cons {part rest : List Char} (h : IsPart part) (more : Parted separator rest) :
      Parted separator (part ++ separator :: rest)

variable {separator : Char} {cs ds : List Char}

theorem Parted.ne_nil (h : Parted separator cs) : cs ≠ [] := by
  cases h with
  | one h => exact h.1
  | cons h more => simp

theorem Parted.append (h : Parted separator cs) (h' : Parted separator ds) :
    Parted separator (cs ++ separator :: ds) := by
  induction h with
  | one h => exact .cons h h'
  | cons h _ ih =>
    rw [List.append_assoc, List.cons_append]
    exact .cons h ih

theorem Parted.chars (h : Parted separator cs) : ∀ c ∈ cs, isWordChar c = true ∨ c = separator := by
  induction h with
  | one h => exact fun c hc => .inl (h.chars c hc)
  | cons h _ ih =>
    intro c hc
    rcases List.mem_append.1 hc with hc | hc
    · exact .inl (h.chars c hc)
    · rcases List.mem_cons.1 hc with rfl | hc
      · exact .inr rfl
      · exact ih c hc

/-- With another separator in place of each. -/
theorem Parted.map {other : Char} (h : Parted separator cs) (hs : isWordChar separator = false) :
    Parted other (cs.map fun c => if c == separator then other else c) := by
  have hpart {part : List Char} (hp : IsPart part) :
      part.map (fun c => if c == separator then other else c) = part := by
    refine (List.map_congr_left fun c hc => if_neg ?_).trans (List.map_id' part)
    rw [beq_iff_eq]
    rintro rfl
    rw [hp.chars c hc] at hs
    cases hs
  induction h with
  | one h =>
    rw [hpart h]
    exact .one h
  | cons h _ ih =>
    rw [List.map_append, List.map_cons, hpart h, if_pos (beq_self_eq_true _)]
    exact .cons h ih

/-! ## Descriptors -/

/-- The letters of the primitive types. -/
def primitiveLetters : List Char := ['B', 'C', 'D', 'F', 'I', 'J', 'S', 'Z']

/-- The descriptor of a type: a primitive type, a class by its internal name, or an array. -/
inductive IsFieldDescriptor : List Char → Prop
  | primitive {c : Char} (h : c ∈ primitiveLetters) : IsFieldDescriptor [c]
  | object {name : List Char} (h : Parted '/' name) : IsFieldDescriptor ('L' :: name ++ [';'])
  | array {element : List Char} (h : IsFieldDescriptor element) : IsFieldDescriptor ('[' :: element)

/-- The descriptor of a method with parameters and a result of given descriptors; without a result
there is a `V`. -/
structure IsMethodDescriptor (text : String) (params : List String) (result : String) : Prop where
  eq : text = "(" ++ String.join params ++ ")" ++ result
  params : ∀ p ∈ params, IsFieldDescriptor p.toList
  result : IsFieldDescriptor result.toList ∨ result = "V"

theorem IsFieldDescriptor.chars (h : IsFieldDescriptor cs) :
    ∀ c ∈ cs, isWordChar c = true ∨ c ∈ ['/', ';', '['] := by
  induction h with
  | @primitive c h =>
    have hword : primitiveLetters.all isWordChar = true := by decide
    intro d hd
    rw [List.mem_singleton.1 hd]
    exact .inl (List.all_eq_true.1 hword c h)
  | @object name h =>
    intro c hc
    simp only [List.cons_append, List.mem_cons, List.mem_append, List.not_mem_nil, or_false] at hc
    rcases hc with rfl | hc | rfl
    · exact .inl (by decide)
    · rcases h.chars c hc with hword | rfl
      · exact .inl hword
      · exact .inr (by simp)
    · exact .inr (by simp)
  | array _ ih =>
    intro c hc
    rcases List.mem_cons.1 hc with rfl | hc
    · exact .inr (by simp)
    · exact ih c hc

/-- Texts without a mark in front of the mark are equal when they are with what follows. -/
theorem append_cons_inj {mark : Char} {cs ds xs ys : List Char} (hc : mark ∉ cs) (hd : mark ∉ ds)
    (h : cs ++ mark :: xs = ds ++ mark :: ys) : cs = ds ∧ xs = ys := by
  induction cs generalizing ds with
  | nil =>
    cases ds with
    | nil => exact ⟨rfl, (List.cons.inj h).2⟩
    | cons d ds =>
      obtain ⟨rfl, _⟩ := List.cons.inj h
      simp at hd
  | cons c cs ih =>
    cases ds with
    | nil =>
      obtain ⟨rfl, _⟩ := List.cons.inj h
      simp at hc
    | cons d ds =>
      obtain ⟨rfl, htail⟩ := List.cons.inj h
      obtain ⟨rfl, rfl⟩ := ih (fun hx => hc (.tail _ hx)) (fun hx => hd (.tail _ hx)) htail
      exact ⟨rfl, rfl⟩

theorem Parted.not_mem_semicolon (h : Parted '/' cs) : ';' ∉ cs := by
  intro hmem
  rcases h.chars ';' hmem with hword | heq
  · exact absurd hword (by decide)
  · exact absurd heq (by decide)

/-- A text begins with one field descriptor at most. -/
theorem IsFieldDescriptor.append_inj {xs ys : List Char} (h : IsFieldDescriptor cs)
    (h' : IsFieldDescriptor ds) (heq : cs ++ xs = ds ++ ys) : cs = ds ∧ xs = ys := by
  have hL : 'L' ∉ primitiveLetters := by decide
  have hbracket : '[' ∉ primitiveLetters := by decide
  induction h generalizing ds with
  | @primitive c h =>
    cases h' with
    | primitive h' =>
      obtain ⟨rfl, rfl⟩ := List.cons.inj heq
      exact ⟨rfl, rfl⟩
    | object =>
      obtain ⟨rfl, _⟩ := List.cons.inj heq
      exact absurd h hL
    | array =>
      obtain ⟨rfl, _⟩ := List.cons.inj heq
      exact absurd h hbracket
  | @object name h =>
    cases h' with
    | primitive h' =>
      obtain ⟨rfl, _⟩ := List.cons.inj heq
      exact absurd h' hL
    | @object name' h' =>
      have hnames : name ++ ';' :: xs = name' ++ ';' :: ys := by simpa using heq
      obtain ⟨rfl, rfl⟩ := append_cons_inj h.not_mem_semicolon h'.not_mem_semicolon hnames
      exact ⟨rfl, rfl⟩
    | array => cases (List.cons.inj heq).1
  | array h ih =>
    cases h' with
    | primitive h' =>
      obtain ⟨rfl, _⟩ := List.cons.inj heq
      exact absurd h' hbracket
    | object => cases (List.cons.inj heq).1
    | array h' =>
      obtain ⟨rfl, rfl⟩ := ih h' (List.cons.inj heq).2
      exact ⟨rfl, rfl⟩

/-- No field descriptor begins where the parameters end. -/
theorem IsFieldDescriptor.ne_parenthesis {xs ys : List Char} (h : IsFieldDescriptor cs) :
    cs ++ xs ≠ ')' :: ys := by
  intro heq
  have hhead : ')' ∈ cs := by
    cases h <;> simp_all
  rcases h.chars ')' hhead with hword | hmark
  · exact absurd hword (by decide)
  · exact absurd hmark (by decide)

theorem flatMap_inj {ps qs : List String} {xs ys : List Char}
    (hp : ∀ p ∈ ps, IsFieldDescriptor p.toList) (hq : ∀ q ∈ qs, IsFieldDescriptor q.toList)
    (h : ps.flatMap String.toList ++ ')' :: xs = qs.flatMap String.toList ++ ')' :: ys) :
    ps = qs ∧ xs = ys := by
  induction ps generalizing qs with
  | nil =>
    cases qs with
    | nil => exact ⟨rfl, (List.cons.inj h).2⟩
    | cons q qs =>
      rw [List.flatMap_cons, List.append_assoc] at h
      exact absurd h.symm (hq q (by simp)).ne_parenthesis
  | cons p ps ih =>
    rw [List.flatMap_cons, List.append_assoc] at h
    cases qs with
    | nil => exact absurd h (hp p (by simp)).ne_parenthesis
    | cons q qs =>
      rw [List.flatMap_cons, List.append_assoc] at h
      rw [List.forall_mem_cons] at hp hq
      obtain ⟨hpq, hrest⟩ := hp.1.append_inj hq.1 h
      obtain ⟨rfl, hxs⟩ := ih hp.2 hq.2 hrest
      rw [String.toList_injective hpq]
      exact ⟨rfl, hxs⟩

variable {text result result' : String} {params params' : List String}

theorem IsMethodDescriptor.toList (h : IsMethodDescriptor text params result) :
    text.toList = '(' :: (params.flatMap String.toList ++ ')' :: result.toList) := by
  rw [h.eq]
  simp [String.toList_append, String.toList_join]

/-- A method descriptor is put together in one way only. -/
theorem IsMethodDescriptor.unique (h : IsMethodDescriptor text params result)
    (h' : IsMethodDescriptor text params' result') : params = params' ∧ result = result' := by
  have heq := h.toList.symm.trans h'.toList
  obtain ⟨rfl, hresult⟩ := flatMap_inj h.params h'.params (List.cons.inj heq).2
  exact ⟨rfl, String.toList_injective hresult⟩

theorem IsMethodDescriptor.chars (h : IsMethodDescriptor text params result) :
    ∀ c ∈ text.toList, isWordChar c = true ∨ c ∈ ['/', ';', '[', '(', ')'] := by
  have hfield {cs : List Char} (hcs : IsFieldDescriptor cs) :
      ∀ c ∈ cs, isWordChar c = true ∨ c ∈ ['/', ';', '[', '(', ')'] := fun c hc =>
    (hcs.chars c hc).imp_right fun hmark => List.mem_append_left ['(', ')'] hmark
  intro c hc
  rw [h.toList] at hc
  simp only [List.mem_cons, List.mem_append, List.mem_flatMap] at hc
  rcases hc with rfl | ⟨p, hp, hc⟩ | rfl | hc
  · exact .inr (by simp)
  · exact hfield (h.params p hp) c hc
  · exact .inr (by simp)
  · rcases h.result with hresult | rfl
    · exact hfield hresult c hc
    · obtain rfl : c = 'V' := by simpa using hc
      exact .inl (by decide)

end InjectionPoints
