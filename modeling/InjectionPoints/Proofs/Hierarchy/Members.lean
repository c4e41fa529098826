/-
Members by name. What a class and its supertypes declare stands in one order: that of the supertypes,
and in each class that of the text (`Earlier`). A method is among those of a name exactly if no
earlier one has its descriptor (`mem_methodsNamed_iff`), and a search for a method or a field finds
the earliest one: `members_by_name`.
-/
import InjectionPoints.ClassIndex.Members
import InjectionPoints.Proofs.Hierarchy.Supertypes
import InjectionPoints.Proofs.Renumbering.Lists

namespace InjectionPoints

/-! ## Ordered lists -/

section Ordered

variable {α β : Type} {R : α → α → Prop} {l : List α} {a : α}

/-- In an ordered list the first for each key are those before which the key does not stand. -/
theorem mem_firstsBy_iff [BEq β] [LawfulBEq β] (hR : ∀ a b, R a b → ¬R b a) (h : l.Pairwise R)
    (key : α → β) (seen : List β) : a ∈ firstsBy key seen l ↔
      a ∈ l ∧ key a ∉ seen ∧ ∀ b ∈ l, R b a → key b ≠ key a := by
  induction l generalizing seen with
  | nil => simp [firstsBy]
  | cons b l ih =>
    obtain ⟨hb, hl⟩ := List.pairwise_cons.1 h
    have hself : ¬R b b := fun hbb => hR b b hbb hbb
    simp only [firstsBy, List.contains_iff_mem]
    split
    · next hseen =>
      rw [ih hl]
      constructor
      · rintro ⟨hal, has, hfirst⟩
        refine ⟨List.mem_cons_of_mem b hal, has, List.forall_mem_cons.2 ⟨fun _ e => ?_, hfirst⟩⟩
        exact has (e ▸ hseen)
      · rintro ⟨hal, has, hfirst⟩
        refine ⟨(List.mem_cons.1 hal).resolve_left ?_, has, (List.forall_mem_cons.1 hfirst).2⟩
        rintro rfl
        exact has hseen
    · next hseen =>
      rw [List.mem_cons, ih hl, List.mem_cons, List.mem_cons, not_or, List.forall_mem_cons]
      constructor
      · rintro (rfl | ⟨hal, ⟨hne, has⟩, hfirst⟩)
        · exact ⟨.inl rfl, hseen, fun hbb => absurd hbb hself,
            fun c hc hca => absurd hca (hR a c (hb c hc))⟩
        · exact ⟨.inr hal, has, fun _ e => hne e.symm, hfirst⟩
      · rintro ⟨rfl | hal, has, hhead, hfirst⟩
        · exact .inl rfl
        · exact .inr ⟨hal, ⟨fun e => hhead (hb a hal) e.symm, has⟩, hfirst⟩

/-- An ordered list begins with what stands before all other. -/
theorem head?_eq_some_iff_of_pairwise (hR : ∀ a b, R a b → ¬R b a) (h : l.Pairwise R) :
    l.head? = some a ↔ a ∈ l ∧ ∀ b ∈ l, b ≠ a → R a b := by
  cases l with
  | nil => simp
  | cons c l =>
    obtain ⟨hc, -⟩ := List.pairwise_cons.1 h
    rw [List.head?_cons, Option.some.injEq]
    constructor
    · rintro rfl
      exact ⟨List.mem_cons_self, fun b hb hne => hc b ((List.mem_cons.1 hb).resolve_left hne)⟩
    · rintro ⟨ha, hfirst⟩
      by_contra hne
      exact hR c a (hc a ((List.mem_cons.1 ha).resolve_left (Ne.symm hne)))
        (hfirst c List.mem_cons_self hne)

theorem head?_firstsBy [BEq β] (key : α → β) (l : List α) :
    (firstsBy key [] l).head? = l.head? := by
  cases l <;> simp [firstsBy]

/-- The first element that passes a test has the least of the positions that pass. -/
theorem findFirst?_eq_head? (p : α → Bool) (l : List α) : findFirst? p l =
    ((List.finRange l.length).filter fun i => p (l.get i)).head? := by
  refine Option.ext fun i => ?_
  rw [findFirst?_eq_some_iff, head?_eq_some_iff_of_pairwise (fun _ _ => lt_asymm)
    ((List.pairwise_lt_finRange _).filter _)]
  simp only [List.mem_filter, List.mem_finRange, true_and]
  refine and_congr_right fun _ => forall_congr' fun j => ?_
  constructor
  · intro h hj hne
    by_contra hnot
    rw [h (lt_of_le_of_ne (not_lt.1 hnot) hne)] at hj
    exact Bool.false_ne_true hj
  · intro h hlt
    by_contra hj
    exact lt_asymm hlt (h (by simpa using hj) hlt.ne)

end Ordered

namespace ClassIndex

variable (ix : ClassIndex)

/-! ## The order of declarations -/

/-- Of two places of members, each a class and a position there, `c` meets one earlier if it is in an
earlier supertype, or before the other in the same one. -/
def Earlier (c : ix.ClassId) (a b : ix.ClassId × Nat) : Prop :=
  (ix.supertypes c).idxOf a.1 < (ix.supertypes c).idxOf b.1 ∨ a.1 = b.1 ∧ a.2 < b.2

/-- One sort of members: where they stand, and which a class declares, in the order of the text. -/
structure MemberSort (γ : Type) where
  place : γ → ix.ClassId × Nat
  of : ix.ClassId → List γ
  mem_of : ∀ a d, a ∈ of d ↔ (place a).1 = d
  inOrder : ∀ d, (of d).Pairwise fun a b => (place a).2 < (place b).2

/-- The place of a method. -/
def MethodId.place {ix : ClassIndex} (m : ix.MethodId) : ix.ClassId × Nat := (m.owner, m.slot)

/-- The place of a field. -/
def FieldId.place {ix : ClassIndex} (f : ix.FieldId) : ix.ClassId × Nat := (f.owner, f.slot)

theorem mem_methodsOf_iff {ix : ClassIndex} {m : ix.MethodId} {d : ix.ClassId} :
    m ∈ ix.methodsOf d ↔ m.owner = d := by
  rw [methodsOf, List.mem_map]
  constructor
  · rintro ⟨slot, -, rfl⟩
    rfl
  · rintro rfl
    exact ⟨m.slot, List.mem_finRange _, rfl⟩

def methodSort : ix.MemberSort ix.MethodId where
  place := MethodId.place
  of := ix.methodsOf
  mem_of _ _ := mem_methodsOf_iff
  inOrder _ := List.pairwise_map.2 (List.pairwise_lt_finRange _)

def fieldSort : ix.MemberSort ix.FieldId where
  place := FieldId.place
  of d := (List.finRange (ix.decl d).fields.length).map fun slot => ⟨d, slot⟩
  mem_of f d := by
    constructor
    · intro h
      obtain ⟨slot, -, rfl⟩ := List.mem_map.1 h
      rfl
    · rintro rfl
      exact List.mem_map.2 ⟨f.slot, List.mem_finRange _, rfl⟩
  inOrder d := List.pairwise_map.2 (List.pairwise_lt_finRange _)

variable {ix} {c : ix.ClassId}

theorem Earlier.asymm {a b : ix.ClassId × Nat} (h : ix.Earlier c a b) : ¬ix.Earlier c b a := by
  rintro (hlt | ⟨heq, hlt⟩) <;> rcases h with h | ⟨heq', h⟩
  · omega
  · rw [heq'] at hlt
    omega
  · rw [heq] at h
    omega
  · omega

/-- What is earlier is declared in a class that stands no later. -/
theorem Earlier.idxOf_le {a b : ix.ClassId × Nat} (h : ix.Earlier c a b) :
    (ix.supertypes c).idxOf a.1 ≤ (ix.supertypes c).idxOf b.1 := by
  rcases h with h | ⟨h, -⟩
  · exact Nat.le_of_lt h
  · rw [h]

namespace MemberSort

variable {γ : Type} (s : ix.MemberSort γ) {wanted : γ → Bool} {a : γ}

/-- The wanted members that `c` declares or inherits. -/
def offered (c : ix.ClassId) (wanted : γ → Bool) : List γ :=
  ((ix.supertypes c).flatMap s.of).filter wanted

variable {s}

theorem mem_offered_iff :
    a ∈ s.offered c wanted ↔ (s.place a).1 ∈ ix.supertypes c ∧ wanted a = true := by
  simp [offered, s.mem_of]

theorem pairwise_offered (s : ix.MemberSort γ) (c : ix.ClassId) (wanted : γ → Bool) :
    (s.offered c wanted).Pairwise fun a b => ix.Earlier c (s.place a) (s.place b) := by
  refine List.Pairwise.filter _ (List.pairwise_flatMap.2 ⟨fun d _ => ?_, ?_⟩)
  · refine (s.inOrder d).imp_of_mem fun {a b} ha hb hlt => .inr ⟨?_, hlt⟩
    rw [(s.mem_of a d).1 ha, (s.mem_of b d).1 hb]
  · refine (pairwise_idxOf (ix.supertypes_isWalk c).nodup).imp fun {d e} hlt a ha b hb => .inl ?_
    rwa [(s.mem_of a d).1 ha, (s.mem_of b e).1 hb]

theorem head?_offered_eq_some_iff : (s.offered c wanted).head? = some a ↔
    a ∈ s.offered c wanted ∧
      ∀ b ∈ s.offered c wanted, b ≠ a → ix.Earlier c (s.place a) (s.place b) :=
  head?_eq_some_iff_of_pairwise (fun _ _ => Earlier.asymm) (s.pairwise_offered c wanted)

theorem head?_offered_eq_none_iff :
    (s.offered c wanted).head? = none ↔ ∀ a, a ∉ s.offered c wanted := by
  rw [List.head?_eq_none_iff, List.eq_nil_iff_forall_not_mem]

end MemberSort

/-! ## Methods -/

/-- A method that `c` declares or inherits, with a name and for a number of arguments. -/
structure Offers (ix : ClassIndex) (c : ix.ClassId) (name : String) (arity : Nat)
    (m : ix.MethodId) : Prop where
  owner : m.owner ∈ ix.supertypes c
  name : (ix.method m).name = name
  isMethod : (ix.method m).isConstructor = false
  arity : (ix.method m).acceptsArity arity = true

variable {name : String} {arity : Nat}

variable (ix) in
/-- The methods of a name that `c` declares or inherits, hidden ones too. -/
def offeredMethods (c : ix.ClassId) (name : String) (arity : Nat) : List ix.MethodId :=
  ix.methodSort.offered c fun m => (ix.method m).name == name && !(ix.method m).isConstructor &&
    (ix.method m).acceptsArity arity

theorem mem_offeredMethods_iff {m : ix.MethodId} :
    m ∈ ix.offeredMethods c name arity ↔ ix.Offers c name arity m := by
  simp only [offeredMethods, MemberSort.mem_offered_iff, Bool.and_eq_true, beq_iff_eq,
    Bool.not_eq_true']
  constructor
  · rintro ⟨howner, ⟨hname, hmethod⟩, harity⟩
    exact ⟨howner, hname, hmethod, harity⟩
  · rintro ⟨howner, hname, hmethod, harity⟩
    exact ⟨howner, ⟨hname, hmethod⟩, harity⟩

theorem pairwise_offeredMethods (c : ix.ClassId) (name : String) (arity : Nat) :
    (ix.offeredMethods c name arity).Pairwise fun m n => ix.Earlier c m.place n.place :=
  ix.methodSort.pairwise_offered c _

theorem methodsNamed_eq (c : ix.ClassId) (name : String) (arity : Nat) :
    ix.methodsNamed c name arity =
      firstsBy ix.methodDescriptor [] (ix.offeredMethods c name arity) :=
  rfl

/-- A method is kept exactly if no earlier one has its descriptor. -/
theorem mem_methodsNamed_iff {m : ix.MethodId} : m ∈ ix.methodsNamed c name arity ↔
    ix.Offers c name arity m ∧ ∀ n, ix.Offers c name arity n → ix.Earlier c n.place m.place →
      ix.methodDescriptor n ≠ ix.methodDescriptor m := by
  rw [methodsNamed_eq, mem_firstsBy_iff (fun _ _ => Earlier.asymm)
    (pairwise_offeredMethods c name arity)]
  simp only [mem_offeredMethods_iff, List.not_mem_nil, not_false_eq_true, true_and]

theorem pairwise_methodsNamed (c : ix.ClassId) (name : String) (arity : Nat) :
    (ix.methodsNamed c name arity).Pairwise fun m n => ix.Earlier c m.place n.place :=
  (pairwise_offeredMethods c name arity).sublist (firstsBy_sublist _ _ _)

theorem nodup_methodsNamed (c : ix.ClassId) (name : String) (arity : Nat) :
    (ix.methodsNamed c name arity).Nodup := by
  refine (pairwise_methodsNamed c name arity).imp fun {m n} h e => ?_
  subst e
  exact h.asymm h

theorem findMethod?_eq_head? (c : ix.ClassId) (name : String) (arity : Nat) :
    ix.findMethod? c name arity = (ix.offeredMethods c name arity).head? := by
  rw [findMethod?, methodsNamed_eq, head?_firstsBy]

/-- The method that is found is the earliest. -/
theorem findMethod?_eq_some_iff {m : ix.MethodId} : ix.findMethod? c name arity = some m ↔
    ix.Offers c name arity m ∧
      ∀ n, ix.Offers c name arity n → n ≠ m → ix.Earlier c m.place n.place := by
  simp only [← mem_offeredMethods_iff]
  rw [findMethod?_eq_head?]
  exact MemberSort.head?_offered_eq_some_iff

theorem findMethod?_eq_none_iff :
    ix.findMethod? c name arity = none ↔ ∀ m, ¬ix.Offers c name arity m := by
  simp only [← mem_offeredMethods_iff]
  rw [findMethod?_eq_head?]
  exact MemberSort.head?_offered_eq_none_iff

/-! ## Fields -/

/-- A field that `c` declares or inherits, with a name. -/
structure OffersField (ix : ClassIndex) (c : ix.ClassId) (name : String) (f : ix.FieldId) :
    Prop where
  owner : f.owner ∈ ix.supertypes c
  name : (ix.field f).name = name

variable (ix) in
/-- The fields of a name that `c` declares or inherits. -/
def offeredFields (c : ix.ClassId) (name : String) : List ix.FieldId :=
  ix.fieldSort.offered c fun f => (ix.field f).name == name

theorem mem_offeredFields_iff {f : ix.FieldId} :
    f ∈ ix.offeredFields c name ↔ ix.OffersField c name f := by
  rw [offeredFields, MemberSort.mem_offered_iff, beq_iff_eq]
  exact ⟨fun h => ⟨h.1, h.2⟩, fun h => ⟨h.owner, h.name⟩⟩

theorem findField?_eq_head? (c : ix.ClassId) (name : String) :
    ix.findField? c name = (ix.offeredFields c name).head? := by
  have hfirst (d : ix.ClassId) : ix.fieldOf? name d =
      ((ix.fieldSort.of d).filter fun f => (ix.field f).name == name).head? := by
    rw [fieldOf?, findFirst?_eq_head?, fieldSort, List.filter_map, List.head?_map]
    rfl
  rw [findField?, funext hfirst, offeredFields, MemberSort.offered, List.filter_flatMap,
    List.head?_flatMap]

/-- The field that is found is the earliest. -/
theorem findField?_eq_some_iff {f : ix.FieldId} : ix.findField? c name = some f ↔
    ix.OffersField c name f ∧
      ∀ g, ix.OffersField c name g → g ≠ f → ix.Earlier c f.place g.place := by
  simp only [← mem_offeredFields_iff]
  rw [findField?_eq_head?]
  exact MemberSort.head?_offered_eq_some_iff

theorem findField?_eq_none_iff :
    ix.findField? c name = none ↔ ∀ f, ¬ix.OffersField c name f := by
  simp only [← mem_offeredFields_iff]
  rw [findField?_eq_head?]
  exact MemberSort.head?_offered_eq_none_iff

/-! ## What is found -/

/-- The methods of a name are those that no earlier one hides by its descriptor, without repetition
and in the order of the supertypes and of the texts. The one that is found is the first of them; it
is in the first class, and so in a nearest one, that has any such method. The field that is found is
the first of the name in the first class that declares one. -/
theorem members_by_name (c : ix.ClassId) (name : String) (arity : Nat) :
    (ix.methodsNamed c name arity).Nodup ∧
    ((ix.methodsNamed c name arity).Pairwise fun m n => ix.Earlier c m.place n.place) ∧
    (∀ m, m ∈ ix.methodsNamed c name arity ↔ ix.Offers c name arity m ∧
      ∀ n, ix.Offers c name arity n → ix.Earlier c n.place m.place →
        ix.methodDescriptor n ≠ ix.methodDescriptor m) ∧
    ix.findMethod? c name arity = (ix.methodsNamed c name arity).head? ∧
    (ix.findMethod? c name arity = none ↔ ∀ m, ¬ix.Offers c name arity m) ∧
    (∀ m, ix.findMethod? c name arity = some m → ∀ n, ix.Offers c name arity n →
      (ix.supertypes c).idxOf m.owner ≤ (ix.supertypes c).idxOf n.owner ∧
        ∀ j k, IsDistance ix.parents c j m.owner → IsDistance ix.parents c k n.owner → j ≤ k) ∧
    (ix.findField? c name = none ↔ ∀ f, ¬ix.OffersField c name f) ∧
    ∀ f, ix.findField? c name = some f ↔ ix.OffersField c name f ∧
      ∀ g, ix.OffersField c name g → g ≠ f → ix.Earlier c f.place g.place := by
  refine ⟨nodup_methodsNamed c name arity, pairwise_methodsNamed c name arity,
    fun m => mem_methodsNamed_iff, rfl, findMethod?_eq_none_iff, fun m hm n hn => ?_,
    findField?_eq_none_iff, fun f => findField?_eq_some_iff⟩
  have hle : (ix.supertypes c).idxOf m.owner ≤ (ix.supertypes c).idxOf n.owner := by
    rcases eq_or_ne n m with rfl | hne
    · exact Nat.le_refl _
    · exact ((findMethod?_eq_some_iff.1 hm).2 n hn hne).idxOf_le
  exact ⟨hle, fun j k hj hk => (ix.supertypes_isWalk c).distance_le hj hk hle⟩

end ClassIndex

end InjectionPoints
