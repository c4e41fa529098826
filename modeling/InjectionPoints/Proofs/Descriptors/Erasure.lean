/-
Erasure of types to descriptors. A type variable is replaced by its first bound, in which it is not
itself in scope any more (`Erases`); so erasing ends however the bounds refer to each other
(`erases_erasedDescriptor`). Where names and types are written as Java writes them, every method has
a valid descriptor, and the descriptor determines its parts (`methodDescriptor_determines`).
-/
import InjectionPoints.Proofs.Descriptors.WrittenTypes

namespace InjectionPoints

open Java Text TypeText

/-! ## Names and types as Java writes them -/

/-- Parts with dots between them. -/
def IsDotted (name : String) : Prop := Parted '.' name.toList

/-- A type other than `void`. -/
def IsType (type : String) : Prop := ∃ name n, Spells type name n ∧ name ≠ "void"

/-- A type variable whose bound, if it has one, is a type. -/
def TypeParam.Typed (p : TypeParam) : Prop := ∀ b ∈ p.bound, IsType b

/-- A method with types for its parameters, and a type or `void` for what it returns. -/
structure MethodDecl.Typed (m : MethodDecl) : Prop where
  typeParams : ∀ p ∈ m.typeParams, p.Typed
  params : ∀ t ∈ m.params, IsType t
  returnType : ∀ t ∈ m.returnType, IsType t ∨ Spells t "void" 0

/-- An index of classes whose names are names, and whose methods and type variables have types. -/
structure ClassIndex.Typed (ix : ClassIndex) : Prop where
  names : ∀ c ∈ ix.classes, IsDotted c.binaryName
  typeParams : ∀ c ∈ ix.classes, ∀ p ∈ c.typeParams, p.Typed
  methods : ∀ c ∈ ix.classes, ∀ m ∈ c.methods, m.Typed
  packages : ∀ s ∈ ix.scopes, ∀ p ∈ s.package, IsDotted p
  imports : ∀ s ∈ ix.scopes, ∀ i ∈ s.singleImports, IsDotted i.2

theorem IsDotted.append {name name' : String} (h : IsDotted name) (h' : IsDotted name') :
    IsDotted (name ++ "." ++ name') := by
  unfold IsDotted
  rw [String.toList_append, String.toList_append, List.append_assoc]
  exact Parted.append h h'

theorem parted_internalForm {name : String} (h : IsDotted name) :
    Parted '/' (internalForm name).toList := by
  rw [internalForm, String.toList_ofList]
  exact Parted.map h (by decide)

theorem IsType.erasure {type : String} (h : IsType type) :
    IsDotted (erasure type).1 ∧ (erasure type).1 ≠ "void" := by
  obtain ⟨name, n, hspells, hvoid⟩ := h
  rw [hspells.erasure_eq]
  obtain ⟨_, _, _, hnamed, _⟩ := hspells
  exact ⟨hnamed.parted, hvoid⟩

theorem isDotted_lang : IsDotted "java.lang" := by
  show Parted '.' ("java".toList ++ '.' :: "lang".toList)
  exact .cons (by decide) (.one (by decide))

/-- Of the words with a descriptor of their own only `void` has none of a type. -/
theorem exists_letter_of_primitive? {name descriptor : String}
    (h : primitive? name = some descriptor) (hvoid : name ≠ "void") :
    ∃ c ∈ primitiveLetters, descriptor.toList = [c] := by
  have hname : (name == "void") = false := beq_eq_false_iff_ne.2 hvoid
  have htail : primitives.tail.lookup name = some descriptor := by
    rw [primitive?, primitives, List.lookup_cons, hname] at h
    exact h
  obtain ⟨before, behind, heq, _⟩ := List.lookup_eq_some_iff.1 htail
  have hall : (primitives.tail.all fun p => primitiveLetters.any fun c => p.2.toList == [c]) = true := by
    decide
  have hletter := List.all_eq_true.1 hall (name, descriptor) (by simp [heq])
  obtain ⟨c, hc, hdescriptor⟩ := List.any_eq_true.1 hletter
  exact ⟨c, hc, beq_iff_eq.1 hdescriptor⟩

theorem isFieldDescriptor_arrayOf {descriptor : String} (h : IsFieldDescriptor descriptor.toList)
    (n : Nat) : IsFieldDescriptor (ClassIndex.arrayOf n descriptor).toList := by
  rw [ClassIndex.arrayOf, String.toList_append, String.toList_ofList]
  induction n with
  | zero => exact h
  | succ n ih => exact .array ih

theorem isFieldDescriptor_objectDescriptor :
    IsFieldDescriptor ClassIndex.objectDescriptor.toList := by
  have hname : Parted '/' ("java".toList ++ '/' :: ("lang".toList ++ '/' :: "Object".toList)) :=
    .cons (by decide) (.cons (by decide) (.one (by decide)))
  exact .object hname

namespace ClassIndex

variable {ix : ClassIndex} {file : FileId} {vars : List TypeParam} {type name d : String} {n : Nat}

/-! ## Erasing ends -/

/-- A type that a file writes where `vars` are in scope erases to a descriptor. -/
inductive Erases (ix : ClassIndex) (file : FileId) : List TypeParam → String → String → Prop
  | named {vars : List TypeParam} {type : String}
      (free : ∀ v ∈ vars, v.name ≠ (erasure type).1) :
      Erases ix file vars type
        (arrayOf (erasure type).2 (ix.baseDescriptor file (erasure type).1))
  | bounded {before behind : List TypeParam} {v : TypeParam} {type bound d : String}
      (first : ∀ w ∈ before, w.name ≠ (erasure type).1) (is : v.name = (erasure type).1)
      (has : v.bound = some bound) (h : Erases ix file (before ++ behind) bound d) :
      Erases ix file (before ++ v :: behind) type (arrayOf (erasure type).2 d)
  | unbounded {before behind : List TypeParam} {v : TypeParam} {type : String}
      (first : ∀ w ∈ before, w.name ≠ (erasure type).1) (is : v.name = (erasure type).1)
      (has : v.bound = none) :
      Erases ix file (before ++ v :: behind) type (arrayOf (erasure type).2 objectDescriptor)

theorem erasedDescriptor_of_free (free : ∀ v ∈ vars, v.name ≠ (erasure type).1) :
    ix.erasedDescriptor file vars type =
      arrayOf (erasure type).2 (ix.baseDescriptor file (erasure type).1) := by
  have hnone : vars.findIdx? (fun v => v.name == (erasure type).1) = none := by
    simpa using free
  unfold erasedDescriptor
  cases h : vars.length with
  | zero => rfl
  | succ n =>
    unfold descriptorWithin
    dsimp only
    rw [hnone]

theorem erasedDescriptor_of_first {before behind : List TypeParam} {v : TypeParam}
    (first : ∀ w ∈ before, w.name ≠ (erasure type).1) (is : v.name = (erasure type).1) :
    ix.erasedDescriptor file (before ++ v :: behind) type = arrayOf (erasure type).2
      (v.bound.elim objectDescriptor fun bound => ix.erasedDescriptor file (before ++ behind) bound) := by
  have hfirst : (before ++ v :: behind).findIdx? (fun v => v.name == (erasure type).1) =
      some before.length := by
    have hnone : before.findIdx? (fun v => v.name == (erasure type).1) = none := by
      simpa using first
    simp [List.findIdx?_append, hnone, List.findIdx?_cons, is]
  have hlength : (before ++ v :: behind).length = (before ++ behind).length + 1 := by
    simp only [List.length_append, List.length_cons]
    omega
  unfold erasedDescriptor
  rw [hlength, descriptorWithin]
  dsimp only
  rw [hfirst]
  simp only [List.getElem?_append_right (Nat.le_refl _),
    List.eraseIdx_append_of_length_le (Nat.le_refl _), Nat.sub_self, List.getElem?_cons_zero,
    Option.bind_some, List.eraseIdx_cons_zero]
  cases v.bound <;> rfl

/-- Erasing ends, since a variable whose bound is erased is out of scope there. -/
theorem erases_iff : Erases ix file vars type d ↔ d = ix.erasedDescriptor file vars type := by
  constructor
  · intro h
    induction h with
    | named free => rw [erasedDescriptor_of_free free]
    | bounded first is has _ ih => rw [erasedDescriptor_of_first first is, has, ih, Option.elim_some]
    | unbounded first is has => rw [erasedDescriptor_of_first first is, has, Option.elim_none]
  · rintro rfl
    generalize hn : vars.length = n
    induction n using Nat.strongRecOn generalizing vars type with
    | ind n ih =>
      cases hv : vars.find? fun v => v.name == (erasure type).1 with
      | none =>
        have free : ∀ v ∈ vars, v.name ≠ (erasure type).1 := by simpa using hv
        rw [erasedDescriptor_of_free free]
        exact .named free
      | some v =>
        obtain ⟨is, before, behind, rfl, hfirst⟩ := List.find?_eq_some_iff_append.1 hv
        have first : ∀ w ∈ before, w.name ≠ (erasure type).1 := by simpa using hfirst
        rw [erasedDescriptor_of_first first (beq_iff_eq.1 is)]
        cases hbound : v.bound with
        | none => exact .unbounded first (beq_iff_eq.1 is) hbound
        | some bound =>
          refine .bounded first (beq_iff_eq.1 is) hbound (ih _ ?_ rfl)
          simp only [← hn, List.length_append, List.length_cons]
          omega

/-! ## Valid descriptors -/

theorem Typed.isDotted_assumedName (h : ix.Typed) (file : FileId) (hn : IsDotted name) :
    IsDotted (ix.assumedName file name) := by
  unfold ClassIndex.assumedName
  split
  · exact hn
  split
  · next imported himported =>
    obtain ⟨scope, hscope, himported⟩ := Option.bind_eq_some_iff.1 himported
    obtain ⟨before, behind, heq, _⟩ := List.lookup_eq_some_iff.1 himported
    refine h.imports scope (List.mem_of_getElem? hscope) (name, imported) ?_
    rw [← List.mem_reverse, heq]
    simp
  split
  · exact isDotted_lang.append hn
  · unfold qualify
    split
    · next package hpackage =>
      obtain ⟨scope, hscope, hpackage⟩ := Option.bind_eq_some_iff.1 hpackage
      exact (h.packages scope (List.mem_of_getElem? hscope) package hpackage).append hn
    · exact hn

theorem Typed.parted_internalTypeName (h : ix.Typed) (file : FileId) (hn : IsDotted name) :
    Parted '/' (ix.internalTypeName file name).toList := by
  unfold ClassIndex.internalTypeName
  split
  · exact parted_internalForm (h.names _ (List.getElem_mem _))
  · exact parted_internalForm (h.isDotted_assumedName file hn)

theorem Typed.baseDescriptor (h : ix.Typed) (file : FileId) (hn : IsDotted name)
    (hvoid : name ≠ "void") : IsFieldDescriptor (ix.baseDescriptor file name).toList := by
  unfold ClassIndex.baseDescriptor
  split
  · next descriptor hprimitive =>
    obtain ⟨c, hc, heq⟩ := exists_letter_of_primitive? hprimitive hvoid
    rw [heq]
    exact .primitive hc
  · rw [String.toList_append, String.toList_append]
    exact .object (h.parted_internalTypeName file hn)

/-- A type, or a variable, erases to a field descriptor, whatever the variables and their bounds. -/
theorem Typed.isFieldDescriptor_of_erases (h : ix.Typed) (he : Erases ix file vars type d)
    (hv : ∀ v ∈ vars, v.Typed) (ht : IsType type ∨ ∃ v ∈ vars, v.name = (erasure type).1) :
    IsFieldDescriptor d.toList := by
  induction he with
  | named free =>
    rcases ht with ht | ⟨v, hmem, hname⟩
    · obtain ⟨hname, hvoid⟩ := ht.erasure
      exact isFieldDescriptor_arrayOf (h.baseDescriptor file hname hvoid) _
    · exact absurd hname (free v hmem)
  | @bounded before behind v _ bound _ first is has _ ih =>
    have hbound := hv v (by simp) bound has
    refine isFieldDescriptor_arrayOf (ih (fun w hw => hv w ?_) (.inl hbound)) _
    rw [List.mem_append] at hw ⊢
    exact hw.imp_right fun hw => .tail _ hw
  | unbounded first is has => exact isFieldDescriptor_arrayOf isFieldDescriptor_objectDescriptor _

theorem Typed.typed_methodVariables (h : ix.Typed) (m : ix.MethodId) :
    ∀ v ∈ ix.methodVariables m, v.Typed := by
  intro v hv
  rcases List.mem_append.1 hv with hv | hv
  · exact (h.methods _ (List.getElem_mem _) _ (List.getElem_mem _)).typeParams v hv
  · simp only [classVariables, enclosing, List.mem_flatMap, List.mem_cons] at hv
    obtain ⟨c, hc, hv⟩ := hv
    rcases hc with rfl | hc
    · exact h.typeParams _ (List.getElem_mem _) v hv
    · exact h.typeParams c (mem_around hc) v hv

theorem Typed.isFieldDescriptor_methodTypeDescriptor (h : ix.Typed) (m : ix.MethodId)
    (ht : IsType type) : IsFieldDescriptor (ix.methodTypeDescriptor m type).toList :=
  h.isFieldDescriptor_of_erases (erases_iff.2 rfl) (h.typed_methodVariables m) (.inl ht)

/-- What `void` is spelled as, unless a variable is called so. -/
theorem Typed.returnDescriptor (h : ix.Typed) (m : ix.MethodId) :
    IsFieldDescriptor (ix.returnDescriptor m).toList ∨ ix.returnDescriptor m = "V" := by
  unfold ClassIndex.returnDescriptor
  split
  · next type htype =>
    rcases (h.methods _ (List.getElem_mem _) _ (List.getElem_mem _)).returnType type htype with
      ht | hvoid
    · exact .inl (h.isFieldDescriptor_methodTypeDescriptor m ht)
    · by_cases hvar : ∃ v ∈ ix.methodVariables m, v.name = (TypeText.erasure type).1
      · exact .inl (h.isFieldDescriptor_of_erases (erases_iff.2 rfl) (h.typed_methodVariables m)
          (.inr hvar))
      · right
        have hfree : ∀ v ∈ ix.methodVariables m, v.name ≠ (TypeText.erasure type).1 :=
          fun v hmem hname => hvar ⟨v, hmem, hname⟩
        rw [methodTypeDescriptor, erasedDescriptor_of_free hfree, hvoid.erasure_eq]
        rfl
  · exact .inr rfl

theorem Typed.isMethodDescriptor (h : ix.Typed) (m : ix.MethodId) :
    IsMethodDescriptor (ix.methodDescriptor m) (ix.parameterDescriptors m)
      (ix.returnDescriptor m) where
  eq := rfl
  params := by
    intro p hp
    obtain ⟨type, ht, rfl⟩ := List.mem_map.1 hp
    exact h.isFieldDescriptor_methodTypeDescriptor m
      ((h.methods _ (List.getElem_mem _) _ (List.getElem_mem _)).params type ht)
  result := h.returnDescriptor m

/-- Where names and types are written as Java writes them, erasing a type gives one descriptor,
however the bounds of variables refer to each other. Every method has a method descriptor, with a
field descriptor for each parameter, without angle brackets, dots and white space; and methods with
the same descriptor have the same descriptors of their parameters and of what they return. -/
theorem methodDescriptor_determines (ix : ClassIndex) (h : ix.Typed) :
    (∀ m : ix.MethodId,
      (∀ type d, Erases ix (ix.decl m.owner).file (ix.methodVariables m) type d ↔
        d = ix.methodTypeDescriptor m type) ∧
      IsMethodDescriptor (ix.methodDescriptor m) (ix.parameterDescriptors m)
        (ix.returnDescriptor m) ∧
      (ix.parameterDescriptors m).length = (ix.method m).params.length ∧
      ∀ c ∈ (ix.methodDescriptor m).toList, c ∉ ['<', '>', '.'] ∧ isBlank c = false) ∧
    ∀ m m' : ix.MethodId, ix.methodDescriptor m = ix.methodDescriptor m' →
      ix.parameterDescriptors m = ix.parameterDescriptors m' ∧
        ix.returnDescriptor m = ix.returnDescriptor m' := by
  refine ⟨fun m => ⟨fun type d => erases_iff, h.isMethodDescriptor m, List.length_map _, ?_⟩,
    fun m m' heq => ?_⟩
  · intro c hc
    rcases (h.isMethodDescriptor m).chars c hc with hword | hmark
    · refine ⟨fun hmem => ?_, isBlank_of_isWordChar hword⟩
      simp only [List.mem_cons, List.not_mem_nil, or_false] at hmem
      rcases hmem with rfl | rfl | rfl <;> exact absurd hword (by decide)
    · simp only [List.mem_cons, List.not_mem_nil, or_false] at hmark
      rcases hmark with rfl | rfl | rfl | rfl | rfl <;> decide
  · have hm' := h.isMethodDescriptor m'
    rw [← heq] at hm'
    exact (h.isMethodDescriptor m).unique hm'

/-! ## Bounds that refer to each other -/

/-- In `class A<S extends T, T extends S>`, a method `<U extends Comparable<U>>` with four parameters. -/
def cyclicIndex : ClassIndex where
  classes := [{
    file := 0
    name := "A"
    sourceName := "p.A"
    binaryName := "p.A"
    kind := .plain
    nameSpan := ⟨0, 0⟩
    outer := none
    typeParams := [⟨"S", some "T"⟩, ⟨"T", some "S"⟩]
    superclass := none
    interfaces := []
    fields := []
    methods := [{
      name := "f"
      typeParams := [⟨"U", some "Comparable<U>"⟩]
      params := ["S", "int[]", "java.util.Map<S, T>...", "U"]
      varargs := false
      returnType := some "void"
      nameSpan := ⟨0, 0⟩
      declSpan := ⟨0, 0⟩
      hasBody := true
      implicit := false }] }]
  scopes := [{ FileScope.empty with package := some "p" }]

theorem typed_cyclic : cyclicIndex.Typed := by
  have hpart {name : String} (h : IsPart name.toList) (hvoid : name ≠ "void") : IsType name :=
    ⟨name, 0, spells_part h, hvoid⟩
  have hcomparable : IsType "Comparable<U>" := by
    refine ⟨"Comparable", 0, ⟨"Comparable<U>".toList, [], by decide, ?_, .nil⟩, by decide⟩
    show Named ("Comparable".toList ++ '<' :: ("U".toList ++ ['>'])) _
    exact .one (.generic (by decide) (.of_all (by decide)))
  have harray : IsType "int[]" :=
    ⟨"int", 1, ⟨"int".toList, ['[', ']'], by decide, .one (.plain (by decide)), .pair .nil⟩, by decide⟩
  have hmap : IsType "java.util.Map<S, T>..." := by
    refine ⟨"java.util.Map", 1, ⟨"java.util.Map<S,T>".toList, ['.', '.', '.'], by decide, ?_,
      .ellipsis .nil⟩, by decide⟩
    show Named ("java".toList ++ '.' :: ("util".toList ++ '.' :: ("Map".toList ++ '<' ::
      ("S,T".toList ++ ['>'])))) ("java".toList ++ '.' :: ("util".toList ++ '.' :: "Map".toList))
    exact .cons (.plain (by decide)) (.cons (.plain (by decide))
      (.one (.generic (by decide) (.of_all (by decide)))))
  refine ⟨?_, ?_, ?_, ?_, ?_⟩
  · simp only [cyclicIndex, List.forall_mem_singleton]
    show Parted '.' ("p".toList ++ '.' :: "A".toList)
    exact .cons (by decide) (.one (by decide))
  · simp only [cyclicIndex, List.forall_mem_singleton, List.forall_mem_cons, TypeParam.Typed]
    simp [hpart (show IsPart "T".toList by decide) (by decide),
      hpart (show IsPart "S".toList by decide) (by decide)]
  · simp only [cyclicIndex, List.forall_mem_singleton]
    refine ⟨?_, ?_, ?_⟩
    · simp [TypeParam.Typed, hcomparable]
    · simp [harray, hmap, hpart (show IsPart "S".toList by decide) (by decide),
        hpart (show IsPart "U".toList by decide) (by decide)]
    · simp [spells_part (show IsPart "void".toList by decide)]
  · simp only [cyclicIndex, List.forall_mem_singleton, FileScope.empty]
    intro p hp
    obtain rfl := Option.some.inj hp
    exact .one (by decide)
  · simp [cyclicIndex, FileScope.empty]

/-- The bounds of `S` and `T` end at the name of a class that nothing declares. -/
theorem methodDescriptor_determines_cyclic :
    cyclicIndex.Typed ∧
      cyclicIndex.methodDescriptor ⟨⟨0, by decide⟩, ⟨0, by decide⟩⟩ =
        "(Lp/S;[I[Ljava/util/Map;Ljava/lang/Comparable;)V" ∧
      IsMethodDescriptor "(Lp/S;[I[Ljava/util/Map;Ljava/lang/Comparable;)V"
        ["Lp/S;", "[I", "[Ljava/util/Map;", "Ljava/lang/Comparable;"] "V" := by
  have hrun : cyclicIndex.methodDescriptor ⟨⟨0, by decide⟩, ⟨0, by decide⟩⟩ =
        "(Lp/S;[I[Ljava/util/Map;Ljava/lang/Comparable;)V" ∧
      cyclicIndex.parameterDescriptors ⟨⟨0, by decide⟩, ⟨0, by decide⟩⟩ =
        ["Lp/S;", "[I", "[Ljava/util/Map;", "Ljava/lang/Comparable;"] ∧
      cyclicIndex.returnDescriptor ⟨⟨0, by decide⟩, ⟨0, by decide⟩⟩ = "V" := by decide +kernel
  obtain ⟨htext, hparams, hresult⟩ := hrun
  obtain ⟨hall, _⟩ := methodDescriptor_determines cyclicIndex typed_cyclic
  obtain ⟨_, hdescriptor, _, _⟩ := hall ⟨⟨0, by decide⟩, ⟨0, by decide⟩⟩
  rw [htext, hparams, hresult] at hdescriptor
  exact ⟨typed_cyclic, htext, hdescriptor⟩

end ClassIndex

end InjectionPoints
