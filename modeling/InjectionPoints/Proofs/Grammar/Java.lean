/-
The constructs of the Java grammar. Levels of operators apart the grammar has finitely many names,
so `Grammar.constructs` lists its constructs, and the nodes that are read from tokens are built of
them (`built_of_read?`).
-/
import InjectionPoints.Proofs.Grammar.Construct

namespace InjectionPoints.Java

namespace Grammar

/-- The names, with one level for all operators. -/
def names : List Name :=
  [.expression true, .expression false, .joined 0 true, .joined 0 false, .operand true,
    .operand false, .signed true, .signed false, .primary true, .primary false, .parenthesized,
    .arguments, .arrayInitializer, .switch, .recordPattern, .stringLiteral, .type, .plainType,
    .simpleType, .typeArguments, .dimensions, .annotationUse, .elementValue, .modifiers, .block,
    .statement true, .statement false, .localVariables, .formalParameters, .typeParameters,
    .classBody, .interfaceBody, .enumBody, .annotationBody]

theorem exists_mem_names (name : Name) : ∃ n ∈ names, flat n = flat name ∧ n.kinds = name.kinds := by
  cases name with
  | expression arrows => exact ⟨.expression arrows, by cases arrows <;> simp [names], rfl, rfl⟩
  | joined level arrows => exact ⟨.joined 0 arrows, by cases arrows <;> simp [names], rfl, rfl⟩
  | operand arrows => exact ⟨.operand arrows, by cases arrows <;> simp [names], rfl, rfl⟩
  | signed arrows => exact ⟨.signed arrows, by cases arrows <;> simp [names], rfl, rfl⟩
  | primary arrows => exact ⟨.primary arrows, by cases arrows <;> simp [names], rfl, rfl⟩
  | statement atTop => exact ⟨.statement atTop, by cases atTop <;> simp [names], rfl, rfl⟩
  | _ => exact ⟨_, by simp [names], rfl, rfl⟩

/-- The constructs of the grammar, the whole text among them. -/
def constructs : List Construct :=
  ⟨.program, program.shape⟩ :: names.flatMap fun name => (flat name).constructs

theorem names_single :
    (names.all fun name =>
      match (flat name).single with
      | none => false
      | some kinds => kinds.all name.kinds.contains) = true := by
  decide +kernel

theorem constructs_known :
    (constructs.all fun c => c.shape.isSome && !c.kind.isComment) = true := by
  decide +kernel

theorem describes : Rule.Describes flat constructs where
  single name := by
    obtain ⟨n, hn, hf, hk⟩ := exists_mem_names name
    have h := List.all_eq_true.1 names_single n hn
    rw [hf, hk] at h
    split at h
    · simp at h
    · rename_i kinds hs
      exact ⟨kinds, hs, fun k hk => List.contains_iff_mem.1 (List.all_eq_true.1 h k hk)⟩
  constructs name := by
    obtain ⟨n, hn, hf, _⟩ := exists_mem_names name
    rw [← hf]
    exact fun c hc => List.mem_cons_of_mem _ (List.mem_flatMap.2 ⟨n, hn, hc⟩)
  shape c hc := by
    have h := List.all_eq_true.1 constructs_known c hc
    rw [Bool.and_eq_true] at h
    exact h.1
  comment c hc := by
    have h := List.all_eq_true.1 constructs_known c hc
    rw [Bool.and_eq_true, Bool.not_eq_true'] at h
    exact h.2

theorem reads_of_read? {tokens : List Token} {nodes : List Tree}
    (h : read? tokens = some nodes) : Rule.Reads flat program [] tokens nodes.reverse [] := by
  rw [read?] at h
  split at h
  · rename_i nodes' hr
    rw [Option.some.injEq] at h
    subst h
    rw [List.reverse_reverse]
    exact (Rule.reads_of_read hr).flat
  · simp at h

/-- The nodes at the top of a text are built of constructs, and together they have the shape of a
whole text. -/
theorem built_of_read? {tokens : List Token} {nodes : List Tree}
    (h : read? tokens = some nodes) :
    (∃ sh, program.shape = some sh ∧ sh.Matches (nodes.map Tree.part)) ∧
      ∀ t ∈ nodes, t.Built constructs := by
  have hs : ∃ sh, program.shape = some sh :=
    Option.isSome_iff_exists.1 (describes.shape _ List.mem_cons_self)
  obtain ⟨sh, hsh⟩ := hs
  obtain ⟨new, hn, hm, hb⟩ :=
    (Rule.sound_of_reads describes (reads_of_read? h)).1.adds sh hsh (by simp [program, Rule.constructs])
  rw [List.append_nil] at hn
  subst hn
  rw [List.reverse_reverse] at hm
  exact ⟨⟨sh, hsh, hm⟩, fun t ht => hb t (List.mem_reverse.2 ht)⟩

end Grammar

end InjectionPoints.Java
