/-
The constructs of a grammar: the kinds of nodes that its rules make, each with the shape of its
children. A rule either makes a single node (`Rule.single`), or wraps the last sibling
(`Rule.wrapping`), or adds a list of nodes (`Rule.shape`); `sound_of_reads` shows that whatever is
read, every node at every depth is one of the constructs that `Rule.constructs` collects.
-/
import InjectionPoints.Proofs.Grammar.Reads
import InjectionPoints.Proofs.Grammar.Shape
import InjectionPoints.Proofs.Tree.Ordered

namespace InjectionPoints.Java

/-- The children of a node without the comments among them. -/
def Tree.parts (t : Tree) : List Part :=
  (t.children.filter fun c => !c.kind.isComment).map Tree.part

/-- A kind of node with the shape of its children, where its rule has one. -/
structure Construct where
  kind : Kind
  shape : Option Shape

namespace Tree

/-- The node is one of the known constructs. -/
def IsConstruct (known : List Construct) (t : Tree) : Prop :=
  ∃ sh, (⟨t.kind, some sh⟩ : Construct) ∈ known ∧ sh.Matches t.parts

/-- At every depth the tree is one of the known constructs. -/
def Built (known : List Construct) (t : Tree) : Prop := ∀ u ∈ t.preorder, u.IsConstruct known

theorem built_iff {known : List Construct} {t : Tree} :
    t.Built known ↔ t.IsConstruct known ∧ ∀ c ∈ t.children, c.Built known :=
  forall_mem_preorder_iff

theorem Built.withField {known : List Construct} {t : Tree} (h : t.Built known)
    (f : Option Field) : (t.withField f).Built known := by
  rw [built_iff] at h ⊢
  simpa [IsConstruct, parts] using h

end Tree

namespace Grammar

section Kinds

/-! ## The nodes of names -/

def typeKinds : List Kind :=
  [.integralType, .floatingPointType, .booleanType, .voidType, .typeIdentifier, .genericType,
    .scopedTypeIdentifier]

def primaryKinds : List Kind :=
  numeralOrCharacter ++ [.stringLiteral, .trueLiteral, .falseLiteral, .nullLiteral, .this,
    .parenthesizedExpression, .objectCreationExpression, .arrayCreationExpression,
    .methodInvocation, .fieldAccess, .methodReference, .classLiteral, .identifier, .arrayAccess,
    .assignmentExpression, .templateExpression]

def operandKinds : List Kind :=
  primaryKinds ++ [.unaryExpression, .updateExpression, .lambdaExpression, .castExpression,
    .switchExpression]

def expressionKinds : List Kind :=
  operandKinds ++ [.binaryExpression, .ternaryExpression, .instanceofExpression]

def statementKinds : List Kind :=
  [.token ";", .block, .ifStatement, .returnStatement, .enhancedForStatement, .forStatement,
    .whileStatement, .doStatement, .tryWithResourcesStatement, .tryStatement, .switchExpression,
    .throwStatement, .breakStatement, .continueStatement, .synchronizedStatement,
    .assertStatement, .yieldStatement, .labeledStatement, .importDeclaration, .packageDeclaration,
    .moduleDeclaration, .localVariableDeclaration, .expressionStatement] ++ Kind.typeDeclarations

/-- The kinds of nodes that a name stands for. -/
def Name.kinds : Name → List Kind
  | .expression _ | .joined _ _ => expressionKinds
  | .operand _ | .signed _ => operandKinds
  | .primary _ => primaryKinds
  | .parenthesized => [.parenthesizedExpression]
  | .arguments => [.argumentList]
  | .arrayInitializer => [.arrayInitializer]
  | .switch => [.switchExpression]
  | .recordPattern => [.recordPattern]
  | .stringLiteral => [.stringLiteral]
  | .type => .annotatedType :: .arrayType :: typeKinds
  | .plainType => .arrayType :: typeKinds
  | .simpleType => typeKinds
  | .typeArguments => [.typeArguments]
  | .dimensions => [.dimensions]
  | .annotationUse => [.annotationMarker, .annotationWithArguments]
  | .elementValue =>
    [.annotationMarker, .annotationWithArguments, .elementValueArrayInitializer] ++ expressionKinds
  | .modifiers => [.modifiers]
  | .block => [.block]
  | .statement atTop => statementKinds ++ if atTop then [.methodDeclaration] else []
  | .localVariables => [.localVariableDeclaration]
  | .formalParameters => [.formalParameters]
  | .typeParameters => [.typeParameters]
  | .classBody => [.classBody]
  | .interfaceBody => [.interfaceBody]
  | .enumBody => [.enumBody]
  | .annotationBody => [.annotationTypeBody]

end Kinds

namespace Rule

/-! ## What a rule makes -/

/-- What a rule does that at most wraps the last sibling: whether it can leave it as it is, and the
kinds of the nodes that it puts around it. -/
structure Wrapping where
  mayKeep : Bool
  kinds : List Kind

/-- The kinds of the last sibling afterwards, when it had one of the kinds `last` before. -/
def Wrapping.after (w : Wrapping) (last : List Kind) : List Kind :=
  (if w.mayKeep then last else []) ++ w.kinds

/-- What a rule does that makes no nodes of its own. -/
def wrapping : Rule → Option Wrapping
  | empty | silent | avoid _ | given _ => some ⟨true, []⟩
  | seq a b =>
    (wrapping a).bind fun v => (wrapping b).map fun w =>
      ⟨v.mayKeep && w.mayKeep, w.after v.kinds⟩
  | alt a b =>
    (wrapping a).bind fun v => (wrapping b).map fun w =>
      ⟨v.mayKeep || w.mayKeep, v.kinds ++ w.kinds⟩
  | many a => (wrapping a).map fun w => ⟨true, w.kinds⟩
  | onto _ kind _ => some ⟨false, [kind]⟩
  | _ => none

/-- The kinds of the node that a rule makes, if it makes just one. -/
def single : Rule → Option (List Kind)
  | joined _ _ kind | word _ kind | node kind _ => some [kind]
  | piece kinds => some kinds
  | seq a b => (single a).bind fun ks => (wrapping b).map fun w => w.after ks
  | alt a b => (single a).bind fun ks => (single b).map (ks ++ ·)
  | ref name => some name.kinds
  | _ => none

/-- The shape of the nodes that a rule adds. -/
def shape : Rule → Option Shape
  | empty | silent | avoid _ | given _ => some .nothing
  | joined _ _ kind | word _ kind | node kind _ => some (.one none [kind])
  | piece kinds => some (.one none kinds)
  | seq a b =>
    match single (seq a b) with
    | some ks => some (.one none ks)
    | none => (shape a).bind fun sa => (shape b).map (.seq sa)
  | alt a b => (shape a).bind fun sa => (shape b).map (.alt sa)
  | many a => (shape a).map .many
  | field role a => (shape a).map (.inRole role)
  | ref name => some (.one none name.kinds)
  | onto _ _ _ => none

mutual

/-- The constructs of a rule that makes nodes of its own. -/
def constructs : Rule → List Construct
  | joined _ _ kind | word _ kind => [⟨kind, some .nothing⟩]
  | piece kinds => kinds.map fun kind => ⟨kind, some .nothing⟩
  | seq a b =>
    constructs a ++
      match single (seq a b), single a with
      | some _, some ks => wrapped ks b
      | _, _ => constructs b
  | alt a b => constructs a ++ constructs b
  | many a => constructs a
  | node kind a => ⟨kind, shape a⟩ :: constructs a
  | field _ a => constructs a
  | _ => []

/-- The constructs of a rule that at most wraps a sibling of one of the kinds `last`. -/
def wrapped (last : List Kind) : Rule → List Construct
  | seq a b => wrapped last a ++ wrapped (((wrapping a).map fun w => w.after last).getD []) b
  | alt a b => wrapped last a ++ wrapped last b
  | many a => wrapped (last ++ ((wrapping a).map Wrapping.kinds).getD []) a
  | onto role kind a => ⟨kind, (shape a).map (.seq (.one role last))⟩ :: constructs a
  | _ => []

end

/-! ## Whatever is read is built of constructs -/

/-- What makes a list of constructs one of a grammar: every name stands for one node, and all
constructs of its rule are in the list, which knows all shapes and no comments. -/
structure Describes (grammar : Name → Rule) (known : List Construct) : Prop where
  single : ∀ name, ∃ ks, (grammar name).single = some ks ∧ ks ⊆ name.kinds
  constructs : ∀ name, (grammar name).constructs ⊆ known
  shape : ∀ c ∈ known, c.shape.isSome = true
  comment : ∀ c ∈ known, c.kind.isComment = false

/-- A node without a role, of one of the kinds. -/
structure IsOne (known : List Construct) (kinds : List Kind) (t : Tree) : Prop where
  kind : t.kind ∈ kinds
  field : t.field = none
  built : t.Built known

theorem IsOne.mono {known : List Construct} {kinds more : List Kind} {t : Tree}
    (h : IsOne known kinds t) (hk : kinds ⊆ more) : IsOne known more t :=
  ⟨hk h.kind, h.field, h.built⟩

theorem IsOne.matches {known : List Construct} {kinds : List Kind} {t : Tree}
    (h : IsOne known kinds t) : (Shape.one none kinds).Matches [t.part] := by
  rw [Tree.part, h.field]
  exact .one h.kind

/-- What `single`, `wrapping` and `shape` promise of a step from the siblings `s` to `s'`. -/
structure Sound (known : List Construct) (rule : Rule) (s s' : List Tree) : Prop where
  makes : ∀ ks, rule.single = some ks → rule.constructs ⊆ known →
    ∃ t, s' = t :: s ∧ IsOne known ks t
  wraps : ∀ w last, rule.wrapping = some w → rule.wrapped last ⊆ known → ∀ t older, s = t :: older →
    IsOne known last t → ∃ t', s' = t' :: older ∧ IsOne known (w.after last) t'
  adds : ∀ sh, rule.shape = some sh → rule.constructs ⊆ known →
    ∃ new, s' = new ++ s ∧ sh.Matches (new.reverse.map Tree.part) ∧ ∀ t ∈ new, t.Built known

variable {known : List Construct} {a b : Rule} {s s₁ s₂ s' : List Tree}

theorem sound_quiet {rule : Rule} (hs : rule.single = none) (hw : rule.wrapping = some ⟨true, []⟩)
    (ha : rule.shape = some .nothing) : Sound known rule s s where
  makes ks h := by simp [hs] at h
  wraps w last h _ t older ht h1 := by
    rw [hw, Option.some.injEq] at h
    subst h
    exact ⟨t, ht, by simpa [Wrapping.after] using h1⟩
  adds sh h _ := by
    rw [ha, Option.some.injEq] at h
    subst h
    exact ⟨[], rfl, .nothing, by simp⟩

theorem sound_one {rule : Rule} {kinds : List Kind} {t : Tree}
    (hs : rule.single = some kinds) (hw : rule.wrapping = none)
    (ha : rule.shape = some (.one none kinds))
    (ht : rule.constructs ⊆ known → IsOne known kinds t) : Sound known rule s (t :: s) where
  makes ks h hc := by
    rw [hs, Option.some.injEq] at h
    subst h
    exact ⟨t, rfl, ht hc⟩
  wraps w last h := by simp [hw] at h
  adds sh h hc := by
    rw [ha, Option.some.injEq] at h
    subst h
    exact ⟨[t], rfl, (ht hc).matches, by simpa using (ht hc).built⟩

theorem sound_seq (ha : Sound known a s s₁) (hb : Sound known b s₁ s₂) :
    Sound known (.seq a b) s s₂ := by
  have hm : ∀ ks, (Rule.seq a b).single = some ks → (Rule.seq a b).constructs ⊆ known →
      ∃ t, s₂ = t :: s ∧ IsOne known ks t := by
    intro ks h hc
    have hks := h
    simp only [single, Option.bind_eq_some_iff, Option.map_eq_some_iff] at h
    obtain ⟨ls, hls, w, hw, rfl⟩ := h
    simp only [constructs, hks, hls, List.append_subset] at hc
    obtain ⟨t, rfl, h1⟩ := ha.makes ls hls hc.1
    exact hb.wraps w ls hw hc.2 t s rfl h1
  refine ⟨hm, ?_, ?_⟩
  · intro w last h hc t older ht h1
    simp only [wrapping, Option.bind_eq_some_iff, Option.map_eq_some_iff] at h
    obtain ⟨v, hv, w, hw, rfl⟩ := h
    simp only [wrapped, hv, Option.map_some, Option.getD_some, List.append_subset] at hc
    obtain ⟨t₁, rfl, h2⟩ := ha.wraps v last hv hc.1 t older ht h1
    obtain ⟨t₂, rfl, h3⟩ := hb.wraps w _ hw hc.2 t₁ older rfl h2
    refine ⟨t₂, rfl, h3.mono ?_⟩
    simp only [Wrapping.after]
    cases v.mayKeep <;> cases w.mayKeep <;> simp
  · intro sh h hc
    rw [shape] at h
    split at h
    · rename_i ks hks
      rw [Option.some.injEq] at h
      subst h
      obtain ⟨t, rfl, h1⟩ := hm ks hks hc
      exact ⟨[t], rfl, h1.matches, by simpa using h1.built⟩
    · rename_i hn
      simp only [constructs, hn, List.append_subset] at hc
      simp only [Option.bind_eq_some_iff, Option.map_eq_some_iff] at h
      obtain ⟨sa, hsa, sb, hsb, rfl⟩ := h
      obtain ⟨new, rfl, hnew, hn⟩ := ha.adds sa hsa hc.1
      obtain ⟨new', rfl, hnew', hn'⟩ := hb.adds sb hsb hc.2
      refine ⟨new' ++ new, by simp, ?_, ?_⟩
      · rw [List.reverse_append, List.map_append]
        exact .seq hnew hnew'
      · intro t ht
        rcases List.mem_append.1 ht with ht | ht
        · exact hn' t ht
        · exact hn t ht

theorem sound_left (ha : Sound known a s s') : Sound known (.alt a b) s s' where
  makes ks h hc := by
    simp only [single, Option.bind_eq_some_iff, Option.map_eq_some_iff] at h
    obtain ⟨ks, hks, ls, _, rfl⟩ := h
    obtain ⟨t, rfl, h1⟩ := ha.makes ks hks (List.append_subset.1 hc).1
    exact ⟨t, rfl, h1.mono (List.subset_append_left ks ls)⟩
  wraps w last h hc t older ht h1 := by
    simp only [wrapping, Option.bind_eq_some_iff, Option.map_eq_some_iff] at h
    obtain ⟨v, hv, w, _, rfl⟩ := h
    obtain ⟨t', rfl, h2⟩ := ha.wraps v last hv (List.append_subset.1 hc).1 t older ht h1
    refine ⟨t', rfl, h2.mono ?_⟩
    simp only [Wrapping.after]
    cases v.mayKeep <;> cases w.mayKeep <;> simp
  adds sh h hc := by
    simp only [shape, Option.bind_eq_some_iff, Option.map_eq_some_iff] at h
    obtain ⟨sa, hsa, sb, _, rfl⟩ := h
    obtain ⟨new, rfl, hm, hn⟩ := ha.adds sa hsa (List.append_subset.1 hc).1
    exact ⟨new, rfl, .left hm, hn⟩

theorem sound_right (hb : Sound known b s s') : Sound known (.alt a b) s s' where
  makes ks h hc := by
    simp only [single, Option.bind_eq_some_iff, Option.map_eq_some_iff] at h
    obtain ⟨ks, _, ls, hls, rfl⟩ := h
    obtain ⟨t, rfl, h1⟩ := hb.makes ls hls (List.append_subset.1 hc).2
    exact ⟨t, rfl, h1.mono (List.subset_append_right ks ls)⟩
  wraps w last h hc t older ht h1 := by
    simp only [wrapping, Option.bind_eq_some_iff, Option.map_eq_some_iff] at h
    obtain ⟨v, _, w, hw, rfl⟩ := h
    obtain ⟨t', rfl, h2⟩ := hb.wraps w last hw (List.append_subset.1 hc).2 t older ht h1
    refine ⟨t', rfl, h2.mono ?_⟩
    simp only [Wrapping.after]
    cases v.mayKeep <;> cases w.mayKeep <;> simp
  adds sh h hc := by
    simp only [shape, Option.bind_eq_some_iff, Option.map_eq_some_iff] at h
    obtain ⟨sa, _, sb, hsb, rfl⟩ := h
    obtain ⟨new, rfl, hm, hn⟩ := hb.adds sb hsb (List.append_subset.1 hc).2
    exact ⟨new, rfl, .right hm, hn⟩

/-- A rule that at most wraps a sibling keeps it among the kinds `last`, however often it is
followed. -/
def Loops (known : List Construct) (a : Rule) (s s' : List Tree) : Prop :=
  ∀ w last, a.wrapping = some w → w.kinds ⊆ last → a.wrapped last ⊆ known → ∀ t older,
    s = t :: older → IsOne known last t → ∃ t', s' = t' :: older ∧ IsOne known last t'

theorem loops_refl : Loops known a s s :=
  fun _ _ _ _ _ t _ ht h1 => ⟨t, ht, h1⟩

theorem loops_again (ha : Sound known a s s₁) (hl : Loops known a s₁ s₂) :
    Loops known a s s₂ := by
  intro w last hw hk hc t older ht h1
  obtain ⟨t₁, rfl, h2⟩ := ha.wraps w last hw hc t older ht h1
  refine hl w last hw hk hc t₁ older rfl (h2.mono ?_)
  refine List.append_subset.2 ⟨?_, hk⟩
  cases w.mayKeep <;> simp

theorem sound_many (hl : Loops known a s s')
    (hs : ∀ sa, a.shape = some sa → a.constructs ⊆ known →
      ∃ new, s' = new ++ s ∧ (Shape.many sa).Matches (new.reverse.map Tree.part) ∧
        ∀ t ∈ new, t.Built known) : Sound known (.many a) s s' where
  makes ks h := by simp [single] at h
  wraps w last h hc t older ht h1 := by
    simp only [wrapping, Option.map_eq_some_iff] at h
    obtain ⟨w, hw, rfl⟩ := h
    simp only [wrapped, hw, Option.map_some, Option.getD_some] at hc
    exact hl w (last ++ w.kinds) hw (List.subset_append_right last w.kinds) hc t older ht
      (h1.mono (List.subset_append_left last w.kinds))
  adds sh h hc := by
    simp only [shape, Option.map_eq_some_iff] at h
    obtain ⟨sa, hsa, rfl⟩ := h
    exact hs sa hsa hc

theorem sound_done : Sound known (.many a) s s :=
  sound_many loops_refl fun _ _ _ => ⟨[], rfl, .done, by simp⟩

theorem sound_again (ha : Sound known a s s₁) (hm : Sound known (.many a) s₁ s₂)
    (hl : Loops known a s₁ s₂) : Sound known (.many a) s s₂ := by
  refine sound_many (loops_again ha hl) fun sa hsa hc => ?_
  obtain ⟨new, rfl, hnew, hn⟩ := ha.adds sa hsa hc
  obtain ⟨new', rfl, hnew', hn'⟩ := hm.adds (.many sa) (by simp [shape, hsa]) hc
  refine ⟨new' ++ new, by simp, ?_, ?_⟩
  · rw [List.reverse_append, List.map_append]
    exact .again hnew hnew'
  · intro t ht
    rcases List.mem_append.1 ht with ht | ht
    · exact hn' t ht
    · exact hn t ht

/-! ### Nodes -/

variable {grammar : Name → Rule}

theorem parts_branch (hd : Describes grammar known) {kind : Kind} {cs : List Tree}
    (h : ∀ c ∈ cs, c.Built known) : (Tree.branch kind cs).parts = cs.map Tree.part := by
  rw [Tree.parts, List.filter_eq_self.2]
  · rfl
  · intro c hc
    obtain ⟨sh, hk, _⟩ := h c hc c c.self_mem_preorder
    simp [hd.comment _ hk]

theorem built_leaf {kind : Kind} {span : Span} (h : (⟨kind, some .nothing⟩ : Construct) ∈ known) :
    (Tree.leaf kind span).Built known :=
  Tree.built_iff.2 ⟨⟨.nothing, h, .nothing⟩, by simp [Tree.leaf]⟩

theorem built_branch (hd : Describes grammar known) {kind : Kind} {sh : Shape} {cs : List Tree}
    (hk : (⟨kind, some sh⟩ : Construct) ∈ known) (hm : sh.Matches (cs.map Tree.part))
    (h : ∀ c ∈ cs, c.Built known) : (Tree.branch kind cs).Built known :=
  Tree.built_iff.2 ⟨⟨sh, hk, by rwa [parts_branch hd h]⟩, h⟩

theorem sound_node (hd : Describes grammar known) {kind : Kind} {children : List Tree}
    (ha : Sound known a [] children) :
    Sound known (.node kind a) s (.branch kind children.reverse :: s) := by
  refine sound_one rfl rfl rfl fun hc => ⟨by simp [Tree.branch], rfl, ?_⟩
  obtain ⟨hk, hc⟩ := List.cons_subset.1 hc
  obtain ⟨sh, hsh⟩ := Option.isSome_iff_exists.1 (hd.shape _ hk)
  obtain ⟨new, rfl, hm, hn⟩ := ha.adds sh hsh hc
  rw [List.append_nil]
  rw [show a.shape = some sh from hsh] at hk
  exact built_branch hd hk hm fun c hc => hn c (List.mem_reverse.1 hc)

theorem sound_onto (hd : Describes grammar known) {role : Option Field} {kind : Kind}
    {first : Tree} {older children : List Tree} (ha : Sound known a [first.withField role] children) :
    Sound known (.onto role kind a) (first :: older) (.branch kind children.reverse :: older) where
  makes ks h := by simp [single] at h
  wraps w last h hc t older' ht h1 := by
    simp only [wrapping, Option.some.injEq] at h
    subst h
    rw [List.cons.injEq] at ht
    obtain ⟨rfl, rfl⟩ := ht
    refine ⟨_, rfl, by simp [Wrapping.after, Tree.branch], rfl, ?_⟩
    obtain ⟨hk, hc⟩ := List.cons_subset.1 hc
    obtain ⟨sh, hsh⟩ := Option.isSome_iff_exists.1 (hd.shape _ hk)
    simp only [Option.map_eq_some_iff] at hsh
    obtain ⟨sa, hsa, rfl⟩ := hsh
    rw [hsa] at hk
    obtain ⟨new, rfl, hm, hn⟩ := ha.adds sa hsa hc
    refine built_branch hd hk ?_ fun c hc => ?_
    · have hf : (Shape.one role last).Matches [(first.withField role).part] := by
        rw [Tree.part, Tree.field_withField, Tree.kind_withField]
        exact .one h1.kind
      simpa using Shape.Matches.seq hf hm
    · rcases List.mem_append.1 (List.mem_reverse.1 hc) with hc | hc
      · exact hn c hc
      · rw [List.mem_singleton] at hc
        subst hc
        exact h1.built.withField role
  adds sh h := by simp [shape] at h

theorem sound_field {role : Field} {children : List Tree} (ha : Sound known a [] children) :
    Sound known (.field role a) s (children.map (Tree.withField (some role)) ++ s) where
  makes ks h := by simp [single] at h
  wraps w last h := by simp [wrapping] at h
  adds sh h hc := by
    simp only [shape, Option.map_eq_some_iff] at h
    obtain ⟨sa, hsa, rfl⟩ := h
    obtain ⟨new, rfl, hm, hn⟩ := ha.adds sa hsa hc
    rw [List.append_nil]
    refine ⟨_, rfl, ?_, fun t ht => ?_⟩
    · rw [← List.map_reverse, List.map_map]
      simpa [Function.comp_def, Tree.part] using hm.inRole role
    · obtain ⟨c, hc, rfl⟩ := List.mem_map.1 ht
      exact (hn c hc).withField (some role)

theorem sound_ref (hd : Describes grammar known) {name : Name}
    (h : Sound known (grammar name) s s') : Sound known (.ref name) s s' := by
  obtain ⟨ks, hks, hsub⟩ := hd.single name
  obtain ⟨t, rfl, h1⟩ := h.makes ks hks (hd.constructs name)
  exact sound_one rfl rfl rfl fun _ => h1.mono hsub

theorem sound_of_reads (hd : Describes grammar known) {rule : Rule} {ts ts' : List Token}
    (h : Reads grammar rule s ts s' ts') :
    Sound known rule s s' ∧ ∀ a, rule = .many a → Loops known a s s' := by
  induction h with
  | empty | silent | avoid | given _ => exact ⟨sound_quiet rfl rfl rfl, by simp⟩
  | joined _ | word =>
    refine ⟨sound_one rfl rfl rfl fun hc => ⟨by simp [Tree.leaf], rfl, built_leaf (hc ?_)⟩, by simp⟩
    simp [constructs]
  | piece hk =>
    refine ⟨sound_one rfl rfl rfl fun hc => ⟨hk, rfl, built_leaf (hc ?_)⟩, by simp⟩
    exact List.mem_map.2 ⟨_, hk, rfl⟩
  | seq _ _ iha ihb => exact ⟨sound_seq iha.1 ihb.1, by simp⟩
  | left _ ih => exact ⟨sound_left ih.1, by simp⟩
  | right _ ih => exact ⟨sound_right ih.1, by simp⟩
  | done => exact ⟨sound_done, fun _ _ => loops_refl⟩
  | again _ _ iha ihm =>
    refine ⟨sound_again iha.1 ihm.1 (ihm.2 _ rfl), fun b hb => ?_⟩
    rw [Rule.many.injEq] at hb
    subst hb
    exact loops_again iha.1 (ihm.2 _ rfl)
  | node _ ih => exact ⟨sound_node hd ih.1, by simp⟩
  | onto _ ih => exact ⟨sound_onto hd ih.1, by simp⟩
  | field _ ih => exact ⟨sound_field ih.1, by simp⟩
  | ref _ ih => exact ⟨sound_ref hd ih.1, by simp⟩

end Rule

end Grammar

end InjectionPoints.Java
