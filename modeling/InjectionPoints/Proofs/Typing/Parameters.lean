/-
The types of parameters, in the descriptor of a method and where its body uses them. The index reads
the type of a parameter with the dimensions behind its name; a use has the type as it is written in
front. So the two agree for a parameter of fixed arity when its type is not inferred and no dimension
stands behind the name, and for one with `...` when a field of that name happens to have the type
(`typeOf_parameter`).
-/
import InjectionPoints.Proofs.Descriptors.Erasure
import InjectionPoints.Proofs.MethodPlaces
import InjectionPoints.Proofs.Scope.Innermost

namespace InjectionPoints

open Java Java.TypeText Text

/-! ## Descriptors of written types -/

namespace Java.TypeText

theorem erasure_compact (s : String) : erasure (compact s) = erasure s := by
  rw [erasure, squeezeChars_compact, erasure]

theorem dimensions_brackets (k : Nat) : Dimensions (brackets k) k := by
  induction k with
  | zero => exact .nil
  | succ k ih => exact .pair ih

theorem Dimensions.append_brackets {text : List Char} {n : Nat} (h : Dimensions text n) (k : Nat) :
    Dimensions (text ++ brackets k) (n + k) := by
  induction h with
  | nil =>
    rw [List.nil_append, Nat.zero_add]
    exact dimensions_brackets k
  | pair _ ih =>
    rw [Nat.succ_add]
    exact .pair ih
  | ellipsis _ ih =>
    rw [Nat.succ_add]
    exact .ellipsis ih

/-- More dimensions behind a written type. -/
theorem Spells.erasure_brackets {type name : String} {n : Nat} (h : Spells type name n) (k : Nat) :
    erasure (compact type ++ String.ofList (brackets k)) = (name, n + k) := by
  refine Spells.erasure_eq ?_
  obtain ⟨text, dimensions, hsqueeze, hnamed, hdimensions⟩ := h
  have hbrackets : squeezeChars (brackets k) = brackets k := by
    refine squeezeChars_eq_self fun c hc => ?_
    induction k with
    | zero => simp [brackets] at hc
    | succ k ih =>
      simp only [brackets, List.mem_cons] at hc
      rcases hc with rfl | rfl | hc
      · decide
      · decide
      · exact ih hc
  refine ⟨text, dimensions ++ brackets k, ?_, hnamed, ?_⟩
  · rw [String.toList_append, String.toList_ofList, squeezeChars_append, squeezeChars_compact,
      hbrackets, hsqueeze, List.append_assoc]
  · exact hdimensions.append_brackets k

end Java.TypeText

namespace ClassIndex

variable {ix : ClassIndex} {file : FileId} {vars : List TypeParam} {s s' : String}

theorem arrayOf_add (n k : Nat) (descriptor : String) :
    arrayOf (n + k) descriptor = arrayOf k (arrayOf n descriptor) := by
  rw [arrayOf, arrayOf, arrayOf, ← String.append_assoc, ← String.ofList_append, Nat.add_comm,
    List.replicate_append_replicate]

theorem arrayOf_eq_self_iff {n : Nat} {descriptor : String} :
    arrayOf n descriptor = descriptor ↔ n = 0 := by
  rw [← String.toList_inj, arrayOf, String.toList_append, String.toList_ofList]
  simp

/-- More dimensions of a type are more dimensions of the descriptor. -/
theorem erasedDescriptor_arrayOf {k : Nat} (h : erasure s' = ((erasure s).1, (erasure s).2 + k)) :
    ix.erasedDescriptor file vars s' = arrayOf k (ix.erasedDescriptor file vars s) := by
  rw [erasedDescriptor, erasedDescriptor]
  cases vars.length with
  | zero =>
    rw [descriptorWithin, descriptorWithin, h]
    exact arrayOf_add _ _ _
  | succ n =>
    rw [descriptorWithin, descriptorWithin, h]
    exact arrayOf_add _ _ _

/-- White space in a type means nothing to the descriptor. -/
theorem methodTypeDescriptor_compact (m : ix.MethodId) (type : String) :
    ix.methodTypeDescriptor m (compact type) = ix.methodTypeDescriptor m type := by
  have h : erasure (compact type) = ((erasure type).1, (erasure type).2 + 0) := erasure_compact type
  exact (erasedDescriptor_arrayOf h).trans (arrayOf_eq_self_iff.2 rfl)

/-- Brackets behind the name of a parameter are dimensions of its type. -/
theorem methodTypeDescriptor_brackets (m : ix.MethodId) {type name : String} {n : Nat}
    (h : Spells type name n) (k : Nat) :
    ix.methodTypeDescriptor m (compact type ++ String.ofList (brackets k)) =
      arrayOf k (ix.methodTypeDescriptor m type) :=
  erasedDescriptor_arrayOf (by rw [h.erasure_brackets, h.erasure_eq])

end ClassIndex

/-! ## Parameters and their places -/

namespace Parameter

/-- The parameter that a node of a list of parameters is. -/
def read? (source : String) (t : Tree) : Option Parameter :=
  match t.kind with
  | .formalParameter => single? source t
  | .spreadParameter => spread? source t
  | _ => none

/-- The parameters of a declaration, with their places. -/
def readAt (source : String) (declaration : Place) : List (Place × Parameter) :=
  (((declaration.child? .parameters).map Place.namedChildren).getD []).filterMap fun c =>
    (read? source c.node).map fun x => (c, x)

variable {source : String} {declaration c : Place} {x : Parameter}

theorem map_readAt (source : String) (declaration : Place) :
    (readAt source declaration).map Prod.snd = ofDeclaration source declaration.node := by
  rw [readAt, ofDeclaration, ← Place.map_node_child?, Option.map_map]
  cases declaration.child? .parameters with
  | none => rfl
  | some ps =>
    show List.map Prod.snd (List.filterMap _ ps.namedChildren) = ofTree source ps.node
    rw [ofTree, ← Place.map_node_namedChildren, List.filterMap_map, List.map_filterMap]
    refine List.filterMap_congr fun c _ => ?_
    rw [Option.map_map, Function.comp_apply]
    exact Option.map_id'

/-- What is read of a parameter: its type with the dimensions behind its name, or the type in front
of `...` as an array. -/
theorem of_mem_readAt (h : (c, x) ∈ readAt source declaration) :
    ∃ ps ∈ declaration.children, c ∈ ps.children ∧
      (c.kind = .formalParameter ∧ (∃ ty n, c.child? .type = some ty ∧ c.child? .name = some n ∧
          x.field.name = n.text source ∧
          x.field.type = compact (ty.text source) ++ c.node.dimensionsText source) ∨
        c.kind = .spreadParameter) := by
  obtain ⟨d, hd, hx⟩ := List.mem_filterMap.1 h
  obtain ⟨y, hy, he⟩ := Option.map_eq_some_iff.1 hx
  obtain ⟨rfl, rfl⟩ := Prod.mk.inj he
  cases hps : declaration.child? .parameters with
  | none => simp [hps] at hd
  | some ps =>
    rw [hps, Option.map_some, Option.getD_some] at hd
    refine ⟨ps, (Place.child?_mem hps).1, Place.mem_of_mem_namedChildren hd, ?_⟩
    rw [read?] at hy
    split at hy
    · next hk =>
      simp only [single?, ← Place.map_node_child?, Option.bind_eq_bind, Option.bind_eq_some_iff,
        Option.map_eq_some_iff, Option.pure_def, Option.some.injEq] at hy
      obtain ⟨_, ⟨ty, hty, rfl⟩, _, ⟨n, hn, rfl⟩, rfl⟩ := hy
      exact .inl ⟨hk, ty, n, hty, hn, rfl, rfl⟩
    · next hk => exact .inr hk
    · simp at hy

end Parameter

namespace Workspace

variable {files : List (String × String)} {m : (ofFiles files).index.MethodId} {p : Place}

/-- The parameters in the text are those of the descriptor. -/
theorem parameterDescriptors_of_methodAt (h : (ofFiles files).MethodAt m p) :
    (ofFiles files).index.parameterDescriptors m =
      (Parameter.readAt ((ofFiles files).sourceOf m) p).map fun y =>
        (ofFiles files).index.methodTypeDescriptor m y.2.field.type := by
  obtain ⟨declaration, _, hat⟩ := h
  obtain ⟨_, _, hread⟩ := MethodDecl.of_mem_readAt (List.mem_of_getElem? hat)
  obtain ⟨name, returnType, _, hm⟩ := MethodDecl.exists_of_ofTree? hread
  have hparams : ((ofFiles files).index.method m).params =
      (Parameter.ofDeclaration ((ofFiles files).text
        ((ofFiles files).index.decl m.owner).file) p.node).map (·.field.type) := by
    rw [hm]
  rw [ClassIndex.parameterDescriptors, hparams, ← Parameter.map_readAt, List.map_map, List.map_map]
  rfl

end Workspace

/-! ## Uses -/

/-- `u` uses the parameter `c` of the declaration `p`: it is its name, in the body, where no other
declaration of the name is seen. -/
structure UsesParameter (source : String) (p c : Place) (name : String) (u : Place) : Prop where
  inBody : InBody p u
  kind : u.kind = .identifier
  text : u.text source = name
  alone : ∀ q ∈ p.preorder, q ≠ c → ∀ form n, Declares q form n → n.text source = name →
    ¬Seen q n u form

section

variable {source : String} {t : Tree} {p ps c u n ty : Place} {name : String}
  (h : Tree.ofText? source = some t) (hp : p ∈ (Place.root t).preorder)
  (hu : UsesParameter source p c name u)

include h hp hu

/-- The variable that is visible at a use comes from the parameter. -/
theorem UsesParameter.eq_of_isVisible {q : Place} {v : LocalVariable}
    (hv : IsVisible source name p u q v) : q = c := by
  by_contra hne
  obtain ⟨hq, form, k, hd, hk, hr, hat⟩ := hv.exists_declares h hp
  obtain ⟨hb, h₁, h₂⟩ := LocalVariable.isVisibleAt_iff.1 hv.visible
  obtain ⟨b, hb', hub⟩ := hu.inBody
  have hut := Place.mem_preorder_trans (Place.mem_preorder_trans hub
    (Place.mem_preorder_of_mem_children (Place.child?_mem hb').1)) hp
  exact hu.alone q hv.below hne form k hd hk ⟨v.region, hr,
    (mem_preorder_iff_covers h hut hu.kind (mem_of_seenIn? hq hr)).2 ⟨h₁, h₂⟩, hat ▸ hb⟩

/-- A use of a parameter of fixed arity means the variable with the type written in front. -/
theorem UsesParameter.local?_eq_some {ix : ClassIndex} (method : ix.MethodId)
    (hps : ps ∈ p.children) (hc : c ∈ ps.children) (hk : c.kind = .formalParameter)
    (hty : c.child? .type = some ty) (hn : c.child? .name = some n) (hname : n.text source = name) :
    (Scope.ofMethod source method p).local? name u =
      some (.ofNodes source n (some ty) none p) := by
  have hpc : c ∈ p.preorder := Place.mem_preorder_trans (Place.mem_preorder_of_mem_children hc)
    (Place.mem_preorder_of_mem_children hps)
  have hparent : c.parent?.bind Place.parent? = some p := by
    rw [Place.parent?_of_mem_children hc, Option.bind_some, Place.parent?_of_mem_children hps]
  have hop : p.node.Ordered := (Place.ordered_of_mem_preorder (Tree.ordered_of_ofText? h) hp).2.1
  obtain ⟨w, hw, huw, hb⟩ := seen_of_inScope h (Place.mem_preorder_trans hpc hp) (.parameter hk hn)
    (inScope_parameter (.inl rfl) hps hc hu.inBody) fun hmissed => hmissed
  obtain rfl : p = w := Option.some.inj (hparent.symm.trans hw)
  obtain ⟨h₁, _, h₂⟩ := Place.ordered_of_mem_preorder hop huw
  have hvisible : IsVisible source name p u c (.ofNodes source n (some ty) none p) := by
    refine ⟨hpc, ?_, LocalVariable.isVisibleAt_iff.2 ⟨hb, h₁, h₂⟩⟩
    obtain ⟨ps', hps', hpp⟩ := Option.bind_eq_some_iff.1 hparent
    simp [LocalVariable.declaredAtNode, hk, LocalVariable.ofParameter?, hps', hpp, hn, hty,
      LocalVariable.ofNodes, hname]
  cases hv : (Scope.ofMethod source method p).local? name u with
  | none => exact absurd hvisible (local?_eq_none_iff.1 hv c _)
  | some v =>
    obtain ⟨q, hq, _⟩ := exists_of_local? hop hv
    obtain rfl := hu.eq_of_isVisible h hp hq
    exact hq.declared.symm.trans hvisible.declared

/-- A use of a parameter with `...` means no variable. -/
theorem UsesParameter.local?_eq_none {ix : ClassIndex} (method : ix.MethodId)
    (hk : c.kind = .spreadParameter) :
    (Scope.ofMethod source method p).local? name u = none := by
  refine local?_eq_none_iff.2 fun q v hv => ?_
  obtain rfl := hu.eq_of_isVisible h hp hv
  have hd := hv.declared
  simp [LocalVariable.declaredAtNode, hk] at hd

end

namespace Scope

variable {ix : ClassIndex}

/-- When the uses of a parameter have the type `d`. One of fixed arity has the type that is written in
front of its name, unless that is inferred; one with `...` is no variable, and has the type of a field
of its name. -/
def TypesParameter (s : Scope ix) (c : Place) (x : Parameter) (d : String) : Prop :=
  c.kind = .formalParameter ∧
      (∃ ty, c.child? .type = some ty ∧ s.text ty ≠ inferredType ∧
        ix.methodTypeDescriptor s.method (s.text ty) = d) ∨
    c.kind = .spreadParameter ∧
      ∃ f, s.fieldNamed? x.field.name = some f ∧ ix.fieldDescriptor f = d

theorem typesParameter_fixed_iff {s : Scope ix} {c ty : Place} {x : Parameter} {d : String}
    (hk : c.kind = .formalParameter) (hty : c.child? .type = some ty) :
    s.TypesParameter c x d ↔
      s.text ty ≠ inferredType ∧ ix.methodTypeDescriptor s.method (s.text ty) = d := by
  simp [TypesParameter, hk, hty]

theorem typesParameter_spread_iff {s : Scope ix} {c : Place} {x : Parameter} {d : String}
    (hk : c.kind = .spreadParameter) :
    s.TypesParameter c x d ↔
      ∃ f, s.fieldNamed? x.field.name = some f ∧ ix.fieldDescriptor f = d := by
  simp [TypesParameter, hk]

/-- The type of a variable without a first value. -/
theorem variableType_eq_known_iff {s : Scope ix} {t : Typing ix} {n ty p : Place} {d : String} :
    s.variableType t (.ofNodes s.source n (some ty) none p) = .known d ↔
      s.text ty ≠ inferredType ∧ ix.methodTypeDescriptor s.method (s.text ty) = d := by
  rw [variableType, LocalVariable.ofNodes, Option.map_some]
  dsimp only
  split
  · next h => simp [beq_iff_eq.1 h, text]
  · next h =>
    rw [beq_iff_eq] at h
    simp [h, text]

theorem typeOf_identifier (s : Scope ix) {u : Place} (hk : u.kind = .identifier) :
    s.fullTyping.typeOf u =
      ((s.local? (s.text u) u).map (s.variableType (s.typing 15))).getD
        (((s.fieldNamed? (s.text u)).map fun f => .known (ix.fieldDescriptor f)).getD .unknown) := by
  show s.expressionType (s.typing 15) u = _
  rw [expressionType, hk]
  cases s.local? (s.text u) u <;> rfl

end Scope

namespace Workspace

variable {files : List (String × String)} {m : (ofFiles files).index.MethodId} {p c u : Place}
  {x : Parameter} {i : Nat}

/-- What the uses of a parameter of the declaration have for a type. -/
theorem typeOf_of_methodAt (hm : (ofFiles files).MethodAt m p)
    (hi : (Parameter.readAt ((ofFiles files).sourceOf m) p)[i]? = some (c, x))
    (hu : UsesParameter ((ofFiles files).sourceOf m) p c x.field.name u) (d : String) :
    let s := Scope.ofMethod ((ofFiles files).sourceOf m) m p
    s.fullTyping.typeOf u = .known d ↔ s.TypesParameter c x d := by
  intro s
  obtain ⟨t, _, ht, hp⟩ := exists_tree_of_methodAt hm
  obtain ⟨ps, hps, hc, hread⟩ := Parameter.of_mem_readAt (List.mem_of_getElem? hi)
  rw [s.typeOf_identifier hu.kind, show s.text u = x.field.name from hu.text]
  rcases hread with ⟨hk, ty, n, hty, hn, hname, _⟩ | hk
  · rw [hu.local?_eq_some ht hp m hps hc hk hty hn hname.symm, Option.map_some, Option.getD_some,
      Scope.typesParameter_fixed_iff hk hty]
    exact Scope.variableType_eq_known_iff
  · rw [hu.local?_eq_none ht hp m hk, Option.map_none, Option.getD_none,
      Scope.typesParameter_spread_iff hk]
    cases s.fieldNamed? x.field.name <;> simp

/-- When the type that is written in front of a parameter is its type in the descriptor. -/
theorem typesParameter_of_fixed
    (hi : (Parameter.readAt ((ofFiles files).sourceOf m) p)[i]? = some (c, x))
    (hk : c.kind = .formalParameter) {ty : Place} (hty : c.child? .type = some ty) :
    let s := Scope.ofMethod ((ofFiles files).sourceOf m) m p
    let d := (ofFiles files).index.methodTypeDescriptor m x.field.type
    s.text ty ≠ Scope.inferredType →
      (c.child? .dimensions = none → s.TypesParameter c x d) ∧
      ∀ name n k, Spells (s.text ty) name n →
        c.node.dimensionsText s.source = String.ofList (brackets k) →
          (s.TypesParameter c x d ↔ k = 0) := by
  intro s d hvar
  obtain ⟨_, _, _, ⟨_, ty', n, hty', _, _, htype⟩ | hk'⟩ :=
    Parameter.of_mem_readAt (List.mem_of_getElem? hi)
  · obtain rfl : ty = ty' := Option.some.inj (hty.symm.trans hty')
    rw [Scope.typesParameter_fixed_iff hk hty, and_iff_right hvar]
    simp only [d, htype]
    constructor
    · intro hnone
      have hdims : c.node.dimensionsText ((ofFiles files).sourceOf m) = "" := by
        rw [Tree.dimensionsText, ← Place.map_node_child?, hnone]
        rfl
      rw [hdims, String.append_empty, ClassIndex.methodTypeDescriptor_compact]
      rfl
    · intro name n k hspells hdims
      change (ofFiles files).index.methodTypeDescriptor m (s.text ty) =
        (ofFiles files).index.methodTypeDescriptor m
          (compact (s.text ty) ++ c.node.dimensionsText s.source) ↔ k = 0
      rw [hdims, ClassIndex.methodTypeDescriptor_brackets m hspells, eq_comm]
      exact ClassIndex.arrayOf_eq_self_iff
  · rw [hk'] at hk
    simp at hk

/-- At its uses a parameter has the type that it has in the descriptor of the method exactly when it is
of fixed arity, its type is not inferred and the dimensions behind its name add nothing, or else a
field of its name has the type. Without dimensions behind the name nothing is added, and brackets
there always add something. -/
theorem typeOf_parameter (hb : ((ofFiles files).index.method m).hasBody = true) :
    ∃ target, Target.declaration? (ofFiles files) m = some target ∧
      (Parameter.readAt ((ofFiles files).sourceOf m) target.declaration).length =
        ((ofFiles files).index.parameterDescriptors m).length ∧
      ∀ (i : Nat) (c : Place) (x : Parameter) (u : Place),
        (Parameter.readAt ((ofFiles files).sourceOf m) target.declaration)[i]? = some (c, x) →
        UsesParameter ((ofFiles files).sourceOf m) target.declaration c x.field.name u →
          let s := Scope.ofMethod ((ofFiles files).sourceOf m) m target.declaration
          ∃ d, ((ofFiles files).index.parameterDescriptors m)[i]? = some d ∧
            (s.fullTyping.typeOf u = .known d ↔ s.TypesParameter c x d) ∧
            (c.kind = .formalParameter → ∀ ty, c.child? .type = some ty →
              s.text ty ≠ Scope.inferredType →
                (c.child? .dimensions = none → s.TypesParameter c x d) ∧
                ∀ name n k, Spells (s.text ty) name n →
                  c.node.dimensionsText s.source = String.ofList (brackets k) →
                    (s.TypesParameter c x d ↔ k = 0)) := by
  obtain ⟨target, ht⟩ := exists_declaration? hb
  obtain ⟨_, hm, _⟩ := (declaration?_eq_some_iff hb).1 ht
  have hdescriptors := parameterDescriptors_of_methodAt hm
  refine ⟨target, ht, by rw [hdescriptors, List.length_map], ?_⟩
  intro i c x u hi hu s
  let d := (ofFiles files).index.methodTypeDescriptor m x.field.type
  refine ⟨d, ?_, typeOf_of_methodAt hm hi hu d, fun hk ty hty => ?_⟩
  · rw [hdescriptors, List.getElem?_map, hi, Option.map_some]
  · exact typesParameter_of_fixed hi hk hty

/-! ### Brackets on the type, and on the name -/

/-- The kinds of nodes that declare local variables. -/
def declaringKinds : List Kind :=
  [.formalParameter, .spreadParameter, .localVariableDeclaration, .resource, .enhancedForStatement,
    .catchFormalParameter, .lambdaExpression]

namespace FirstName

/-- The first parameter of the method. -/
def parameter? (x : FirstName files) : Option (Place × Parameter) :=
  (Parameter.readAt ((ofFiles files).sourceOf x.method) x.target.declaration)[0]?

/-- The first name in the body is `text`, and the method declares one variable at most. -/
def isAlone (x : FirstName files) (text : String) : Bool :=
  ((ofFiles files).index.method x.method).hasBody &&
    x.name.text ((ofFiles files).sourceOf x.method) == text &&
    decide ((x.target.declaration.preorder.filter fun q =>
      declaringKinds.contains q.kind).length ≤ 1)

theorem usesParameter {x : FirstName files} {y : Place × Parameter} (h : ofFiles? files = some x)
    (hi : x.parameter? = some y) (ha : x.isAlone y.2.field.name = true) :
    ((ofFiles files).index.method x.method).hasBody = true ∧
      Target.declaration? (ofFiles files) x.method = some x.target ∧
      (Parameter.readAt ((ofFiles files).sourceOf x.method) x.target.declaration)[0]? =
        some (y.1, y.2) ∧
      UsesParameter ((ofFiles files).sourceOf x.method) x.target.declaration y.1 y.2.field.name
        x.name := by
  simp only [isAlone, Bool.and_eq_true, beq_iff_eq, decide_eq_true_eq] at ha
  obtain ⟨⟨hb, hn⟩, hone⟩ := ha
  obtain ⟨ht, _, _, hbody, hub, hk⟩ := of_ofFiles? h hb
  refine ⟨hb, ht, hi, ⟨x.target.body, hbody, hub⟩, hk, hn, fun q hq hne form n hd _ _ => hne ?_⟩
  obtain ⟨ps, hps, hc, hread⟩ := Parameter.of_mem_readAt (List.mem_of_getElem? hi)
  have hcp : y.1 ∈ x.target.declaration.preorder := Place.mem_preorder_trans
    (Place.mem_preorder_of_mem_children hc) (Place.mem_preorder_of_mem_children hps)
  have hck : declaringKinds.contains y.1.kind = true := by
    rcases hread with ⟨hk, _⟩ | hk <;> rw [hk] <;> rfl
  have hqk : declaringKinds.contains q.kind = true := by
    cases hd with
    | parameter hk | varargs hk | inBlock hk | inSwitch hk | resource hk | loop hk | caught hk
    | lambda hk =>
      rw [hk]
      rfl
  have hqm : q ∈ x.target.declaration.preorder.filter fun q => declaringKinds.contains q.kind :=
    List.mem_filter.2 ⟨hq, hqk⟩
  have hcm : y.1 ∈ x.target.declaration.preorder.filter fun q => declaringKinds.contains q.kind :=
    List.mem_filter.2 ⟨hcp, hck⟩
  obtain ⟨a, ha⟩ := List.length_eq_one_iff.1 (Nat.le_antisymm hone (List.length_pos_of_mem hqm))
  rw [ha, List.mem_singleton] at hqm hcm
  rw [hqm, hcm]

end FirstName

def frontFiles : List (String × String) :=
  [("A.java", "class A\x7bint[] m(int[] a)\x7breturn a;\x7d\x7d")]

def frontUse : FirstName frontFiles := (FirstName.ofFiles? frontFiles).get (by decide +kernel)

def frontParameter : Place × Parameter := frontUse.parameter?.get (by decide +kernel)

theorem typeOf_parameter_front :
    Target.declaration? (ofFiles frontFiles) frontUse.method = some frontUse.target ∧
      UsesParameter ((ofFiles frontFiles).sourceOf frontUse.method) frontUse.target.declaration
        frontParameter.1 frontParameter.2.field.name frontUse.name ∧
      (Scope.ofMethod ((ofFiles frontFiles).sourceOf frontUse.method) frontUse.method
        frontUse.target.declaration).fullTyping.typeOf frontUse.name = .known "[I" := by
  have h : FirstName.ofFiles? frontFiles = some frontUse := (Option.some_get _).symm
  have hfirst : frontUse.parameter? = some frontParameter := (Option.some_get _).symm
  have ha : frontUse.isAlone frontParameter.2.field.name = true := by decide +kernel
  obtain ⟨hb, ht, hi, hu⟩ := FirstName.usesParameter h hfirst ha
  obtain ⟨target, ht', _, hall⟩ := typeOf_parameter hb
  obtain rfl : frontUse.target = target := Option.some.inj (ht.symm.trans ht')
  obtain ⟨d, hd, htyped, hdims⟩ := hall 0 frontParameter.1 frontParameter.2 frontUse.name hi hu
  have hd' : ((ofFiles frontFiles).index.parameterDescriptors frontUse.method)[0]? = some "[I" := by
    decide +kernel
  obtain rfl : d = "[I" := Option.some.inj (hd.symm.trans hd')
  have htype : (frontParameter.1.child? .type).any (fun ty =>
      (Scope.ofMethod ((ofFiles frontFiles).sourceOf frontUse.method) frontUse.method
        frontUse.target.declaration).text ty != Scope.inferredType) = true := by
    decide +kernel
  obtain ⟨ty, hty, hvar⟩ := (Option.any_eq_true _ _).1 htype
  rw [bne_iff_ne] at hvar
  have hk : frontParameter.1.kind = .formalParameter := by decide +kernel
  have hnone : (frontParameter.1.child? .dimensions).isNone = true := by decide +kernel
  refine ⟨ht, hu, htyped.2 ?_⟩
  exact (hdims hk ty hty hvar).1 (Option.isNone_iff_eq_none.1 hnone)

def behindFiles : List (String × String) :=
  [("A.java", "class A\x7bint[] m(int a[])\x7breturn a;\x7d\x7d")]

def behindUse : FirstName behindFiles := (FirstName.ofFiles? behindFiles).get (by decide +kernel)

def behindParameter : Place × Parameter := behindUse.parameter?.get (by decide +kernel)

/-- A use of a parameter with brackets behind its name is not typed as an array. -/
theorem not_typeOf_parameter_behind :
    ¬∀ (files : List (String × String)) (m : (ofFiles files).index.MethodId)
      (target : TargetMethod (ofFiles files).index),
      Target.declaration? (ofFiles files) m = some target →
        ∀ (i : Nat) (c : Place) (x : Parameter) (u : Place),
        (Parameter.readAt ((ofFiles files).sourceOf m) target.declaration)[i]? = some (c, x) →
          UsesParameter ((ofFiles files).sourceOf m) target.declaration c x.field.name u →
            ∃ d, ((ofFiles files).index.parameterDescriptors m)[i]? = some d ∧
              (Scope.ofMethod ((ofFiles files).sourceOf m) m target.declaration).fullTyping.typeOf
                u = .known d := by
  intro hall
  have h : FirstName.ofFiles? behindFiles = some behindUse := (Option.some_get _).symm
  have hfirst : behindUse.parameter? = some behindParameter := (Option.some_get _).symm
  have ha : behindUse.isAlone behindParameter.2.field.name = true := by decide +kernel
  obtain ⟨_, ht, hi, hu⟩ := FirstName.usesParameter h hfirst ha
  obtain ⟨d, hd, htyped⟩ := hall behindFiles behindUse.method behindUse.target ht 0
    behindParameter.1 behindParameter.2 behindUse.name hi hu
  have hd' : ((ofFiles behindFiles).index.parameterDescriptors behindUse.method)[0]? =
      some "[I" := by
    decide +kernel
  have hint : (Scope.ofMethod ((ofFiles behindFiles).sourceOf behindUse.method) behindUse.method
      behindUse.target.declaration).fullTyping.typeOf behindUse.name = .known "I" := by
    decide +kernel
  rw [hint] at htyped
  obtain rfl : d = "[I" := Option.some.inj (hd.symm.trans hd')
  exact absurd (ArgumentType.known.inj htyped) (by decide)

end Workspace

end InjectionPoints
