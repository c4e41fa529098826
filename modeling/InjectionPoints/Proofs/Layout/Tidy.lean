/-
Trees without comments where they would be kept. The index keeps the texts of some nodes
(`Tree.kept`), and it takes white space out of them, but no comments; a tree is tidy if no comment
stands in these texts, or in front of them where the first child is taken (`Tree.isTidy`). What is
kept of tidy nodes that correspond is the same (`TidyPair.map_kept`), and so are names
(`Pair.map_name`).
-/
import InjectionPoints.Proofs.Layout.Counterparts

namespace InjectionPoints

open Java Text

/-! ## Tidy trees -/

namespace Java.Tree

/-- The nodes of whose texts the index keeps all but the white space. -/
def kept (t : Tree) : List Tree :=
  match t.kind with
  | .importDeclaration => (FileScope.nameNode? t).toList
  | .classDeclaration | .interfaceDeclaration | .enumDeclaration | .recordDeclaration
  | .annotationTypeDeclaration =>
    ((t.child? .superclass).bind fun clause => clause.namedChildren.head?).toList
  | .typeBound => t.namedChildren.head?.toList
  | .typeList => t.namedChildren
  | .fieldDeclaration | .constantDeclaration =>
    (t.child? .type).toList ++ (t.childrenIn .declarator).filterMap (child? .dimensions)
  | .methodDeclaration | .formalParameter =>
    (t.child? .type).toList ++ (t.child? .dimensions).toList
  | .spreadParameter =>
    (t.namedChildren.find? fun c =>
      c.kind != .modifiers && c.kind != .variableDeclarator).toList
  | _ => []

/-- Whether the texts that the index keeps of the node are code and white space, and the name of a
package code alone. -/
def isTidyNode (source : String) (t : Tree) : Bool :=
  t.kept.all (isPlain source) &&
    (t.kind != .packageDeclaration || (FileScope.nameNode? t).all (isTight source))

/-- The kinds of nodes that the index looks into for declarations and their parts. -/
def openKinds : List Kind :=
  [.program, .classBody, .interfaceBody, .enumBody, .enumBodyDeclarations, .annotationTypeBody,
    .methodDeclaration, .constructorDeclaration, .formalParameters, .typeParameters,
    .typeParameter, .superInterfaces, .extendsInterfaces] ++ Kind.typeDeclarations

mutual

/-- Whether the nodes are tidy that the index looks at. -/
def isTidy (source : String) : Tree → Bool
  | node k f s cs =>
    isTidyNode source (node k f s cs) && (!openKinds.contains k || areTidy source cs)

/-- `isTidy` of one tree after the other. -/
def areTidy (source : String) : List Tree → Bool
  | [] => true
  | t :: ts => isTidy source t && areTidy source ts

end

theorem areTidy_iff {source : String} {ts : List Tree} :
    areTidy source ts = true ↔ ∀ t ∈ ts, t.isTidy source = true := by
  induction ts with
  | nil => simp [areTidy]
  | cons t ts ih => simp [areTidy, ih]

theorem isTidy_iff {source : String} {t : Tree} :
    t.isTidy source = true ↔ t.isTidyNode source = true ∧
      (t.kind ∈ openKinds → ∀ c ∈ t.children, c.isTidy source = true) := by
  cases t with
  | node k f s cs =>
    rw [isTidy, Bool.and_eq_true, Bool.or_eq_true, areTidy_iff, Bool.not_eq_true', kind_node,
      children_node, ← List.contains_iff_mem]
    cases openKinds.contains k <;> simp

end Java.Tree

open Java.Tree (wordKinds openKinds)

theorem isComment_of_mem_openKinds {k : Kind} (h : k ∈ openKinds) : k.isComment = false := by
  have htest : (openKinds.all fun k => !k.isComment) = true := by decide
  simpa using List.all_eq_true.1 htest k h

theorem not_type_of_isComment {k : Kind} (h : k.isComment = true) :
    ¬Kind.typeDeclarations.contains k = true := by
  cases k <;> first | decide | simp [Kind.isComment] at h

/-! ## What stands in a role -/

section Roles

open Grammar

/-- The kinds of nodes that give a name to something that the index keeps. -/
def namingKinds : List Kind :=
  [.methodDeclaration, .constructorDeclaration, .formalParameter, .variableDeclarator] ++
    Kind.typeDeclarations

theorem mem_openKinds_of_type {k : Kind} (hk : k ∈ Kind.typeDeclarations) : k ∈ openKinds :=
  List.mem_append_right _ hk

theorem mem_namingKinds_of_type {k : Kind} (hk : k ∈ Kind.typeDeclarations) : k ∈ namingKinds :=
  List.mem_append_right _ hk

/-- Whether the index looks into what stands in a role. -/
def isOpenRole (parent : Kind) : Field → Bool
  | .typeParameters | .interfaces => true
  | .parameters => namingKinds.contains parent
  | .body => Kind.typeDeclarations.contains parent
  | _ => false

/-- A name is one word, and what is declared with a type is a variable; what the index looks into is
of a kind that it knows. -/
def rolesStandRight (parent : Kind) (x : Part) : Bool :=
  x.role.all fun role =>
    (!(namingKinds.contains parent && role == .name) || wordKinds.contains x.kind) &&
    (role != .declarator || x.kind == .variableDeclarator) &&
    (!isOpenRole parent role || openKinds.contains x.kind)

theorem rolesStandRight_test :
    (treeConstructs.all fun c =>
      !c.shape.any (Shape.may fun x => !rolesStandRight c.kind x)) = true := by
  decide +kernel

variable {source : String} {root t c : Tree} {f : Field} (h : Tree.ofText? source = some root)

include h

theorem child_rolesStandRight (ht : t ∈ root.preorder) (hc : c ∈ t.children)
    (hf : c.field = some f) :
    ((t.kind ∈ namingKinds → f = .name → c.kind ∈ wordKinds) ∧
      (f = .declarator → c.kind = .variableDeclarator)) ∧
      (isOpenRole t.kind f = true → c.kind ∈ openKinds) := by
  have hp : rolesStandRight t.kind c.part = true :=
    (Tree.isConstruct_of_ofText? h ht).child_passes rolesStandRight_test hc
      (Tree.not_comment_of_role h ht hc hf)
  rw [rolesStandRight, Tree.part, hf] at hp
  simpa [imp_iff_not_or, or_assoc] using hp

theorem mem_wordKinds_of_name (ht : t ∈ root.preorder) (hk : t.kind ∈ namingKinds)
    (hc : c ∈ t.child? .name) : c.kind ∈ wordKinds :=
  (child_rolesStandRight h ht (List.mem_of_find?_eq_some hc)
    (by simpa using List.find?_some hc)).1.1 hk rfl

theorem kind_of_declarator (ht : t ∈ root.preorder) (hc : c ∈ t.childrenIn .declarator) :
    c.kind = .variableDeclarator :=
  (child_rolesStandRight h ht (List.mem_filter.1 hc).1
    (by simpa using (List.mem_filter.1 hc).2)).1.2 rfl

theorem mem_openKinds_of_role (ht : t ∈ root.preorder) (hf : isOpenRole t.kind f = true)
    (hc : c ∈ t.child? f) : c.kind ∈ openKinds :=
  (child_rolesStandRight h ht (List.mem_of_find?_eq_some hc)
    (by simpa using List.find?_some hc)).2 hf

end Roles

namespace Java.Relayout

variable {a b : String}

/-- Tidy nodes that correspond. -/
structure TidyPair (r : Relayout a b) (t u : Tree) : Prop where
  pair : r.Pair t u
  left : t.isTidy a = true
  right : u.isTidy b = true

variable {r : Relayout a b} {t u : Tree}

namespace TidyPair

theorem children (h : r.TidyPair t u) (hk : t.kind ∈ openKinds) :
    List.Forall₂ r.TidyPair (Tree.proper t.children) (Tree.proper u.children) := by
  have hku : u.kind ∈ openKinds := by rwa [h.pair.kind_eq]
  refine (forall₂_with_mem h.pair.children).imp fun c d hcd => ⟨hcd.1, ?_, ?_⟩
  · exact (Tree.isTidy_iff.1 h.left).2 hk c (List.mem_of_mem_filter hcd.2.1)
  · exact (Tree.isTidy_iff.1 h.right).2 hku d (List.mem_of_mem_filter hcd.2.2)

theorem child? (h : r.TidyPair t u) (hk : t.kind ∈ openKinds) (f : Field) :
    Option.Rel r.TidyPair (t.child? f) (u.child? f) :=
  h.pair.child?_of (fun _ _ h => h.pair) (h.children hk) f

theorem namedChildren (h : r.TidyPair t u) (hk : t.kind ∈ openKinds) :
    List.Forall₂ r.TidyPair (Tree.proper t.namedChildren) (Tree.proper u.namedChildren) :=
  Pair.namedChildren_of (fun _ _ h => h.pair) (h.children hk)

theorem named? (h : r.TidyPair t u) (hk : t.kind ∈ openKinds) {k : Kind}
    (hc : k.isComment = false) : Option.Rel r.TidyPair (t.named? k) (u.named? k) :=
  Pair.named?_of (fun _ _ h => h.pair) (h.children hk) hc

end TidyPair

/-! ## Texts of nodes that correspond -/

theorem isComment_of_isPlain {source : String} {c : Tree} (h : c.isPlain source = true) :
    c.kind.isComment = false := by
  simp only [Tree.isPlain, Bool.and_eq_true, Bool.not_eq_true'] at h
  exact h.1.1

theorem isPlain_of_kept {source : String} (ht : t.isTidy source = true) :
    ∀ k ∈ t.kept, k.isPlain source = true := by
  have hnode := (Tree.isTidy_iff.1 ht).1
  rw [Tree.isTidyNode, Bool.and_eq_true] at hnode
  exact List.all_eq_true.1 hnode.1

variable {x y : Option Tree}

theorem map_compactText (h : Option.Rel r.Pair x y) (hx : ∀ k ∈ x, k.isPlain a = true)
    (hy : ∀ k ∈ y, k.isPlain b = true) :
    y.map (Tree.compactText b) = x.map (Tree.compactText a) := by
  cases h with
  | none => rfl
  | some h => exact congrArg some (h.compactText_eq (hx _ rfl) (hy _ rfl))

/-- The text that is kept of a node: that of `K x`, which is one of the nodes kept of `x`. -/
theorem TidyPair.map_kept (h : r.TidyPair t u) {K : Tree → Option Tree}
    (hK : ∀ x, x.kind = t.kind → ∀ k ∈ K x, k ∈ x.kept)
    (hrel : (∀ k ∈ K t, k.kind.isComment = false) → (∀ k ∈ K u, k.kind.isComment = false) →
      Option.Rel r.Pair (K t) (K u)) :
    (K u).map (Tree.compactText b) = (K t).map (Tree.compactText a) := by
  have ht : ∀ k ∈ K t, k.isPlain a = true := fun k hk =>
    isPlain_of_kept h.left k (hK t rfl k hk)
  have hu : ∀ k ∈ K u, k.isPlain b = true := fun k hk =>
    isPlain_of_kept h.right k (hK u h.pair.kind_eq k hk)
  exact map_compactText (hrel (fun k hk => isComment_of_isPlain (ht k hk))
    fun k hk => isComment_of_isPlain (hu k hk)) ht hu

theorem map_text (h : Option.Rel r.Pair x y) (hx : ∀ k ∈ x, k.kind ∈ wordKinds) :
    y.map (Tree.text b) = x.map (Tree.text a) := by
  cases h with
  | none => rfl
  | some h => exact congrArg some (h.text_eq (hx _ rfl))

theorem Pair.map_name (h : r.Pair t u) (hk : t.kind ∈ namingKinds) :
    (u.child? .name).map (Tree.text b) = (t.child? .name).map (Tree.text a) :=
  map_text (h.child? .name) fun _ hc => mem_wordKinds_of_name r.left_eq h.left_mem hk hc

end Java.Relayout

end InjectionPoints
