/-
Names that stand for expressions. A node is an operand where the grammar lets an expression stand
(`isOperand`). A name alone is read where it is an operand, unless it has one of the roles that the
kinds of `expressionParents` do not cover (`unreadRoles`): it is the condition of an `if` or a
`while`, a statement, what a method reference is taken from, a label, and so on
(`isExpressionName_iff`). So the accesses to a field by its name alone are found outside of these
roles, and never in them (`fieldAccess?_of_isOperand`).
-/
import InjectionPoints.Query
import InjectionPoints.Proofs.MethodPlaces
import InjectionPoints.Proofs.Scope.Regions
import InjectionPoints.Proofs.SeparateCode

namespace InjectionPoints

open Java Java.Part Grammar

/-! ## Operands -/

/-- Whether the grammar lets a node of the kind `child` stand in a role below a node of kind `k`. -/
def Java.Grammar.mayStand (k : Kind) (role : Option Field) (child : Kind) : Bool :=
  treeConstructs.any fun c =>
    c.kind == k && c.shape.any (Shape.may fun x => x.role == role && x.kind == child)

/-- Whether a node stands where the grammar has an expression, which is where it lets `null` stand. The
name of a call is read like an expression, but is none; and behind `::` there is a name only. -/
def isOperand (p : Place) : Bool :=
  match p.parent? with
  | none => false
  | some q =>
    mayStand q.kind p.node.field .nullLiteral && p.node.field != some .name &&
      (q.kind != .methodReference || q.children.head?.any p.same)

/-- The roles of operands below a node of a kind in which a name is not read. -/
def unreadRoles : Kind → List (Option Field)
  | .expressionStatement | .condition | .methodReference | .objectCreationExpression
  | .switchLabel | .guard | .stringInterpolation | .annotationArgumentList
  | .elementValueArrayInitializer => [none]
  | .resource => [none, some .value]
  | .explicitConstructorInvocation => [some .object]
  | .templateExpression => [some .templateProcessor]
  | .forStatement => [some .init, some .update]
  | .elementValuePair | .annotationTypeElementDeclaration => [some .value]
  | .lambdaExpression => [some .body]
  | _ => []

/-- Whether a node has a role in which a name is not read. -/
def isUnread (p : Place) : Bool :=
  p.parent?.any fun q => (unreadRoles q.kind).contains p.node.field

/-! ## Names that are read -/

/-- The kinds of nodes below which a name is read in one role only. -/
def wantedRoles : List (Kind × Field) :=
  [(.fieldAccess, .object), (.methodInvocation, .object), (.variableDeclarator, .value),
    (.castExpression, .value), (.enhancedForStatement, .value), (.instanceofExpression, .left),
    (.forStatement, .condition)]

/-- Whether a name is read in a role below a node of kind `k`. -/
def readsRole (k : Kind) (role : Option Field) : Bool :=
  match wantedRoles.lookup k with
  | some f => role == some f
  | none => expressionParents.contains k

/-- Whether a child is no name that is read without being an operand. -/
def readsRight (k : Kind) (x : Part) : Bool :=
  x.kind != .identifier || !readsRole k x.role ||
    mayStand k x.role .nullLiteral && x.role != some .name && k != .methodReference

theorem wanted_test : (wantedRoles.all fun (k, f) => treeConstructs.all fun c =>
    c.kind != k || c.shape.all (Shape.orderly (inRole f) (inRole f))) = true := by
  decide +kernel

theorem operand_test : (treeConstructs.all fun c => !c.shape.any (Shape.may fun x =>
    x.kind == .nullLiteral && x.role != some .name &&
      (readsRole c.kind x.role == (unreadRoles c.kind).contains x.role))) = true := by
  decide +kernel

theorem readsRight_test :
    (treeConstructs.all fun c => !c.shape.any (Shape.may fun x => !readsRight c.kind x)) = true := by
  decide +kernel

/-- In the roles of operands a name is read or not as the table says. -/
theorem readsRole_of_mayStand {k : Kind} {role : Option Field}
    (hm : mayStand k role .nullLiteral = true) (hn : role ≠ some .name) :
    readsRole k role = !(unreadRoles k).contains role := by
  obtain ⟨c, hc, hck⟩ := List.any_eq_true.1 hm
  rw [Bool.and_eq_true, beq_iff_eq] at hck
  obtain ⟨rfl, hshape⟩ := hck
  obtain ⟨sh, hsh, hmay⟩ := (Option.any_eq_true _ _).1 hshape
  have htest := List.all_eq_true.1 operand_test c hc
  rw [hsh, Option.any_some, Bool.not_eq_true'] at htest
  -- a role in which the table is wrong would fail the test on the construct with `null` there
  rw [Bool.eq_not]
  intro heq
  rw [Shape.may_mono (fun x hx => ?_) hmay] at htest
  · simp at htest
  · rw [Bool.and_eq_true, beq_iff_eq, beq_iff_eq] at hx
    simp [hx.1, hx.2, hn, heq]

section

variable {source : String} {t : Tree} {p q c : Place} {f : Field}

/-- A child in a wanted role is the only one. -/
theorem child?_eq_of_role (h : Tree.ofText? source = some t) (hq : q ∈ (Place.root t).preorder)
    (hone : (q.kind, f) ∈ wantedRoles) (hc : c ∈ q.children) (hf : c.node.field = some f) :
    q.child? f = some c := by
  have hqm := Place.node_mem_preorder hq
  obtain ⟨d, hd⟩ := Place.child?_isSome (Place.node_mem_of_mem_children hc) hf
  obtain ⟨hdm, hdf⟩ := Place.child?_mem hd
  obtain ⟨sh, hk, hm⟩ := Tree.isConstruct_of_ofText? h hqm
  -- no construct of the kind has two parts in the role, so neither has the node
  have hs := List.all_eq_true.1 (List.all_eq_true.1 wanted_test _ hone) _ hk
  simp only [Place.kind, bne_self_eq_false, Bool.false_or, Option.all_some] at hs
  have hpair := hm.orderly hs
  rw [Tree.parts, List.pairwise_map, ← Place.map_node_children, List.filter_map,
    List.pairwise_map] at hpair
  have hmem : ∀ x ∈ q.children, x.node.field = some f →
      x ∈ q.children.filter ((fun c : Tree => !c.kind.isComment) ∘ Place.node) := by
    intro x hx hxf
    refine List.mem_filter.2 ⟨hx, ?_⟩
    simp [Tree.not_comment_of_role h hqm (Place.node_mem_of_mem_children hx) hxf]
  have hrole : ∀ x : Place, x.node.field = some f → inRole f x.node.part = true := by
    intro x hxf
    simp [inRole, Tree.part, hxf]
  rcases pairwise_cases hpair (hmem c hc hf) (hmem d hdm hdf) with rfl | hno | hno
  · exact hd
  · exact absurd ⟨hrole c hf, hrole d hdf⟩ hno
  · exact absurd ⟨hrole d hdf, hrole c hf⟩ hno

theorem hasChildIn_eq (h : Tree.ofText? source = some t) (hq : q ∈ (Place.root t).preorder)
    (hone : (q.kind, f) ∈ wantedRoles) (hc : c ∈ q.children) :
    q.hasChildIn f c = (c.node.field == some f) := by
  rw [Bool.eq_iff_iff, beq_iff_eq, Place.hasChildIn]
  constructor
  · intro hx
    obtain ⟨d, hd, hsame⟩ := (Option.any_eq_true _ _).1 hx
    obtain ⟨hdm, hdf⟩ := Place.child?_mem hd
    rw [Place.eq_of_same hc hdm hsame]
    exact hdf
  · intro hf
    rw [child?_eq_of_role h hq hone hc hf]
    exact beq_self_eq_true _

theorem isExpressionName_eq_readsRole (h : Tree.ofText? source = some t)
    (hq : q ∈ (Place.root t).preorder) (hc : c ∈ q.children) :
    isExpressionName c = readsRole q.kind c.node.field := by
  have hrole : ∀ f, (q.kind, f) ∈ wantedRoles → q.hasChildIn f c = (c.node.field == some f) :=
    fun f hone => hasChildIn_eq h hq hone hc
  rw [isExpressionName, Place.parent?_of_mem_children hc]
  dsimp only
  generalize q.kind = k at hrole
  split
  · exact hrole _ (by simp [wantedRoles])
  · exact hrole _ (by simp [wantedRoles])
  · exact hrole _ (by simp [wantedRoles])
  · exact hrole _ (by simp [wantedRoles])
  · exact hrole _ (by simp [wantedRoles])
  · exact hrole _ (by simp [wantedRoles])
  · exact hrole _ (by simp [wantedRoles])
  · next h₁ h₂ h₃ h₄ h₅ h₆ h₇ =>
    have hnone : wantedRoles.lookup k = none := by
      simpa [wantedRoles, List.lookup_eq_none_iff] using ⟨h₁, h₂, h₃, h₄, h₅, h₆, h₇⟩
    rw [readsRole, hnone]

/-- Names are read where they are operands, except in the unread roles. -/
theorem isExpressionName_iff (h : Tree.ofText? source = some t) (hp : p ∈ (Place.root t).preorder)
    (hk : p.kind = .identifier) :
    isExpressionName p = true ↔ isOperand p = true ∧ isUnread p = false := by
  cases hq : p.parent? with
  | none => simp [isExpressionName, isOperand, hq]
  | some q =>
    obtain ⟨hqt, hpq⟩ := Place.mem_of_parent? hp hq
    have hright := (Tree.isConstruct_of_ofText? h (Place.node_mem_preorder hqt)).child_passes
      readsRight_test (Place.node_mem_of_mem_children hpq) (by
        rw [show p.node.kind = .identifier from hk]
        rfl)
    have hpart : p.node.part = ⟨p.node.field, .identifier⟩ := by
      rw [Tree.part, show p.node.kind = .identifier from hk]
    rw [hpart] at hright
    change readsRight q.kind _ = true at hright
    simp only [readsRight, bne_self_eq_false, Bool.false_or, Bool.or_eq_true, Bool.not_eq_true',
      Bool.and_eq_true, bne_iff_ne] at hright
    rw [isExpressionName_eq_readsRole h hqt hpq, isOperand, isUnread, hq]
    simp only [Option.any_some, Bool.and_eq_true, bne_iff_ne, Bool.or_eq_true]
    constructor
    · intro hread
      obtain hno | ⟨⟨hm, hn⟩, hr⟩ := hright
      · rw [hread] at hno
        simp at hno
      · rw [readsRole_of_mayStand hm hn, Bool.not_eq_true'] at hread
        exact ⟨⟨⟨hm, hn⟩, .inl hr⟩, hread⟩
    · rintro ⟨⟨⟨hm, hn⟩, _⟩, hu⟩
      rw [readsRole_of_mayStand hm hn, hu]
      rfl

end

/-! ## Accesses to fields -/

namespace Usage

variable {ix : ClassIndex} {body p : Place}

/-- A selector finds the places of the walk that may stand for a member that it selects. -/
theorem mem_find?_iff (s : Scope ix) {element : Element} (hm : element.isMember = true)
    {text : String} {selector : Selector} (hparse : Selector.parse? text = some selector) :
    ∃ found, find? s element body text false = some found ∧ ∀ p, p ∈ found ↔
      p ∈ walked body ∧ ∃ m ∈ members s element p, m.isSelectedBy selector = true := by
  refine ⟨_, by rw [find?, if_pos hm, hparse, Option.map_some], fun p => ?_⟩
  rw [collect_all, List.mem_filterMap]
  constructor
  · rintro ⟨q, hq, hfind⟩
    split at hfind
    · next hany =>
      obtain rfl := Option.some.inj hfind
      exact ⟨hq, List.any_eq_true.1 hany⟩
    · simp at hfind
  · rintro ⟨hp, hany⟩
    exact ⟨p, hp, if_pos (List.any_eq_true.2 hany)⟩

/-- A name that stands for an expression and means a field is an access to the field, without a
qualifier, and what selects the field finds it; but not in an unread role, where it is nothing. -/
theorem fieldAccess?_of_isOperand {source : String} {t : Tree} (h : Tree.ofText? source = some t)
    (hb : body ∈ (Place.root t).preorder) (hp : p ∈ walked body) (hk : p.kind = .identifier)
    (ho : isOperand p = true) {s : Scope ix} (hlocal : s.isLocal (s.text p) p = false)
    {f : ix.FieldId} (hf : s.fieldNamed? (s.text p) = some f) :
    (fieldAccess? s p = if isUnread p then none else some ⟨.field f, none⟩) ∧
      ∀ text selector, Selector.parse? text = some selector →
        QualifiedMember.isSelectedBy ⟨.field f, none⟩ selector = true →
          ∃ found, find? s .fieldAccess body text false = some found ∧
            (p ∈ found ↔ isUnread p = false) := by
  have hpt : p ∈ (Place.root t).preorder := Place.mem_preorder_trans (mem_walked_iff.1 hp).1 hb
  have hread : isExpressionName p = !isUnread p := by
    rw [Bool.eq_iff_iff, isExpressionName_iff h hpt hk, Bool.not_eq_true', and_iff_right ho]
  have haccess : fieldAccess? s p = if isUnread p then none else some ⟨.field f, none⟩ := by
    rw [fieldAccess?, hk, hread, hlocal, hf]
    cases isUnread p <;> rfl
  refine ⟨haccess, fun text selector hparse hselect => ?_⟩
  have hmember : Element.fieldAccess.isMember = true := rfl
  obtain ⟨found, hfound, hmem⟩ := mem_find?_iff s hmember hparse
  refine ⟨found, hfound, (hmem p).trans ?_⟩
  rw [and_iff_right hp, members, haccess]
  cases isUnread p with
  | true => simp
  | false => simp [hselect]

/-! ### A field that is returned, and one that is a condition -/

end Usage

namespace Workspace.FirstName

variable {files : List (String × String)} {x : FirstName files} {f : (ofFiles files).index.FieldId}

/-- The first name in the body stands for an expression and means a field, and no separate code is
in the body. -/
def isFieldName (x : FirstName files) (f : (ofFiles files).index.FieldId) : Bool :=
  let s := Reference.scope (ofFiles files) x.target
  ((ofFiles files).index.method x.method).hasBody &&
    (x.target.body.preorder.all fun q => !isSeparate q.kind) && isOperand x.name &&
    !s.isLocal (s.text x.name) x.name && decide (s.fieldNamed? (s.text x.name) = some f)

theorem of_isFieldName (h : ofFiles? files = some x) (hf : x.isFieldName f = true) :
    Target.declaration? (ofFiles files) x.target.method = some x.target ∧
      (∃ t, Tree.ofText? ((ofFiles files).sourceOf x.method) = some t ∧
        x.target.body ∈ (Place.root t).preorder) ∧
      x.name ∈ walked x.target.body ∧ x.name.kind = .identifier ∧ isOperand x.name = true ∧
      (Reference.scope (ofFiles files) x.target).isLocal
        ((Reference.scope (ofFiles files) x.target).text x.name) x.name = false ∧
      (Reference.scope (ofFiles files) x.target).fieldNamed?
        ((Reference.scope (ofFiles files) x.target).text x.name) = some f := by
  simp only [isFieldName, Bool.and_eq_true, Bool.not_eq_true', decide_eq_true_eq] at hf
  obtain ⟨⟨⟨⟨hbody, hn⟩, ho⟩, hlocal⟩, hfield⟩ := hf
  obtain ⟨ht, hmethod, hm, hb, hp, hk⟩ := of_ofFiles? h hbody
  obtain ⟨t, _, htree, hd⟩ := exists_tree_of_methodAt hm
  have hbt := Place.mem_preorder_of_mem_children (Place.child?_mem hb).1
  rw [← hmethod] at ht
  exact ⟨ht, ⟨t, htree, Place.mem_preorder_trans hbt hd⟩,
    mem_walked_iff.2 ⟨hp, not_liesIn_of_all hn⟩, hk, ho, hlocal, hfield⟩

end Workspace.FirstName

namespace Usage

open Workspace

def returnedFiles : List (String × String) :=
  [("A.java", "class A\x7bint f;int m()\x7breturn f;\x7d\x7d")]

def returnedName : FirstName returnedFiles :=
  (FirstName.ofFiles? returnedFiles).get (by decide +kernel)

def returnedField : (ofFiles returnedFiles).index.FieldId :=
  ((Reference.scope (ofFiles returnedFiles) returnedName.target).fieldNamed? "f").get
    (by decide +kernel)

theorem fieldAccess?_returned :
    Target.declaration? (ofFiles returnedFiles) returnedName.target.method =
        some returnedName.target ∧
      returnedName.name ∈ walked returnedName.target.body ∧
      fieldAccess? (Reference.scope (ofFiles returnedFiles) returnedName.target) returnedName.name =
        some ⟨.field returnedField, none⟩ ∧
      ∃ found, find? (Reference.scope (ofFiles returnedFiles) returnedName.target) .fieldAccess
          returnedName.target.body "LA;f:I" false = some found ∧ returnedName.name ∈ found := by
  have hx : FirstName.ofFiles? returnedFiles = some returnedName := (Option.some_get _).symm
  have hname : returnedName.isFieldName returnedField = true := by decide +kernel
  obtain ⟨ht, ⟨t, htree, hb⟩, hp, hk, ho, hlocal, hf⟩ := FirstName.of_isFieldName hx hname
  obtain ⟨haccess, hfind⟩ := fieldAccess?_of_isOperand htree hb hp hk ho hlocal hf
  have hu : isUnread returnedName.name = false := by decide +kernel
  have hparse : Selector.parse? "LA;f:I" = some ⟨some "A", "f", some "I"⟩ := by decide +kernel
  have hselect : (⟨.field returnedField, none⟩ : QualifiedMember _).isSelectedBy
      ⟨some "A", "f", some "I"⟩ = true := by
    decide +kernel
  obtain ⟨found, hfound, hmem⟩ := hfind "LA;f:I" _ hparse hselect
  rw [hu] at haccess
  exact ⟨ht, hp, haccess, found, hfound, hmem.2 hu⟩

def conditionFiles : List (String × String) :=
  [("A.java", "class A\x7bboolean f;void m()\x7bif(f);\x7d\x7d")]

def conditionName : FirstName conditionFiles :=
  (FirstName.ofFiles? conditionFiles).get (by decide +kernel)

def conditionField : (ofFiles conditionFiles).index.FieldId :=
  ((Reference.scope (ofFiles conditionFiles) conditionName.target).fieldNamed? "f").get
    (by decide +kernel)

/-- A field that is the condition of an `if` is not found. -/
theorem not_fieldAccess?_condition :
    ¬∀ (files : List (String × String)) (m : TargetMethod (ofFiles files).index),
      Target.declaration? (ofFiles files) m.method = some m →
        ∀ p ∈ walked m.body, p.kind = .identifier → isOperand p = true →
          ∀ f, (Reference.scope (ofFiles files) m).isLocal
              ((Reference.scope (ofFiles files) m).text p) p = false →
            (Reference.scope (ofFiles files) m).fieldNamed?
              ((Reference.scope (ofFiles files) m).text p) = some f →
              fieldAccess? (Reference.scope (ofFiles files) m) p = some ⟨.field f, none⟩ := by
  intro hall
  have hx : FirstName.ofFiles? conditionFiles = some conditionName := (Option.some_get _).symm
  have hname : conditionName.isFieldName conditionField = true := by decide +kernel
  obtain ⟨ht, _, hp, hk, ho, hlocal, hf⟩ := FirstName.of_isFieldName hx hname
  have haccess := hall conditionFiles conditionName.target ht conditionName.name hp hk ho
    conditionField hlocal hf
  have hnone : (fieldAccess? (Reference.scope (ofFiles conditionFiles) conditionName.target)
      conditionName.name).isNone = true := by
    decide +kernel
  rw [haccess] at hnone
  simp at hnone

end Usage

end InjectionPoints
