/-
Where the declaration of a local variable holds. `Declares` says which nodes declare a name and in
which form, `InScope` where Java lets the name mean the declaration, and `Seen` where it counts: in
the node around it, behind its name. That is its scope (`seen_iff`) but for uses that are `Missed`,
of parameters with `...` and of variables of a switch group in other groups, and for uses `Beyond`
it, in the rest of the method, the loop or the statement around.
-/
import InjectionPoints.Proofs.SourceTree
import InjectionPoints.Proofs.Tree.Places

namespace InjectionPoints

open Java

/-- The forms in which local variables are declared. -/
inductive LocalForm where
  /-- A parameter of a method, a constructor or a lambda, or a component of a record. -/
  | parameter
  /-- A parameter with `...`. -/
  | varargs
  /-- A variable of a block or of the head of a `for`. -/
  | inBlock
  /-- A variable that a group of a switch block declares. -/
  | inSwitch
  | resource
  /-- The variable of a loop over elements. -/
  | loop
  | caught
  /-- A parameter of a lambda without a type. -/
  | lambda

/-- `p` declares a local variable with the name `n`. -/
inductive Declares (p : Place) : LocalForm → Place → Prop where
  | parameter {n : Place} :
      p.kind = .formalParameter → p.child? .name = some n → Declares p .parameter n
  | varargs {v n : Place} :
      p.kind = .spreadParameter → p.named? .variableDeclarator = some v → v.child? .name = some n →
        Declares p .varargs n
  | inBlock {around v n : Place} :
      p.kind = .localVariableDeclaration → p.parent? = some around →
        around.kind ≠ .switchBlockStatementGroup → v ∈ p.childrenIn .declarator →
          v.child? .name = some n → Declares p .inBlock n
  | inSwitch {around v n : Place} :
      p.kind = .localVariableDeclaration → p.parent? = some around →
        around.kind = .switchBlockStatementGroup → v ∈ p.childrenIn .declarator →
          v.child? .name = some n → Declares p .inSwitch n
  | resource {n : Place} :
      p.kind = .resource → p.child? .name = some n → Declares p .resource n
  | loop {n : Place} :
      p.kind = .enhancedForStatement → p.child? .name = some n → Declares p .loop n
  | caught {n : Place} :
      p.kind = .catchFormalParameter → p.child? .name = some n → Declares p .caught n
  | lambda {ps n : Place} :
      p.kind = .lambdaExpression → p.child? .parameters = some ps →
        (ps.kind = .identifier ∧ n = ps ∨
          ps.kind = .inferredParameters ∧ n ∈ ps.children ∧ n.kind = .identifier) →
          Declares p .lambda n

namespace LocalForm

/-- The node around a declaration by whose bounds its scope is given: the method, the lambda, the
record, the block, the statement, the clause. -/
def around? (p : Place) : LocalForm → Option Place
  | parameter | varargs | resource => p.parent?.bind Place.parent?
  | inBlock | inSwitch | caught => p.parent?
  | loop | lambda => some p

end LocalForm

/-- Whether `u` is in the body of `w`. -/
def InBody (w u : Place) : Prop := ∃ b, w.child? .body = some b ∧ u ∈ b.preorder

/-- The scope that Java gives to a name `n` that `p` declares: the body of what has the parameter, of
the loop and of the clause; the rest of the block, or of the whole switch block; and for a resource
the rest of the resources and the body of the statement. -/
def InScope (p n u : Place) (form : LocalForm) : Prop :=
  ∃ w, form.around? p = some w ∧
    match form with
    | .parameter | .varargs | .loop | .caught | .lambda => InBody w u
    | .inBlock => u ∈ w.preorder ∧ n.stop ≤ u.start
    | .inSwitch => ∃ all, w.parent? = some all ∧ u ∈ all.preorder ∧ n.stop ≤ u.start
    | .resource =>
      (∃ rs, p.parent? = some rs ∧ u ∈ rs.preorder ∧ n.stop ≤ u.start) ∨ InBody w u

/-- Uses in the scope of a declaration that is not seen there. -/
def Missed (p u : Place) : LocalForm → Prop
  | .varargs => True
  | .inSwitch => ∀ w, p.parent? = some w → u ∉ w.preorder
  | _ => False

/-- Uses outside the scope of a declaration that is seen there: behind the name, and still in the
method, the lambda, the record, the loop, the `try` statement or the clause. -/
def Beyond (p n u : Place) (form : LocalForm) : Prop :=
  match form with
  | .parameter | .resource | .loop | .caught | .lambda =>
    ∃ w, form.around? p = some w ∧ u ∈ w.preorder ∧ n.stop ≤ u.start ∧ ¬InScope p n u form
  | .varargs | .inBlock | .inSwitch => False

/-- The node in which a declaration counts; a parameter with `...` counts nowhere. -/
def LocalForm.seenIn? (p : Place) : LocalForm → Option Place
  | varargs => none
  | form => form.around? p

/-- Whether a declaration counts at `u`: behind its name, in the node around it. -/
def Seen (p n u : Place) (form : LocalForm) : Prop :=
  ∃ w, form.seenIn? p = some w ∧ u ∈ w.preorder ∧ n.stop ≤ u.start

/-- Whether some place below `m` declares the name in a way for which the test holds. -/
def DeclaresWith (source name : String) (m : Place) (test : Place → Place → LocalForm → Prop) :
    Prop :=
  ∃ p ∈ m.preorder, ∃ form n, Declares p form n ∧ n.text source = name ∧ test p n form

theorem DeclaresWith.imp {source name : String} {m : Place}
    {test test' : Place → Place → LocalForm → Prop} (hd : DeclaresWith source name m test)
    (himp : ∀ p ∈ m.preorder, ∀ form n, Declares p form n → test p n form → test' p n form) :
    DeclaresWith source name m test' := by
  obtain ⟨p, hp, form, n, hdecl, hn, ht⟩ := hd
  exact ⟨p, hp, form, n, hdecl, hn, himp p hp form n hdecl ht⟩

/-! ## Tests on the constructs -/

def Java.Part.isKind (k : Kind) (x : Part) : Bool := x.kind == k

def Java.Part.inRole (f : Field) (x : Part) : Bool := x.role == some f

/-- The kinds of what stands before a body and declares variables for it. -/
def headKinds : List Kind := [.formalParameters, .resourceSpecification, .catchFormalParameter]

/-- Where parameters and resources stand, and that no head is a body. -/
def standsRight (k : Kind) (x : Part) : Bool :=
  (x.kind != .formalParameter || k == .formalParameters) &&
    (x.kind != .resource || k == .resourceSpecification) &&
    (x.kind != .resourceSpecification || k == .tryWithResourcesStatement) &&
    (x.role != some .body || !headKinds.contains x.kind) &&
    k != .identifier

open Java.Part Grammar

theorem standsRight_test :
    (treeConstructs.all fun c => !c.shape.any (Shape.may fun x => !standsRight c.kind x)) = true := by
  decide +kernel

theorem typed_test :
    ([Kind.formalParameter, .enhancedForStatement, .localVariableDeclaration].all fun k =>
      treeConstructs.all fun c => c.kind != k || c.shape.all (Shape.must (inRole .type))) = true := by
  decide +kernel

theorem resource_test :
    (treeConstructs.all fun c => c.kind != .resource ||
      c.shape.all fun sh => sh.must (inRole .type) || !sh.may (inRole .name)) = true := by
  decide +kernel

theorem caught_test :
    (treeConstructs.all fun c => c.kind != .catchFormalParameter ||
      c.shape.all (Shape.must (isKind .catchType))) = true := by
  decide +kernel

/-- What comes before bodies: parameters, resources and names. -/
def beforeBodies : List (Part → Bool) :=
  [isKind .formalParameters, isKind .resourceSpecification, isKind .catchFormalParameter,
    inRole .name, inRole .parameters]

theorem body_test :
    (beforeBodies.all fun p =>
      treeConstructs.all fun c => c.shape.all (Shape.orderly p (inRole .body))) = true := by
  decide +kernel

/-! ## Places in the tree of a text -/

variable {source : String} {t : Tree} (h : Tree.ofText? source = some t)
variable {p n u w c b : Place} {name : String} {form : LocalForm}

include h

theorem child_standsRight (hw : w ∈ (Place.root t).preorder) (hc : c ∈ w.children)
    (hn : c.kind.isComment = false) : standsRight w.kind c.node.part = true :=
  (Tree.isConstruct_of_ofText? h (Place.node_mem_preorder hw)).child_passes standsRight_test
    (Place.node_mem_of_mem_children hc) hn

/-- A name has no children, and some length. -/
theorem identifier_leaf (hu : u ∈ (Place.root t).preorder) (hk : u.kind = .identifier) :
    u.node.children = [] ∧ u.start < u.stop := by
  have hm := Place.node_mem_preorder hu
  have hp : u.node.kind ≠ .program := by
    rw [show u.node.kind = .identifier from hk]
    simp
  obtain ⟨c, hc, huc⟩ := Tree.below_root_of_ofText? h hm hp
  refine ⟨Tree.children_of_ofText? h hc huc ?_, Tree.filled_of_ofText? h hc huc⟩
  rw [Tree.parts, List.map_eq_nil_iff, List.filter_eq_nil_iff]
  intro d hd hn
  obtain ⟨e, he, rfl⟩ := Place.exists_mem_children hd
  have hs := child_standsRight h hu he (by simpa [Place.kind] using hn)
  rw [hk] at hs
  simp [standsRight] at hs

/-- A name is in a node when the span of the node covers it. -/
theorem mem_preorder_iff_covers (hu : u ∈ (Place.root t).preorder) (hk : u.kind = .identifier)
    (hw : w ∈ (Place.root t).preorder) :
    u ∈ w.preorder ↔ w.start ≤ u.start ∧ u.stop ≤ w.stop := by
  have ho : (Place.root t).node.Ordered := Tree.ordered_of_ofText? h
  constructor
  · intro hm
    obtain ⟨h₁, _, h₂⟩ := Place.ordered_of_mem_preorder (Place.ordered_of_mem_preorder ho hw).2.1 hm
    exact ⟨h₁, h₂⟩
  · intro hx
    obtain ⟨h₁, h₂⟩ := hx
    obtain ⟨hl, hf⟩ := identifier_leaf h hu hk
    exact Place.mem_preorder_of_covers ho hu hw hl hf h₁ h₂

/-- What is to come before bodies is none. -/
theorem body_fails (hw : w ∈ (Place.root t).preorder) (hb : w.child? .body = some b)
    {test : Part → Bool} (ht : test ∈ beforeBodies) : test b.node.part = false := by
  obtain ⟨hbm, hbr⟩ := Place.child?_mem hb
  have hs := child_standsRight h hw hbm
    (Tree.not_comment_of_role h (Place.node_mem_preorder hw) (Place.node_mem_of_mem_children hbm) hbr)
  simp only [standsRight, Tree.part, hbr, Bool.and_eq_true, bne_self_eq_false, Bool.false_or,
    Bool.not_eq_true'] at hs
  have hk : b.node.kind ∉ headKinds := by
    rw [← List.contains_iff_mem, hs.1.2]
    simp
  simp only [headKinds, List.mem_cons, List.not_mem_nil, or_false, not_or] at hk
  simp only [beforeBodies, List.mem_cons, List.not_mem_nil, or_false] at ht
  rcases ht with rfl | rfl | rfl | rfl | rfl <;>
    simp [Part.isKind, Part.inRole, Tree.part, hbr, hk]

/-- What comes before bodies ends where no place of the body has begun. -/
theorem InBody.behind (hw : w ∈ (Place.root t).preorder) (hc : c ∈ w.children)
    (hn : c.kind.isComment = false) (test : Part → Bool) (ht : test ∈ beforeBodies)
    (hct : test c.node.part = true) (hnc : n ∈ c.preorder) (hu : InBody w u) :
    u ∈ w.preorder ∧ n.stop ≤ u.start := by
  obtain ⟨b, hb, hub⟩ := hu
  obtain ⟨hbm, hbr⟩ := Place.child?_mem hb
  have hwm := Place.node_mem_preorder hw
  have hbn := Place.node_mem_of_mem_children hbm
  have how : w.node.Ordered :=
    (Place.ordered_of_mem_preorder (Tree.ordered_of_ofText? h) hw).2.1
  have hbr' : inRole .body b.node.part = true := by
    rw [inRole, Tree.part, hbr]
    exact beq_self_eq_true _
  have hcb : c.stop ≤ b.start :=
    (Tree.isConstruct_of_ofText? h hwm).stop_le_start how (List.all_eq_true.1 body_test test ht)
      (Place.node_mem_of_mem_children hc) hbn hn (Tree.not_comment_of_role h hwm hbn hbr) hct hbr'
      (body_fails h hw hb ht)
  have hoc := (Place.ordered_of_mem_children how hc).2.1
  have hob := (Place.ordered_of_mem_children how hbm).2.1
  have hnc' := (Place.ordered_of_mem_preorder hoc hnc).2.2
  have hub' := (Place.ordered_of_mem_preorder hob hub).1
  exact ⟨Place.mem_preorder_trans hub (Place.mem_preorder_of_mem_children hbm), by omega⟩

/-! ## Scopes and what is seen -/

theorem exists_parent_of_kind (hp : p ∈ (Place.root t).preorder) (hk : p.kind ≠ .program) :
    ∃ q, p.parent? = some q := by
  rcases Place.exists_parent hp with rfl | ⟨q, _, hpq⟩
  · exact absurd (Tree.kind_of_ofText? h) hk
  · exact ⟨q, Place.parent?_of_mem_children hpq⟩

theorem kind_of_parent {ps : Place} (hp : p ∈ (Place.root t).preorder) (hps : p.parent? = some ps) :
    (p.kind = .formalParameter → ps.kind = .formalParameters) ∧
      (p.kind = .resource → ps.kind = .resourceSpecification) ∧
      (p.kind = .resourceSpecification → ps.kind = .tryWithResourcesStatement) := by
  obtain ⟨hpm, hpc⟩ := Place.mem_of_parent? hp hps
  by_cases hn : p.kind.isComment = true
  · refine ⟨?_, ?_, ?_⟩ <;>
    · intro hk
      rw [hk] at hn
      simp [Kind.isComment] at hn
  · have hs := child_standsRight h hpm hpc (by simpa using hn)
    simp only [standsRight, Tree.part, Bool.and_eq_true] at hs
    change (((((p.kind != _ || _) = true ∧ (p.kind != _ || _) = true) ∧
      (p.kind != _ || _) = true) ∧ _) ∧ _) at hs
    obtain ⟨⟨⟨⟨h₁, h₂⟩, h₃⟩, _⟩, _⟩ := hs
    exact ⟨fun hk => by simpa [hk] using h₁, fun hk => by simpa [hk] using h₂,
      fun hk => by simpa [hk] using h₃⟩

omit h in
theorem mem_of_around? {w : Place} (hp : p ∈ (Place.root t).preorder)
    (hw : form.around? p = some w) : w ∈ (Place.root t).preorder := by
  cases form with
  | parameter | varargs | resource =>
    obtain ⟨ps, hps, hpw⟩ := Option.bind_eq_some_iff.1 hw
    exact (Place.mem_of_parent? (Place.mem_of_parent? hp hps).1 hpw).1
  | inBlock | inSwitch | caught => exact (Place.mem_of_parent? hp hw).1
  | loop | lambda => exact Option.some.inj hw ▸ hp

omit h in
theorem mem_of_seenIn? (hp : p ∈ (Place.root t).preorder) (hw : form.seenIn? p = some w) :
    w ∈ (Place.root t).preorder := by
  have ha : form.around? p = some w := by
    cases form with
    | varargs => simp [LocalForm.seenIn?] at hw
    | _ => exact hw
  exact mem_of_around? hp ha

/-- A name is below the child that comes before the body. -/
theorem seen_of_inScope (hp : p ∈ (Place.root t).preorder) (hd : Declares p form n)
    (hs : InScope p n u form) (hm : ¬Missed p u form) : Seen p n u form := by
  obtain ⟨w, hw, hs⟩ := hs
  have hwm := mem_of_around? hp hw
  cases hd with
  | parameter hk hn =>
    obtain ⟨ps, hps, hpw⟩ := Option.bind_eq_some_iff.1 hw
    obtain ⟨hpsm, hpc⟩ := Place.mem_of_parent? hp hps
    have hpsk := (kind_of_parent h hp hps).1 hk
    have hnps : n ∈ ps.preorder := Place.mem_preorder_trans
      (Place.mem_preorder_of_mem_children (Place.child?_mem hn).1)
      (Place.mem_preorder_of_mem_children hpc)
    exact ⟨w, hw, InBody.behind h hwm (Place.mem_of_parent? hpsm hpw).2 (by rw [hpsk]; rfl)
      (isKind .formalParameters) (by simp [beforeBodies]) (beq_iff_eq.2 hpsk) hnps hs⟩
  | varargs => exact absurd trivial hm
  | inBlock => exact ⟨w, hw, hs⟩
  | inSwitch =>
    obtain ⟨all, _, _, hb⟩ := hs
    refine ⟨w, hw, ?_, hb⟩
    by_cases hu : u ∈ w.preorder
    · exact hu
    · refine absurd (fun w' hw' => ?_) hm
      rw [show p.parent? = some w from hw, Option.some.injEq] at hw'
      exact hw' ▸ hu
  | resource hk hn =>
    obtain ⟨rs, hrs, hrw⟩ := Option.bind_eq_some_iff.1 hw
    obtain ⟨hrsm, hpc⟩ := Place.mem_of_parent? hp hrs
    have hrsk := (kind_of_parent h hp hrs).2.1 hk
    have hrc := (Place.mem_of_parent? hrsm hrw).2
    rcases hs with ⟨rs', hrs', hu, hb⟩ | hs
    · rw [hrs, Option.some.injEq] at hrs'
      subst hrs'
      exact ⟨w, hw, Place.mem_preorder_trans hu (Place.mem_preorder_of_mem_children hrc), hb⟩
    · have hnrs : n ∈ rs.preorder := Place.mem_preorder_trans
        (Place.mem_preorder_of_mem_children (Place.child?_mem hn).1)
        (Place.mem_preorder_of_mem_children hpc)
      exact ⟨w, hw, InBody.behind h hwm hrc (by rw [hrsk]; rfl)
        (isKind .resourceSpecification) (by simp [beforeBodies]) (beq_iff_eq.2 hrsk) hnrs hs⟩
  | loop hk hn =>
    rw [LocalForm.around?, Option.some.injEq] at hw
    subst hw
    obtain ⟨hnc, hnr⟩ := Place.child?_mem hn
    have hcom := Tree.not_comment_of_role h (Place.node_mem_preorder hp)
      (Place.node_mem_of_mem_children hnc) hnr
    exact ⟨p, rfl, InBody.behind h hp hnc hcom (inRole .name) (by simp [beforeBodies])
      (beq_iff_eq.2 hnr) n.self_mem_preorder hs⟩
  | caught hk hn =>
    have hpc := (Place.mem_of_parent? hp hw).2
    exact ⟨w, hw, InBody.behind h hwm hpc (by rw [hk]; rfl) (isKind .catchFormalParameter)
      (by simp [beforeBodies]) (beq_iff_eq.2 hk)
      (Place.mem_preorder_of_mem_children (Place.child?_mem hn).1) hs⟩
  | @lambda ps _ hk hps hn =>
    rw [LocalForm.around?, Option.some.injEq] at hw
    subst hw
    obtain ⟨hpc, hpr⟩ := Place.child?_mem hps
    have hcom := Tree.not_comment_of_role h (Place.node_mem_preorder hp)
      (Place.node_mem_of_mem_children hpc) hpr
    have hnps : n ∈ ps.preorder := by
      rcases hn with ⟨_, rfl⟩ | ⟨_, hnc, _⟩
      · exact n.self_mem_preorder
      · exact Place.mem_preorder_of_mem_children hnc
    exact ⟨p, rfl, InBody.behind h hp hpc hcom (inRole .parameters) (by simp [beforeBodies])
      (beq_iff_eq.2 hpr) hnps hs⟩

/-- A declaration is seen in its scope unless the use is missed, and beyond. -/
theorem seen_iff (hp : p ∈ (Place.root t).preorder) (hd : Declares p form n) :
    Seen p n u form ↔ InScope p n u form ∧ ¬Missed p u form ∨ Beyond p n u form := by
  constructor
  · intro hs
    by_cases hin : InScope p n u form
    · by_cases hm : Missed p u form
      · cases hd with
        | varargs =>
          obtain ⟨w, hw, _⟩ := hs
          exact absurd hw (by simp [LocalForm.seenIn?])
        | inSwitch =>
          obtain ⟨w, hw, hu, _⟩ := hs
          exact absurd hu (hm w hw)
        | _ => exact hm.elim
      · exact .inl ⟨hin, hm⟩
    · cases hd with
      | varargs =>
        obtain ⟨w, hw, _⟩ := hs
        exact absurd hw (by simp [LocalForm.seenIn?])
      | inBlock => exact absurd hs hin
      | inSwitch _ hw hk =>
        obtain ⟨w, hw', hu, hb⟩ := hs
        rw [show p.parent? = some w from hw', Option.some.injEq] at hw
        subst hw
        have hwm := (Place.mem_of_parent? hp hw').1
        obtain ⟨all, ha⟩ := exists_parent_of_kind h hwm (by rw [hk]; simp)
        refine absurd ⟨w, hw', all, ha, ?_, hb⟩ hin
        exact Place.mem_preorder_trans hu
          (Place.mem_preorder_of_mem_children (Place.mem_of_parent? hwm ha).2)
      | _ =>
        obtain ⟨w, hw, hu, hb⟩ := hs
        exact .inr ⟨w, hw, hu, hb, hin⟩
  · intro hx
    rcases hx with ⟨hin, hm⟩ | hb
    · exact seen_of_inScope h hp hd hin hm
    · cases hd with
      | varargs | inBlock | inSwitch => exact hb.elim
      | _ =>
        obtain ⟨w, hw, hu, hb, _⟩ := hb
        exact ⟨w, hw, hu, hb⟩

end InjectionPoints
