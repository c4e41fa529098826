/-
What a name means where local variables are declared. The variables that a node declares are the
names it declares, in the nodes where they count (`declares_of_mem`, `mem_of_declares`), and of
several the first of a name will do (`find_visible_iff`). So a name is taken for a local variable
where a declaration is seen (`isLocal_iff`), and `isLocal_inScope_iff` says when that is where the
name is in the scope of a declaration.
-/
import InjectionPoints.Proofs.Scope.Regions
import InjectionPoints.Proofs.SeparateCode
import InjectionPoints.Scope.Typing
import InjectionPoints.Workspace

namespace InjectionPoints

open Java Java.Part Grammar

variable {source name : String} {p n u w : Place} {form : LocalForm}

/-! ## Several variables of a node -/

namespace LocalVariable

theorem isVisibleAt_iff {v : LocalVariable} :
    v.isVisibleAt u = true ↔
      v.declaredAt ≤ u.start ∧ v.region.start ≤ u.start ∧ u.stop ≤ v.region.stop := by
  rw [isVisibleAt, Bool.and_eq_true, Bool.and_eq_true, decide_eq_true_eq,
    decide_eq_true_eq, decide_eq_true_eq, and_assoc]

/-- Variables of one region, one declared behind the other. -/
def Successive (v w : LocalVariable) : Prop := v.region = w.region ∧ v.declaredAt ≤ w.declaredAt

/-- Of successive variables the first of a name is visible wherever another is. -/
theorem find_visible_iff (name : String) (u : Place) {vars : List LocalVariable}
    (hvars : vars.Pairwise Successive) :
    (∃ v, vars.find? (fun v => v.name == name) = some v ∧ v.isVisibleAt u = true) ↔
      ∃ v ∈ vars, v.name = name ∧ v.isVisibleAt u = true := by
  constructor
  · intro hx
    obtain ⟨v, hv, hu⟩ := hx
    exact ⟨v, List.mem_of_find?_eq_some hv, by simpa using List.find?_some hv, hu⟩
  · intro hx
    obtain ⟨v, hv, hn, hu⟩ := hx
    induction vars with
    | nil => simp at hv
    | cons w vars ih =>
      obtain ⟨hw, hvars⟩ := List.pairwise_cons.1 hvars
      by_cases hwn : w.name = name
      · refine ⟨w, List.find?_cons_of_pos (beq_iff_eq.2 hwn), ?_⟩
        rcases List.mem_cons.1 hv with rfl | hv
        · exact hu
        · obtain ⟨hr, hd⟩ := hw v hv
          rw [isVisibleAt_iff] at hu ⊢
          rw [hr]
          exact ⟨Nat.le_trans hd hu.1, hu.2⟩
      · have hvw : v ∈ vars := by
          rcases List.mem_cons.1 hv with rfl | hv
          · exact absurd hn hwn
          · exact hv
        obtain ⟨x, hx, hxu⟩ := ih hvars hvw
        exact ⟨x, by rw [List.find?_cons_of_neg (by simpa using hwn), hx], hxu⟩

/-! ### Variables of lambdas and of declarations -/

theorem mem_ofLambda_iff {v : LocalVariable} :
    v ∈ ofLambda source p ↔
      ∃ ps n, p.child? .parameters = some ps ∧
        (ps.kind = .identifier ∧ n = ps ∨
          ps.kind = .inferredParameters ∧ n ∈ ps.children ∧ n.kind = .identifier) ∧
          v = ofNodes source n none none p := by
  have hnames : ∀ (c n : Place), n ∈ (c.namedChildren.filter fun c => c.kind == .identifier) ↔
      n ∈ c.children ∧ n.kind = .identifier := by
    intro c n
    rw [List.mem_filter, Place.namedChildren, List.mem_filter, beq_iff_eq]
    constructor
    · intro hn
      exact ⟨hn.1.1, hn.2⟩
    · intro hn
      exact ⟨⟨hn.1, by rw [hn.2]; rfl⟩, hn.2⟩
  rw [ofLambda]
  cases hps : p.child? .parameters with
  | none => simp
  | some ps =>
    simp only [List.mem_map, Option.some.injEq]
    constructor
    · intro hx
      obtain ⟨n, hn, rfl⟩ := hx
      refine ⟨ps, n, rfl, ?_, rfl⟩
      split at hn
      · rename_i hk
        exact .inl ⟨hk, List.mem_singleton.1 hn⟩
      · rename_i hk
        exact .inr ⟨hk, (hnames ps n).1 hn⟩
      · simp at hn
    · intro hx
      obtain ⟨_, n, rfl, ⟨hk, rfl⟩ | ⟨hk, hn⟩, rfl⟩ := hx
      · exact ⟨n, by simp [hk], rfl⟩
      · exact ⟨n, by simpa only [hk] using (hnames ps n).2 hn, rfl⟩

theorem mem_ofDeclaration_iff {v : LocalVariable} :
    v ∈ ofDeclaration source p ↔
      ∃ ty w d n, p.child? .type = some ty ∧ p.parent? = some w ∧ d ∈ p.childrenIn .declarator ∧
        d.child? .name = some n ∧ v = ofNodes source n (some ty) (d.child? .value) w := by
  rw [ofDeclaration]
  constructor
  · intro hv
    split at hv
    · rename_i ty w hty hw
      obtain ⟨d, hd, hv⟩ := List.mem_filterMap.1 hv
      obtain ⟨n, hn, rfl⟩ := Option.map_eq_some_iff.1 hv
      exact ⟨ty, w, d, n, hty, hw, hd, hn, rfl⟩
    · simp at hv
  · intro hx
    obtain ⟨ty, w, d, n, hty, hw, hd, hn, rfl⟩ := hx
    rw [hty, hw]
    exact List.mem_filterMap.2 ⟨d, hd, by rw [hn]; rfl⟩

theorem successive_ofLambda (source : String) (ho : p.node.Ordered) :
    (ofLambda source p).Pairwise Successive := by
  rw [ofLambda]
  split
  · exact .nil
  · rename_i ps hps
    have hops := (Place.ordered_of_mem_children ho (Place.child?_mem hps).1).2.1
    rw [List.pairwise_map]
    split
    · exact List.pairwise_singleton _ _
    · refine ((Place.pairwise_children hops).filter _ |>.filter _).imp_of_mem ?_
      intro c d _ hd hcd
      have hdm := (List.mem_filter.1 (List.mem_filter.1 hd).1).1
      have hod := (Place.ordered_of_mem_children hops hdm).2.1
      exact ⟨rfl, Nat.le_trans hcd hod.le⟩
    · exact .nil

theorem successive_ofDeclaration (source : String) (ho : p.node.Ordered) :
    (ofDeclaration source p).Pairwise Successive := by
  rw [ofDeclaration]
  split
  · refine List.pairwise_filterMap.2 (((Place.pairwise_children ho).filter _).imp_of_mem ?_)
    intro c d hc hd hcd v hv w hw
    obtain ⟨n, hn, rfl⟩ := Option.map_eq_some_iff.1 hv
    obtain ⟨k, hk, rfl⟩ := Option.map_eq_some_iff.1 hw
    have hoc := (Place.ordered_of_mem_children ho (List.mem_filter.1 hc).1).2.1
    have hod := (Place.ordered_of_mem_children ho (List.mem_filter.1 hd).1).2.1
    have hnc := (Place.ordered_of_mem_children hoc (Place.child?_mem hn).1).2.2
    obtain ⟨hkd, hok, _⟩ := Place.ordered_of_mem_children hod (Place.child?_mem hk).1
    have hle : k.start ≤ k.stop := hok.le
    refine ⟨rfl, ?_⟩
    change n.stop ≤ k.stop
    omega
  · exact .nil

/-- The variables of one node are successive. -/
theorem successive_declaredAtNode (source : String) (ho : p.node.Ordered) :
    (declaredAtNode source p).Pairwise Successive := by
  have hone : ∀ o : Option LocalVariable, o.toList.Pairwise Successive := by
    intro o
    cases o <;> simp
  rw [declaredAtNode]
  split
  · exact hone _
  · exact hone _
  · exact hone _
  · exact hone _
  · exact successive_ofLambda source ho
  · exact successive_ofDeclaration source ho
  · exact .nil

end LocalVariable

/-- A name is taken for a local variable when a variable of that name is visible. -/
theorem isLocal_iff_exists {ix : ClassIndex} {s : Scope ix} {m : Place}
    (hs : s.locals = LocalVariable.declaredIn source m) (ho : m.node.Ordered) :
    s.isLocal name u = true ↔
      ∃ p ∈ m.preorder, ∃ v ∈ LocalVariable.declaredAtNode source p,
        v.name = name ∧ v.isVisibleAt u = true := by
  have hfind : ∀ p ∈ m.preorder, _ := fun p hp =>
    LocalVariable.find_visible_iff name u
      (LocalVariable.successive_declaredAtNode source (Place.ordered_of_mem_preorder ho hp).2.1)
  rw [Scope.isLocal, Scope.local?, LocalVariable.lookup, List.getLast?_isSome,
    ← List.isEmpty_eq_false_iff, List.isEmpty_eq_false_iff_exists_mem, hs, LocalVariable.declaredIn]
  constructor
  · intro hx
    obtain ⟨v, hv⟩ := hx
    obtain ⟨hv, hvis⟩ := List.mem_filter.1 hv
    obtain ⟨vars, hvars, hf⟩ := List.mem_filterMap.1 hv
    obtain ⟨p, hp, rfl⟩ := List.mem_map.1 (List.mem_filter.1 hvars).1
    exact ⟨p, hp, (hfind p hp).1 ⟨v, hf, hvis⟩⟩
  · intro hx
    obtain ⟨p, hp, hv⟩ := hx
    obtain ⟨v, hf, hvis⟩ := (hfind p hp).2 hv
    refine ⟨v, List.mem_filter.2 ⟨List.mem_filterMap.2 ⟨_, ?_, hf⟩, hvis⟩⟩
    refine List.mem_filter.2 ⟨List.mem_map.2 ⟨p, hp, rfl⟩, ?_⟩
    cases hd : LocalVariable.declaredAtNode source p with
    | nil => simp [hd] at hf
    | cons => rfl

/-! ## The variables of a node and what it declares -/

/-- The variables of a node are the names that it declares. -/
theorem declares_of_mem (hr : p.kind = .resource →
      p.ancestor? (· == .tryWithResourcesStatement) = LocalForm.around? p .resource)
    {v : LocalVariable} (hv : v ∈ LocalVariable.declaredAtNode source p) :
    ∃ form n r ty init, Declares p form n ∧ form.seenIn? p = some r ∧
      v = .ofNodes source n ty init r := by
  rw [LocalVariable.declaredAtNode] at hv
  split at hv
  · rename_i hk
    simp only [Option.mem_toList, LocalVariable.ofParameter?, Option.bind_eq_bind,
      Option.bind_eq_some_iff, Option.pure_def, Option.some.injEq] at hv
    obtain ⟨ps, hps, w, hw, n, hn, ty, _, rfl⟩ := hv
    exact ⟨.parameter, n, w, _, _, .parameter hk hn, Option.bind_eq_some_iff.2 ⟨ps, hps, hw⟩, rfl⟩
  · rename_i hk
    simp only [Option.mem_toList, LocalVariable.ofLoop?, Option.bind_eq_bind,
      Option.bind_eq_some_iff, Option.pure_def, Option.some.injEq] at hv
    obtain ⟨n, hn, ty, _, rfl⟩ := hv
    exact ⟨.loop, n, p, _, _, .loop hk hn, rfl, rfl⟩
  · rename_i hk
    simp only [Option.mem_toList, LocalVariable.ofResource?, Option.bind_eq_bind,
      Option.bind_eq_some_iff, Option.pure_def, Option.some.injEq] at hv
    obtain ⟨w, hw, n, hn, ty, _, rfl⟩ := hv
    exact ⟨.resource, n, w, _, _, .resource hk hn, (hr hk).symm.trans hw, rfl⟩
  · rename_i hk
    simp only [Option.mem_toList, LocalVariable.ofCatch?, Option.bind_eq_bind,
      Option.bind_eq_some_iff, Option.pure_def, Option.some.injEq] at hv
    obtain ⟨n, hn, ty, _, w, hw, rfl⟩ := hv
    exact ⟨.caught, n, w, _, _, .caught hk hn, hw, rfl⟩
  · rename_i hk
    obtain ⟨ps, n, hps, hn, rfl⟩ := LocalVariable.mem_ofLambda_iff.1 hv
    exact ⟨.lambda, n, p, _, _, .lambda hk hps hn, rfl, rfl⟩
  · rename_i hk
    obtain ⟨ty, w, d, n, _, hw, hd, hn, rfl⟩ := LocalVariable.mem_ofDeclaration_iff.1 hv
    by_cases hwk : w.kind = .switchBlockStatementGroup
    · exact ⟨.inSwitch, n, w, _, _, .inSwitch hk hw hwk hd hn, hw, rfl⟩
    · exact ⟨.inBlock, n, w, _, _, .inBlock hk hw hwk hd hn, hw, rfl⟩
  · simp at hv

section

variable {t : Tree} (h : Tree.ofText? source = some t)

include h

theorem around?_resource (hp : p ∈ (Place.root t).preorder) (hk : p.kind = .resource) :
    p.ancestor? (· == .tryWithResourcesStatement) = LocalForm.around? p .resource := by
  obtain ⟨rs, hrs⟩ := exists_parent_of_kind h hp (by rw [hk]; simp)
  have hrsm := (Place.mem_of_parent? hp hrs).1
  have hrsk := (kind_of_parent h hp hrs).2.1 hk
  obtain ⟨w, hw⟩ := exists_parent_of_kind h hrsm (by rw [hrsk]; simp)
  have hwk := (kind_of_parent h hrsm hw).2.2 hrsk
  rw [LocalForm.around?, hrs, Option.bind_some, hw, Place.ancestor?,
    Place.ancestors_of_parent? hrs, Place.ancestors_of_parent? hw]
  simp [hrsk, hwk]

theorem exists_type (hp : p ∈ (Place.root t).preorder)
    (hk : p.kind ∈ [Kind.formalParameter, .enhancedForStatement, .localVariableDeclaration]) :
    ∃ ty, p.child? .type = some ty := by
  obtain ⟨c, hc, hr⟩ := (Tree.isConstruct_of_ofText? h (Place.node_mem_preorder hp)).exists_child
    (List.all_eq_true.1 typed_test _ hk) rfl
  exact Place.child?_isSome hc (by simpa [Part.inRole, Tree.part] using hr)

theorem exists_type_of_name (hp : p ∈ (Place.root t).preorder) (hk : p.kind = .resource)
    (hn : p.child? .name = some n) : ∃ ty, p.child? .type = some ty := by
  have hpm := Place.node_mem_preorder hp
  obtain ⟨hnc, hnr⟩ := Place.child?_mem hn
  have hnm := Place.node_mem_of_mem_children hnc
  obtain ⟨c, hc, hr⟩ := (Tree.isConstruct_of_ofText? h hpm).exists_child_of_child resource_test hk
    hnm (Tree.not_comment_of_role h hpm hnm hnr) (by simp [Part.inRole, Tree.part, hnr])
  exact Place.child?_isSome hc (by simpa [Part.inRole, Tree.part] using hr)

theorem exists_catchType (hp : p ∈ (Place.root t).preorder) (hk : p.kind = .catchFormalParameter) :
    ∃ ty, p.named? .catchType = some ty := by
  obtain ⟨c, hc, hr⟩ := (Tree.isConstruct_of_ofText? h (Place.node_mem_preorder hp)).exists_child
    caught_test hk
  exact Place.named?_isSome hc (by simpa [Part.isKind, Tree.part] using hr) rfl

/-- A name that a node declares is among its variables, if it is seen anywhere. -/
theorem mem_of_declares (hp : p ∈ (Place.root t).preorder) (hd : Declares p form n)
    (hr : form.seenIn? p = some w) :
    ∃ ty init, LocalVariable.ofNodes source n ty init w ∈
      LocalVariable.declaredAtNode source p := by
  cases hd with
  | parameter hk hn =>
    obtain ⟨ty, hty⟩ := exists_type h hp (by simp [hk])
    obtain ⟨ps, hps, hw⟩ := Option.bind_eq_some_iff.1 hr
    refine ⟨some ty, none, ?_⟩
    simp [LocalVariable.declaredAtNode, hk, LocalVariable.ofParameter?, hps, hw, hn, hty]
  | varargs => simp [LocalForm.seenIn?] at hr
  | @inBlock _ d _ hk _ _ hd hn =>
    obtain ⟨ty, hty⟩ := exists_type h hp (by simp [hk])
    refine ⟨some ty, d.child? .value, ?_⟩
    rw [LocalVariable.declaredAtNode, hk]
    exact LocalVariable.mem_ofDeclaration_iff.2 ⟨ty, w, d, n, hty, hr, hd, hn, rfl⟩
  | @inSwitch _ d _ hk _ _ hd hn =>
    obtain ⟨ty, hty⟩ := exists_type h hp (by simp [hk])
    refine ⟨some ty, d.child? .value, ?_⟩
    rw [LocalVariable.declaredAtNode, hk]
    exact LocalVariable.mem_ofDeclaration_iff.2 ⟨ty, w, d, n, hty, hr, hd, hn, rfl⟩
  | resource hk hn =>
    obtain ⟨ty, hty⟩ := exists_type_of_name h hp hk hn
    have hw := (around?_resource h hp hk).trans hr
    refine ⟨some ty, p.child? .value, ?_⟩
    simp [LocalVariable.declaredAtNode, hk, LocalVariable.ofResource?, hw, hn, hty]
  | loop hk hn =>
    obtain ⟨ty, hty⟩ := exists_type h hp (by simp [hk])
    refine ⟨some ty, none, ?_⟩
    obtain rfl : p = w := by simpa [LocalForm.seenIn?, LocalForm.around?] using hr
    simp [LocalVariable.declaredAtNode, hk, LocalVariable.ofLoop?, hn, hty]
  | caught hk hn =>
    obtain ⟨ty, hty⟩ := exists_catchType h hp hk
    have hw : p.parent? = some w := hr
    refine ⟨some ty, none, ?_⟩
    simp [LocalVariable.declaredAtNode, hk, LocalVariable.ofCatch?, hw, hn, hty]
  | @lambda ps _ hk hps hn =>
    refine ⟨none, none, ?_⟩
    obtain rfl : p = w := by simpa [LocalForm.seenIn?, LocalForm.around?] using hr
    rw [LocalVariable.declaredAtNode, hk]
    exact LocalVariable.mem_ofLambda_iff.2 ⟨ps, n, hps, hn, rfl⟩

/-! ## What a name means -/

/-- A name is taken for a local variable when a declaration of it below the method is seen. -/
theorem isLocal_iff {ix : ClassIndex} (method : ix.MethodId) {m : Place}
    (hm : m ∈ (Place.root t).preorder) (hu : u ∈ (Place.root t).preorder)
    (hk : u.kind = .identifier) :
    (Scope.ofMethod source method m).isLocal name u = true ↔
      DeclaresWith source name m fun p n form => Seen p n u form := by
  have ho : m.node.Ordered :=
    (Place.ordered_of_mem_preorder (Tree.ordered_of_ofText? h) hm).2.1
  rw [isLocal_iff_exists rfl ho]
  constructor
  · intro hx
    obtain ⟨p, hp, v, hv, hn, hvis⟩ := hx
    have hpt := Place.mem_preorder_trans hp hm
    obtain ⟨form, n, w, ty, init, hd, hw, rfl⟩ := declares_of_mem (around?_resource h hpt) hv
    obtain ⟨hb, h₁, h₂⟩ := LocalVariable.isVisibleAt_iff.1 hvis
    have hwt := mem_of_seenIn? hpt hw
    exact ⟨p, hp, form, n, hd, hn, w, hw, (mem_preorder_iff_covers h hu hk hwt).2 ⟨h₁, h₂⟩, hb⟩
  · intro hx
    obtain ⟨p, hp, form, n, hd, hn, w, hw, huw, hb⟩ := hx
    have hpt := Place.mem_preorder_trans hp hm
    have hwt := mem_of_seenIn? hpt hw
    obtain ⟨ty, init, hv⟩ := mem_of_declares h hpt hd hw
    exact ⟨p, hp, _, hv, hn,
      LocalVariable.isVisibleAt_iff.2 ⟨hb, (mem_preorder_iff_covers h hu hk hwt).1 huw⟩⟩

/-- A name is taken for a local variable in the scopes of its declarations, but for uses that are
missed, and beyond them. So this agrees with the scopes of Java at a use exactly when there, if
declarations of the name are in scope, one is not missed or another reaches beyond its scope; and if
one reaches beyond, another is in scope. -/
theorem isLocal_inScope_iff {ix : ClassIndex} (method : ix.MethodId) {m : Place}
    (hm : m ∈ (Place.root t).preorder) (hu : u ∈ (Place.root t).preorder)
    (hk : u.kind = .identifier) :
    ((Scope.ofMethod source method m).isLocal name u = true ↔
        DeclaresWith source name m fun p n form =>
          InScope p n u form ∧ ¬Missed p u form ∨ Beyond p n u form) ∧
      (((Scope.ofMethod source method m).isLocal name u = true ↔
          DeclaresWith source name m fun p n => InScope p n u) ↔
        ((DeclaresWith source name m fun p n => InScope p n u) →
          DeclaresWith source name m fun p n form =>
            InScope p n u form ∧ ¬Missed p u form ∨ Beyond p n u form) ∧
        ((DeclaresWith source name m fun p n => Beyond p n u) →
          DeclaresWith source name m fun p n => InScope p n u)) := by
  have hl : (Scope.ofMethod source method m).isLocal name u = true ↔
      DeclaresWith source name m fun p n form =>
        InScope p n u form ∧ ¬Missed p u form ∨ Beyond p n u form := by
    rw [isLocal_iff h method hm hu hk]
    constructor
    · intro hs
      exact hs.imp fun p hp form n hd => (seen_iff h (Place.mem_preorder_trans hp hm) hd).1
    · intro hs
      exact hs.imp fun p hp form n hd => (seen_iff h (Place.mem_preorder_trans hp hm) hd).2
  refine ⟨hl, ?_⟩
  rw [hl]
  constructor
  · intro hi
    refine ⟨hi.2, fun hb => hi.1 ?_⟩
    exact hb.imp fun p _ form n _ h' => .inr h'
  · intro hi
    obtain ⟨hin, hbeyond⟩ := hi
    refine ⟨?_, hin⟩
    intro hx
    obtain ⟨p, hp, form, n, hd, hn, ⟨hs, _⟩ | hb⟩ := hx
    · exact ⟨p, hp, form, n, hd, hn, hs⟩
    · exact hbeyond ⟨p, hp, form, n, hd, hn, hb⟩

end

/-! ## A parameter, and one with `...` -/

/-- The body of a method is the scope of its parameters. -/
theorem inScope_parameter {m ps : Place} (hform : form = .parameter ∨ form = .varargs)
    (hps : ps ∈ m.children) (hp : p ∈ ps.children) (hu : InBody m u) : InScope p n u form := by
  have ha : p.parent?.bind Place.parent? = some m := by
    rw [Place.parent?_of_mem_children hp, Option.bind_some, Place.parent?_of_mem_children hps]
  rcases hform with rfl | rfl
  · exact ⟨m, ha, hu⟩
  · exact ⟨m, ha, hu⟩

/-- A method with a parameter, and a name in its body. -/
structure ParameterUse where
  tree : Tree
  method : Place
  parameters : Place
  parameter : Place
  name : Place
  body : Place
  use : Place

/-- The first method of a text, its first parameter of a kind, and the first name in its body. -/
def ParameterUse.ofText? (kind : Kind) (name? : Place → Option Place) (text : String) :
    Option ParameterUse := do
  let tree ← Tree.ofText? text
  let method ← (Place.root tree).first? .methodDeclaration
  let parameters ← method.child? .parameters
  let parameter ← parameters.named? kind
  let name ← name? parameter
  let body ← method.child? .body
  let use ← body.first? .identifier
  return { tree, method, parameters, parameter, name, body, use }

theorem ParameterUse.of_ofText? {kind : Kind} {name? : Place → Option Place} {text : String}
    {x : ParameterUse} (h : ofText? kind name? text = some x) :
    Tree.ofText? text = some x.tree ∧
      (x.method ∈ (Place.root x.tree).preorder ∧ x.method.kind = .methodDeclaration) ∧
      x.parameters ∈ x.method.children ∧
      (x.parameter ∈ x.parameters.children ∧ x.parameter.kind = kind) ∧
      name? x.parameter = some x.name ∧ InBody x.method x.use ∧
      x.use ∈ x.method.preorder ∧ x.use.kind = .identifier := by
  simp only [ofText?, Option.bind_eq_bind, Option.bind_eq_some_iff, Option.pure_def,
    Option.some.injEq] at h
  obtain ⟨tree, ht, method, hm, parameters, hps, parameter, hp, name, hn, body, hb, use, hu,
    rfl⟩ := h
  obtain ⟨hub, hk⟩ := Place.first?_mem hu
  have hbm := Place.mem_preorder_of_mem_children (Place.child?_mem hb).1
  exact ⟨ht, Place.first?_mem hm, (Place.child?_mem hps).1, Place.named?_mem hp, hn,
    ⟨body, hb, hub⟩, Place.mem_preorder_trans hub hbm, hk⟩

def parameterText : String := "class A\x7bint m(int a)\x7breturn a;\x7d\x7d"

def parameterWorkspace : Workspace := Workspace.empty.addFile "A.java" parameterText

def parameterMethodId : parameterWorkspace.index.MethodId :=
  ⟨⟨0, by decide +kernel⟩, ⟨0, by decide +kernel⟩⟩

def parameterUse : ParameterUse :=
  (ParameterUse.ofText? .formalParameter (Place.child? .name) parameterText).get
    (by decide +kernel)

theorem isLocal_parameter :
    Tree.ofText? parameterText = some parameterUse.tree ∧
      parameterUse.method ∈ (Place.root parameterUse.tree).preorder ∧
      parameterUse.use ∈ (Place.root parameterUse.tree).preorder ∧
      parameterUse.use.kind = .identifier ∧
      (DeclaresWith parameterText "a" parameterUse.method fun p n => InScope p n parameterUse.use) ∧
      (Scope.ofMethod parameterText parameterMethodId parameterUse.method).isLocal "a"
        parameterUse.use = true := by
  have hx : ParameterUse.ofText? .formalParameter (Place.child? .name) parameterText =
      some parameterUse := (Option.some_get _).symm
  obtain ⟨h, ⟨hm, _⟩, hps, ⟨hp, hpk⟩, hn, hbody, hum, hk⟩ := ParameterUse.of_ofText? hx
  have hu := Place.mem_preorder_trans hum hm
  have hpm := Place.mem_preorder_trans (Place.mem_preorder_of_mem_children hp)
    (Place.mem_preorder_of_mem_children hps)
  have hd : Declares parameterUse.parameter .parameter parameterUse.name := .parameter hpk hn
  have ht : parameterUse.name.text parameterText = "a" := by decide +kernel
  have hin := inScope_parameter (n := parameterUse.name) (.inl rfl) hps hp hbody
  refine ⟨h, hm, hu, hk, ⟨_, hpm, .parameter, _, hd, ht, hin⟩, ?_⟩
  exact (isLocal_inScope_iff h parameterMethodId hm hu hk).1.2
    ⟨_, hpm, .parameter, _, hd, ht, .inl ⟨hin, fun hmiss => hmiss⟩⟩

def varargsText : String := "class A\x7bint[] m(int... a)\x7breturn a;\x7d\x7d"

def varargsWorkspace : Workspace := Workspace.empty.addFile "A.java" varargsText

def varargsMethodId : varargsWorkspace.index.MethodId :=
  ⟨⟨0, by decide +kernel⟩, ⟨0, by decide +kernel⟩⟩

def varargsName? (p : Place) : Option Place :=
  (p.named? .variableDeclarator).bind (Place.child? .name)

def varargsUse : ParameterUse :=
  (ParameterUse.ofText? .spreadParameter varargsName? varargsText).get (by decide +kernel)

/-- A parameter with `...` is in scope in the body, and not taken for a local variable. -/
theorem not_isLocal_varargs :
    ¬∀ (source : String) (t : Tree), Tree.ofText? source = some t →
      ∀ (ix : ClassIndex) (method : ix.MethodId), ∀ m ∈ (Place.root t).preorder,
        m.kind = .methodDeclaration ∨ m.kind = .constructorDeclaration →
          ∀ u, InBody m u → u.kind = .identifier →
            ¬LiesIn (fun q => isSeparate q.kind = true) m u →
              ((Scope.ofMethod source method m).isLocal (u.text source) u = true ↔
                DeclaresWith source (u.text source) m fun p n => InScope p n u) := by
  intro hall
  have hx : ParameterUse.ofText? .spreadParameter varargsName? varargsText = some varargsUse :=
    (Option.some_get _).symm
  obtain ⟨h, ⟨hm, hmk⟩, hps, ⟨hp, hpk⟩, hn, hbody, _, hk⟩ := ParameterUse.of_ofText? hx
  have hpm := Place.mem_preorder_trans (Place.mem_preorder_of_mem_children hp)
    (Place.mem_preorder_of_mem_children hps)
  obtain ⟨v, hv, hn⟩ := Option.bind_eq_some_iff.1 hn
  have hd : Declares varargsUse.parameter .varargs varargsUse.name := .varargs hpk hv hn
  have ht : varargsUse.name.text varargsText = varargsUse.use.text varargsText := by
    decide +kernel
  have hin := inScope_parameter (n := varargsUse.name) (.inr rfl) hps hp hbody
  have hsep : (varargsUse.method.preorder.all fun q => !isSeparate q.kind) = true := by
    decide +kernel
  have hl : (Scope.ofMethod varargsText varargsMethodId varargsUse.method).isLocal
      (varargsUse.use.text varargsText) varargsUse.use = false := by
    decide +kernel
  have hiff := hall varargsText varargsUse.tree h _ varargsMethodId varargsUse.method hm
    (.inl hmk) varargsUse.use hbody hk (not_liesIn_of_all hsep)
  rw [hiff.2 ⟨_, hpm, .varargs, _, hd, ht, hin⟩] at hl
  simp at hl

end InjectionPoints
