/-
Code that compiles to methods of its own: lambdas, the bodies of anonymous classes, and the bodies of
the types that a method declares. A walk leaves out lambdas and class bodies, wherever they are
(`mem_walked_iff`); the bodies of interfaces, enums and annotation types it enters. So nothing is
found in separate code exactly when every candidate in such a body also lies in a lambda or in a
class body (`not_found_in_separate_code_iff`).
-/
import InjectionPoints.Usage
import InjectionPoints.Workspace
import InjectionPoints.Proofs.SourceTree
import InjectionPoints.Proofs.Tree.Places

namespace InjectionPoints

open Java

/-- Whether `q` lies in a node of the wanted sort strictly below `p`. -/
def LiesIn (wanted : Place → Prop) (p q : Place) : Prop :=
  ∃ c ∈ p.children, ∃ s ∈ c.preorder, wanted s ∧ q ∈ s.preorder

/-- The body of a declared type. -/
def IsTypeBody (kinds : List Kind) (q : Place) : Prop :=
  ∃ d, q.parent? = some d ∧ d.kind ∈ kinds ∧ q.node.field = some .body

/-- Code that compiles to methods of its own. -/
inductive SeparateCode : Place → Prop where
  | lambda {q : Place} : q.kind = .lambdaExpression → SeparateCode q
  | anonymous {q p : Place} :
      q.parent? = some p → p.kind = .objectCreationExpression → q.kind = .classBody →
        SeparateCode q
  | declared {q : Place} : IsTypeBody Kind.typeDeclarations q → SeparateCode q

/-- The declarations of types whose bodies are no class bodies. -/
def openDeclarations : List Kind :=
  [.interfaceDeclaration, .enumDeclaration, .annotationTypeDeclaration]

section Walk

variable {p q c : Place} {wanted : Place → Prop}

theorem not_liesIn_self : ¬LiesIn wanted p p := by
  intro hx
  obtain ⟨c, hc, s, hs, _, hp⟩ := hx
  exact Place.not_mem_preorder_child hc (Place.mem_preorder_trans hp hs)

/-- To lie in a node below `p` is to lie in a child of the sort, or in a node below a child. -/
theorem liesIn_iff_of_child (hc : c ∈ p.children) (hq : q ∈ c.preorder) :
    LiesIn wanted p q ↔ wanted c ∨ LiesIn wanted c q := by
  constructor
  · intro hx
    obtain ⟨d, hd, s, hs, hw, hqs⟩ := hx
    have he := Place.child_unique hc hd hq (Place.mem_preorder_trans hqs hs)
    subst he
    rcases Place.mem_preorder_iff.1 hs with rfl | ⟨e, he, hse⟩
    · exact .inl hw
    · exact .inr ⟨e, he, s, hse, hw, hqs⟩
  · intro hx
    rcases hx with hw | ⟨d, hd, s, hs, hw, hqs⟩
    · exact ⟨c, hc, c, c.self_mem_preorder, hw, hq⟩
    · exact ⟨c, hc, s, Place.mem_preorder_iff.2 (.inr ⟨d, hd, hs⟩), hw, hqs⟩

/-- Where no node is of the sort, nothing lies in one. -/
theorem not_liesIn_of_all {test : Place → Bool} (h : (p.preorder.all fun s => !test s) = true) :
    ¬LiesIn (fun s => test s = true) p q := by
  intro hlies
  obtain ⟨c, hc, s, hs, hw, _⟩ := hlies
  have hn := List.all_eq_true.1 h s (Place.mem_preorder_iff.2 (.inr ⟨c, hc, hs⟩))
  rw [hw] at hn
  simp at hn

theorem among_eq (t : Tree) (above : List (Tree × Nat)) (i : Nat) (cs : List Tree) :
    Walk.among t above i cs =
      ((Place.childrenFrom t above i cs).filter fun c => !isSeparate c.kind).flatMap walked := by
  induction cs generalizing i with
  | nil => rfl
  | cons c cs ih =>
    rw [Walk.among, Place.childrenFrom, List.filter_cons, ih, Place.kind]
    cases isSeparate c.kind with
    | false => rfl
    | true => rfl

theorem walked_eq (p : Place) :
    walked p = p :: (p.children.filter fun c => !isSeparate c.kind).flatMap walked := by
  obtain ⟨⟨k, f, s, cs⟩, above⟩ := p
  rw [walked, Walk.below, among_eq]
  rfl

open Classical in
/-- A place and the places below it, in pre-order, without those that lie in a lambda or in a class
body below the place. -/
noncomputable def unpruned (p : Place) : List Place :=
  p.preorder.filter fun q => !decide (LiesIn (fun s => isSeparate s.kind = true) p q)

theorem flatMap_filter {β γ : Type} (test : β → Bool) (f : β → List γ) (l : List β) :
    (l.filter test).flatMap f = l.flatMap fun b => if test b then f b else [] := by
  induction l with
  | nil => rfl
  | cons b l ih => cases h : test b <;> simp [h, ih]

open Classical in
theorem unpruned_eq (p : Place) :
    unpruned p = p :: (p.children.filter fun c => !isSeparate c.kind).flatMap unpruned := by
  rw [unpruned, Place.preorder_eq, List.filter_cons_of_pos (by simp [not_liesIn_self]),
    List.filter_flatMap, flatMap_filter]
  congr 1
  refine List.flatMap_congr fun c hc => ?_
  -- below a child all is left out, or what is left out below the child
  cases hs : isSeparate c.kind with
  | true =>
    refine List.filter_eq_nil_iff.2 fun q hq => ?_
    simp [liesIn_iff_of_child hc hq, hs]
  | false =>
    refine List.filter_congr fun q hq => ?_
    simp [liesIn_iff_of_child hc hq, hs]

/-- A walk goes through what is not pruned, in the order of the text. -/
theorem walked_eq_unpruned (p : Place) : walked p = unpruned p := by
  induction p using Place.induction with
  | step p ih =>
    rw [walked_eq, unpruned_eq]
    congr 1
    exact List.flatMap_congr fun c hc => ih c (List.mem_filter.1 hc).1

/-- A walk visits what does not lie in a lambda or in a class body below its start. -/
theorem mem_walked_iff :
    q ∈ walked p ↔ q ∈ p.preorder ∧ ¬LiesIn (fun s => isSeparate s.kind = true) p q := by
  rw [walked_eq_unpruned, unpruned, List.mem_filter, Bool.not_eq_true', decide_eq_false_iff_not]

end Walk

/-! ## Bodies of types -/

/-- Classes and records have class bodies. -/
def hasClassBody (k : Kind) (x : Part) : Bool :=
  !(k == .classDeclaration || k == .recordDeclaration) || x.role != some .body ||
    x.kind == .classBody

theorem class_body_test :
    (Grammar.treeConstructs.all fun c =>
      !c.shape.any (Shape.may fun x => !hasClassBody c.kind x)) = true := by
  decide +kernel

/-- In the tree of a text what is separate code is a lambda, a class body, or the body of another
type. -/
theorem SeparateCode.cases_of_ofText? {source : String} {t : Tree} (h : Tree.ofText? source = some t)
    {q : Place} (hq : q ∈ (Place.root t).preorder) (hs : SeparateCode q) :
    isSeparate q.kind = true ∨ IsTypeBody openDeclarations q := by
  cases hs with
  | lambda hk =>
    rw [hk]
    exact .inl rfl
  | anonymous _ _ hk =>
    rw [hk]
    exact .inl rfl
  | declared hb =>
    obtain ⟨d, hd, hk, hf⟩ := hb
    by_cases ho : d.kind ∈ openDeclarations
    · exact .inr ⟨d, hd, ho, hf⟩
    · left
      obtain ⟨hdm, hqd⟩ := Place.mem_of_parent? hq hd
      have hdt := Place.node_mem_preorder hdm
      have hqc := Place.node_mem_of_mem_children hqd
      have hp := (Tree.isConstruct_of_ofText? h hdt).child_passes class_body_test hqc
        (Tree.not_comment_of_role h hdt hqc hf)
      have hc : d.kind = .classDeclaration ∨ d.kind = .recordDeclaration := by
        simp only [Kind.typeDeclarations, openDeclarations, List.mem_cons, List.not_mem_nil,
          or_false, not_or] at hk ho
        rcases hk with hk | hk | hk | hk | hk
        · exact .inl hk
        · exact absurd hk ho.1
        · exact absurd hk ho.2.1
        · exact .inr hk
        · exact absurd hk ho.2.2
      have hkind : q.node.kind = .classBody := by
        change (d.node.kind = _) ∨ (d.node.kind = _) at hc
        rcases hc with hc | hc <;> simpa [hasClassBody, hc, Tree.part, hf] using hp
      rw [Place.kind, hkind]
      rfl

theorem LiesIn.exists_declaration {kinds : List Kind} {p q : Place}
    (h : LiesIn (IsTypeBody kinds) p q) : ∃ d ∈ p.preorder, d.kind ∈ kinds := by
  obtain ⟨c, hc, s, hs, ⟨d, hd, hk, _⟩, _⟩ := h
  refine ⟨d, ?_, hk⟩
  rcases Place.exists_parent hs with rfl | ⟨e, he, hse⟩
  · rw [Place.parent?_of_mem_children hc, Option.some.injEq] at hd
    exact hd ▸ p.self_mem_preorder
  · rw [Place.parent?_of_mem_children hse, Option.some.injEq] at hd
    exact hd ▸ Place.mem_preorder_iff.2 (.inr ⟨c, hc, he⟩)

/-! ## Candidates -/

namespace Usage

variable {ix : ClassIndex} {s : Scope ix} {element : Element} {p q body : Place}

/-- The places that a completion takes its variants from. -/
def contributors (s : Scope ix) (element : Element) (body : Place) : List Place :=
  collect false (fun p => if (variant? s element p).isSome then some p else none) body

theorem variants_eq_contributors (s : Scope ix) (element : Element) (body : Place) :
    variants s element body =
      firstsBy Variant.insertText [] ((contributors s element body).filterMap (variant? s element)) := by
  rw [variants, contributors, collect_all, collect_all, List.filterMap_filterMap]
  congr 2
  funext p
  cases h : variant? s element p <;> simp [h]

theorem mem_contributors_iff :
    p ∈ contributors s element body ↔ p ∈ walked body ∧ (variant? s element p).isSome = true := by
  rw [contributors, collect_all, List.mem_filterMap]
  constructor
  · intro hx
    obtain ⟨q, hq, h⟩ := hx
    split at h
    · rename_i hv
      rw [Option.some.injEq] at h
      subst h
      exact ⟨hq, hv⟩
    · simp at h
  · intro hx
    obtain ⟨hp, hv⟩ := hx
    exact ⟨p, hp, by rw [if_pos hv]⟩

/-- Whatever a text selects is a contributor. -/
theorem mem_contributors_of_find? {text : String} {firstOnly : Bool} {found : List Place}
    (h : find? s element body text firstOnly = some found) (hp : p ∈ found) :
    p ∈ contributors s element body := by
  have hall : ∀ {find : Place → Option Place}, p ∈ collect firstOnly find body →
      ∃ q ∈ walked body, find q = some p := by
    intro find hp
    rw [← List.mem_filterMap, ← collect_all]
    cases firstOnly with
    | false => exact hp
    | true =>
      rw [collect_first] at hp
      exact List.mem_of_mem_take hp
  rw [mem_contributors_iff]
  rw [find?] at h
  split at h
  · rename_i hm
    rw [Option.map_eq_some_iff] at h
    obtain ⟨selector, _, rfl⟩ := h
    obtain ⟨q, hq, hf⟩ := hall hp
    split at hf
    · rename_i hany
      rw [Option.some.injEq] at hf
      subst hf
      obtain ⟨m, hmem, _⟩ := List.any_eq_true.1 hany
      refine ⟨hq, ?_⟩
      rw [variant?, if_pos hm, Option.isSome_map]
      exact List.isSome_head?.2 (List.ne_nil_of_mem hmem)
    · simp at hf
  · rename_i hm
    rw [Option.some.injEq] at h
    subst h
    obtain ⟨q, hq, hf⟩ := hall hp
    split at hf
    · rename_i hv
      rw [Option.some.injEq] at hf
      subst hf
      refine ⟨hq, ?_⟩
      rw [variant?, if_neg hm, Option.isSome_map, hv]
      rfl
    · simp at hf

/-- Nothing is found in separate code, and no variant comes from there, exactly when every candidate
in the body of an interface, an enum or an annotation type also lies in a lambda or in a class
body. -/
theorem not_found_in_separate_code_iff {source : String} {t : Tree}
    (h : Tree.ofText? source = some t) (s : Scope ix) (element : Element)
    (hb : body ∈ (Place.root t).preorder) :
    ((∀ text firstOnly found, find? s element body text firstOnly = some found →
        ∀ p ∈ found, ¬LiesIn SeparateCode body p) ∧
      ∀ p ∈ contributors s element body, ¬LiesIn SeparateCode body p) ↔
    ∀ p ∈ body.preorder, (variant? s element p).isSome = true →
      LiesIn (IsTypeBody openDeclarations) body p →
        LiesIn (fun q => isSeparate q.kind = true) body p := by
  constructor
  · rintro ⟨_, hv⟩ p hp hc ⟨c, hcm, q, hq, ⟨d, hd, hk, hf⟩, hpq⟩
    by_cases hn : LiesIn (fun q => isSeparate q.kind = true) body p
    · exact hn
    · refine absurd ?_ (hv p (mem_contributors_iff.2 ⟨mem_walked_iff.2 ⟨hp, hn⟩, hc⟩))
      refine ⟨c, hcm, q, hq, .declared ⟨d, hd, ?_, hf⟩, hpq⟩
      revert hk
      simp only [openDeclarations, Kind.typeDeclarations, List.mem_cons]
      rintro (hk | hk | hk | hk) <;> simp_all
  · intro hopen
    have hv : ∀ p ∈ contributors s element body, ¬LiesIn SeparateCode body p := by
      intro p hp hin
      obtain ⟨hw, hc⟩ := mem_contributors_iff.1 hp
      obtain ⟨hpb, hn⟩ := mem_walked_iff.1 hw
      obtain ⟨c, hcm, q, hq, hs, hpq⟩ := hin
      have hqt : q ∈ (Place.root t).preorder :=
        Place.mem_preorder_trans (Place.mem_preorder_iff.2 (.inr ⟨c, hcm, hq⟩)) hb
      rcases hs.cases_of_ofText? h hqt with hs | hs
      · exact hn ⟨c, hcm, q, hq, hs, hpq⟩
      · exact hn (hopen p hpb hc ⟨c, hcm, q, hq, hs, hpq⟩)
    exact ⟨fun _ _ _ hf p hp => hv p (mem_contributors_of_find? hf hp), hv⟩

/-! ## A string in a local class, and one in a local enum -/

/-- A method that declares a type, and a string in the body of that type. -/
structure LocalType where
  tree : Tree
  method : Place
  body : Place
  declaration : Place
  typeBody : Place
  string : Place

/-- The first method of a text, and the first type of a kind in its body. -/
def LocalType.ofText? (kind : Kind) (text : String) : Option LocalType := do
  let tree ← Tree.ofText? text
  let method ← (Place.root tree).first? .methodDeclaration
  let body ← method.child? .body
  let declaration ← body.named? kind
  let typeBody ← declaration.child? .body
  let string ← typeBody.first? .stringLiteral
  return { tree, method, body, declaration, typeBody, string }

theorem LocalType.of_ofText? {kind : Kind} {text : String} {x : LocalType}
    (h : ofText? kind text = some x) :
    Tree.ofText? text = some x.tree ∧ x.body ∈ (Place.root x.tree).preorder ∧
      (x.declaration ∈ x.body.children ∧ x.declaration.kind = kind) ∧
      (x.typeBody ∈ x.declaration.children ∧ x.typeBody.node.field = some .body) ∧
      x.string ∈ x.typeBody.preorder := by
  simp only [ofText?, Option.bind_eq_bind, Option.bind_eq_some_iff, Option.pure_def,
    Option.some.injEq] at h
  obtain ⟨tree, ht, method, hm, body, hb, declaration, hd, typeBody, hi, string, hs, rfl⟩ := h
  have hbm := Place.mem_preorder_of_mem_children (Place.child?_mem hb).1
  exact ⟨ht, Place.mem_preorder_trans hbm (Place.first?_mem hm).1, Place.named?_mem hd,
    Place.child?_mem hi, (Place.first?_mem hs).1⟩

def localClassText : String :=
  "class A\x7bvoid m()\x7bclass B\x7bint x=g(\"s\");\x7dh(\"t\");\x7d\x7d"

def localClassWorkspace : Workspace := Workspace.empty.addFile "A.java" localClassText

def localClass : LocalType :=
  (LocalType.ofText? .classDeclaration localClassText).get (by decide +kernel)

def localClassScope : Scope localClassWorkspace.index :=
  .ofMethod localClassText ⟨⟨0, by decide +kernel⟩, ⟨0, by decide +kernel⟩⟩ localClass.method

theorem not_found_in_local_class :
    Tree.ofText? localClassText = some localClass.tree ∧
      localClass.body ∈ (Place.root localClass.tree).preorder ∧
      (variants localClassScope .stringArgument localClass.body).map Variant.insertText = ["t"] ∧
      ∀ p ∈ contributors localClassScope .stringArgument localClass.body,
        ¬LiesIn SeparateCode localClass.body p := by
  have hx : LocalType.ofText? .classDeclaration localClassText = some localClass :=
    (Option.some_get _).symm
  obtain ⟨h, hb, _⟩ := LocalType.of_ofText? hx
  have hn : (localClass.body.preorder.all fun q => !openDeclarations.contains q.kind) = true := by
    decide +kernel
  refine ⟨h, hb, by decide +kernel, ?_⟩
  refine ((not_found_in_separate_code_iff h localClassScope .stringArgument hb).2 ?_).2
  intro p _ _ hin
  obtain ⟨d, hd, hk⟩ := hin.exists_declaration
  have hd' := List.all_eq_true.1 hn d hd
  rw [List.contains_iff_mem.2 hk] at hd'
  simp at hd'

def localEnumText : String := "class A\x7bvoid m()\x7benum E\x7b;int x=g(\"s\");\x7d\x7d\x7d"

def localEnumWorkspace : Workspace := Workspace.empty.addFile "A.java" localEnumText

def localEnum : LocalType :=
  (LocalType.ofText? .enumDeclaration localEnumText).get (by decide +kernel)

def localEnumScope : Scope localEnumWorkspace.index :=
  .ofMethod localEnumText ⟨⟨0, by decide +kernel⟩, ⟨0, by decide +kernel⟩⟩ localEnum.method

/-- The string in a local enum is found. -/
theorem found_in_local_enum :
    ¬∀ (source : String) (t : Tree), Tree.ofText? source = some t →
      ∀ (ix : ClassIndex) (s : Scope ix) (element : Element),
        ∀ body ∈ (Place.root t).preorder, ∀ p ∈ contributors s element body,
          ¬LiesIn SeparateCode body p := by
  intro hall
  have hx : LocalType.ofText? .enumDeclaration localEnumText = some localEnum :=
    (Option.some_get _).symm
  obtain ⟨h, hb, ⟨he, hk⟩, ⟨hbody, hrole⟩, hs⟩ := LocalType.of_ofText? hx
  have hbe := Place.mem_preorder_of_mem_children hbody
  -- nothing in the method is a lambda or a class body
  have hn : (localEnum.body.preorder.all fun q => !isSeparate q.kind) = true := by
    decide +kernel
  have hw : localEnum.string ∈ walked localEnum.body := by
    refine mem_walked_iff.2 ⟨?_, ?_⟩
    · exact Place.mem_preorder_trans (Place.mem_preorder_trans hs hbe)
        (Place.mem_preorder_of_mem_children he)
    · exact not_liesIn_of_all hn
  have hc : localEnum.string ∈ contributors localEnumScope .stringArgument localEnum.body :=
    mem_contributors_iff.2 ⟨hw, by decide +kernel⟩
  refine hall localEnumText localEnum.tree h _ localEnumScope .stringArgument _ hb _ hc
    ⟨localEnum.declaration, he, localEnum.typeBody, hbe, .declared ⟨localEnum.declaration, ?_, ?_, hrole⟩,
      hs⟩
  · exact Place.parent?_of_mem_children hbody
  · rw [hk]
    simp [Kind.typeDeclarations]

end Usage

end InjectionPoints
