/-
Where the methods of an index stand. Every class of a workspace is what some declaration in the tree
of its file says (`exists_classAt`), and each of its methods that has a body is read off one of the
members of that declaration (`exists_methodAt`). A declaration with a name and a body spans more than
anything below it, so the span that the index keeps of a method leads back to its declaration
(`declaration?_eq_some_iff`).
-/
import InjectionPoints.Proofs.SourceTree
import InjectionPoints.Proofs.Tree.Descent
import InjectionPoints.Proofs.WorkspaceInvariant
import InjectionPoints.Target

namespace InjectionPoints

open Java

/-! ## Members -/

namespace Java.Place

variable {p : Place}

theorem map_node_namedChildren (p : Place) : p.namedChildren.map node = p.node.namedChildren := by
  rw [namedChildren, Tree.namedChildren, ← map_node_children, List.filter_map]
  rfl

theorem map_node_child? (f : Field) (p : Place) : (p.child? f).map node = p.node.child? f := by
  rw [child?, Tree.child?, ← map_node_children, List.find?_map]
  rfl

/-- The members in the body of a class; those of an enum stand behind its constants. -/
def members (body : Place) : List Place :=
  body.namedChildren.flatMap fun c =>
    if c.kind == .enumBodyDeclarations then c.namedChildren else [c]

theorem map_node_members (body : Place) : body.members.map node = body.node.members := by
  rw [members, Tree.members, ← map_node_namedChildren, List.map_flatMap, List.flatMap_map]
  refine List.flatMap_congr fun c _ => ?_
  show List.map node (if c.kind == .enumBodyDeclarations then _ else _) = _
  rw [apply_ite (List.map node), map_node_namedChildren]
  rfl

theorem mem_of_mem_namedChildren {c : Place} (h : c ∈ p.namedChildren) : c ∈ p.children :=
  (List.mem_filter.1 h).1

theorem mem_preorder_of_mem_members {body m : Place} (h : m ∈ body.members) : m ∈ body.preorder := by
  obtain ⟨c, hc, hm⟩ := List.mem_flatMap.1 h
  have hcb := mem_preorder_of_mem_children (mem_of_mem_namedChildren hc)
  split at hm
  · exact mem_preorder_trans (mem_preorder_of_mem_children (mem_of_mem_namedChildren hm)) hcb
  · rwa [List.mem_singleton.1 hm]

/-- Below a place stands every node that is below its node. -/
theorem exists_mem_preorder {t : Tree} (h : t ∈ p.node.preorder) : ∃ q ∈ p.preorder, q.node = t := by
  induction p using Place.induction with
  | step p ih =>
    rcases Tree.mem_preorder_iff.1 h with rfl | ⟨d, hd, ht⟩
    · exact ⟨p, p.self_mem_preorder, rfl⟩
    · obtain ⟨c, hc, rfl⟩ := exists_mem_children hd
      obtain ⟨q, hq, hqt⟩ := ih c hc ht
      exact ⟨q, mem_preorder_iff.2 (.inr ⟨c, hc, hq⟩), hqt⟩

end Java.Place

/-- The methods that the members of a declaration declare, with their places. -/
def MethodDecl.readAt (source : String) (declaration : Place) : List (Place × MethodDecl) :=
  (((declaration.child? .body).map Place.members).getD []).filterMap fun p =>
    if Kind.methodDeclarations.contains p.kind then
      (MethodDecl.ofTree? source p.node).map fun m => (p, m)
    else none

/-- All that is said of a method that was read. -/
theorem MethodDecl.exists_of_ofTree? {source : String} {t : Tree} {m : MethodDecl}
    (h : ofTree? source t = some m) :
    ∃ name returnType, t.child? .name = some name ∧
      m = {
        name := if t.kind == .constructorDeclaration then constructorName else name.text source
        typeParams := TypeParam.ofTree source t
        params := (Parameter.ofDeclaration source t).map (·.field.type)
        varargs := (Parameter.ofDeclaration source t).getLast?.any Parameter.varargs
        returnType
        nameSpan := name.span
        declSpan := t.span
        hasBody := (t.child? .body).isSome
        implicit := false } := by
  unfold ofTree? at h
  obtain ⟨name, hname, h⟩ := Option.bind_eq_some_iff.1 h
  dsimp only at h
  split at h
  · next hk =>
    refine ⟨name, none, hname, ?_⟩
    rw [if_pos hk]
    exact (Option.some.inj h).symm
  · next hk =>
    obtain ⟨returnType, _, h⟩ := Option.bind_eq_some_iff.1 h
    refine ⟨name, returnType, hname, ?_⟩
    rw [if_neg hk]
    exact (Option.some.inj h).symm

theorem MethodDecl.spans_of_ofTree? {source : String} {t : Tree} {m : MethodDecl}
    (h : ofTree? source t = some m) :
    (t.child? .name).isSome = true ∧ m.declSpan = t.span ∧ m.hasBody = (t.child? .body).isSome := by
  obtain ⟨name, returnType, hname, rfl⟩ := exists_of_ofTree? h
  exact ⟨by rw [hname]; rfl, rfl, rfl⟩

/-- A method of variable arity has a parameter that takes the arguments. -/
theorem MethodDecl.params_ne_nil_of_ofTree? {source : String} {t : Tree} {m : MethodDecl}
    (h : ofTree? source t = some m) (hv : m.varargs = true) : m.params ≠ [] := by
  obtain ⟨name, returnType, _, rfl⟩ := exists_of_ofTree? h
  intro hnil
  rw [List.map_eq_nil_iff.1 hnil] at hv
  simp at hv

theorem MethodDecl.of_mem_readAt {source : String} {declaration p : Place} {m : MethodDecl}
    (h : (p, m) ∈ readAt source declaration) :
    p ∈ declaration.preorder ∧ Kind.methodDeclarations.contains p.kind = true ∧
      ofTree? source p.node = some m := by
  obtain ⟨q, hq, hread⟩ := List.mem_filterMap.1 h
  split at hread
  · next hk =>
    obtain ⟨m', hm, hpair⟩ := Option.map_eq_some_iff.1 hread
    obtain ⟨rfl, rfl⟩ := Prod.mk.inj hpair
    refine ⟨?_, hk, hm⟩
    cases hb : declaration.child? .body with
    | none => simp [hb] at hq
    | some body =>
      rw [hb, Option.map_some, Option.getD_some] at hq
      exact Place.mem_preorder_trans (Place.mem_preorder_of_mem_members hq)
        (Place.mem_preorder_of_mem_children (Place.child?_mem hb).1)
  · simp at hread

/-- The methods of a class are those that its members declare, and perhaps a constructor of fixed arity
without a body. -/
theorem ClassDecl.methods_of_ofTree? {source : String} {file : FileId} {package : Option String}
    {outer : Option (Nat × ClassDecl)} {declaration : Place} {c : ClassDecl}
    (h : ofTree? source file package outer declaration.node = some c) :
    ∃ implicitly, c.methods = (MethodDecl.readAt source declaration).map Prod.snd ++ implicitly ∧
      ∀ m ∈ implicitly, m.hasBody = false ∧ m.varargs = false := by
  have hread : (MethodDecl.readAt source declaration).map Prod.snd =
      (((declaration.node.child? .body).map Tree.members).getD []).filterMap fun m =>
        if m.kind == .methodDeclaration || m.kind == .constructorDeclaration then
          MethodDecl.ofTree? source m
        else none := by
    rw [MethodDecl.readAt, List.map_filterMap, ← Place.map_node_child?, Option.map_map]
    cases declaration.child? .body with
    | none => rfl
    | some body =>
      simp only [Option.map_some, Option.getD_some, Function.comp_apply, ← Place.map_node_members,
        List.filterMap_map]
      refine List.filterMap_congr fun p _ => ?_
      simp only [Kind.methodDeclarations, List.contains_cons, List.contains_nil, Bool.or_false]
      show Option.map Prod.snd (if (p.node.kind == _ || p.node.kind == _) = true then _ else _) =
        if (p.node.kind == _ || p.node.kind == _) = true then _ else _
      split <;> simp [Function.comp_def]
  unfold ofTree? at h
  obtain ⟨nameNode, _, h⟩ := Option.bind_eq_some_iff.1 h
  obtain rfl := Option.some.inj h
  refine ⟨_, by rw [hread], fun m hm => ?_⟩
  split at hm
  · rw [List.mem_singleton.1 hm]
    exact ⟨rfl, rfl⟩
  · simp at hm

namespace Workspace

/-! ## From the index to the tree -/

variable {ws : Workspace}

/-- A class is what a type declaration of its file says. -/
structure IsDeclaredBy (ws : Workspace) (c : ClassDecl) (f : SourceFile) (t : Tree) : Prop where
  file : ws.files[c.file]? = some f
  below : t ∈ f.tree.preorder
  kind : Kind.typeDeclarations.contains t.kind = true
  reads : ∃ package outer, ClassDecl.ofTree? f.text c.file package outer t = some c

theorem IsDeclaredBy.mono {ws' : Workspace} {c : ClassDecl} {f : SourceFile} {t : Tree}
    (h : IsDeclaredBy ws c f t) (hf : ws.files <+: ws'.files) : IsDeclaredBy ws' c f t :=
  ⟨getElem?_of_initial hf h.file, h.below, h.kind, h.reads⟩

theorem exists_isDeclaredBy (files : List (String × String)) :
    ∀ c ∈ (ofFiles files).index.classes, ∃ f t, IsDeclaredBy (ofFiles files) c f t := by
  induction files using List.reverseRecOn with
  | nil => simp [ofFiles, addFiles, empty, ClassIndex.empty]
  | append_singleton l f ih =>
    rw [ofFiles, addFiles_append_one, ← ofFiles]
    have hsound : (ofFiles l).Sound := sound_empty.addFiles l
    let file := SourceFile.ofText f.1 f.2
    have hkept : ClassIndex.KeptByClass f.2 (ofFiles l).index.scopes.length
        (FileScope.ofTree f.2 file.tree).package
        (fun t => t ∈ file.tree.preorder ∧ Kind.typeDeclarations.contains t.kind = true)
        fun classes => ∀ c ∈ classes, ∃ g t, IsDeclaredBy ((ofFiles l).addFile f.1 f.2) c g t := by
      intro classes outer t c ht hclasses _ hc d hd
      rcases List.mem_append.1 hd with hd | hd
      · exact hclasses d hd
      · obtain rfl := List.mem_singleton.1 hd
        have hfile := ClassIndex.file_of_ofTree? hc
        have hread : ClassDecl.ofTree? file.text d.file (FileScope.ofTree f.2 file.tree).package outer
            t = some d := by
          rw [hfile, show file.text = f.2 from text_ofText f.1 f.2, hc]
        refine ⟨file, t, ?_, ht.1, ht.2, _, outer, hread⟩
        simp [hfile, hsound.scopes_length, Workspace.addFile, file]
    refine ClassIndex.addTypes_kept hkept (fun c hc => ?_) _ fun t ht u hu hk =>
      ⟨Tree.mem_preorder_iff.2 (.inr ⟨t, ht, hu⟩), hk⟩
    obtain ⟨g, t, h⟩ := ih c hc
    exact ⟨g, t, h.mono (List.prefix_append _ _)⟩

/-- A declaration is in the tree of a text that can be read. -/
theorem IsDeclaredBy.ofText? {files : List (String × String)} {c : ClassDecl} {f : SourceFile}
    {t : Tree} (h : IsDeclaredBy (ofFiles files) c f t) : Tree.ofText? f.text = some f.tree := by
  have hk : t.kind ≠ .program := by
    intro hk
    have := h.kind
    simp [hk, Kind.typeDeclarations] at this
  have hf := List.mem_of_getElem? h.file
  rw [ofFiles, files_addFiles, empty, List.nil_append] at hf
  obtain ⟨g, _, rfl⟩ := List.mem_map.1 hf
  rw [text_ofText]
  exact SourceFile.ofText?_of_mem h.below hk

/-- A class of the index is what the declaration at a place of its file says. -/
def ClassAt (ws : Workspace) (c : ws.index.ClassId) (declaration : Place) : Prop :=
  ∃ root, ws.root? (ws.index.decl c).file = some root ∧ declaration ∈ root.preorder ∧
    Kind.typeDeclarations.contains declaration.kind = true ∧
    ∃ package outer, ClassDecl.ofTree? (ws.text (ws.index.decl c).file) (ws.index.decl c).file package
      outer declaration.node = some (ws.index.decl c)

/-- A method of the index is read off a place: the place stands among the members of the declaration
of its class where the method stands among the methods of the class. -/
def MethodAt (ws : Workspace) (m : ws.index.MethodId) (p : Place) : Prop :=
  ∃ declaration, ws.ClassAt m.owner declaration ∧
    (MethodDecl.readAt (ws.text (ws.index.decl m.owner).file) declaration)[m.slot.val]? =
      some (p, ws.index.method m)

theorem exists_classAt (files : List (String × String)) (c : (ofFiles files).index.ClassId) :
    ∃ declaration, (ofFiles files).ClassAt c declaration := by
  obtain ⟨f, t, h⟩ := exists_isDeclaredBy files _ (List.getElem_mem c.isLt)
  obtain ⟨q, hq, rfl⟩ := Place.exists_mem_preorder (p := .root f.tree) h.below
  obtain ⟨package, outer, hreads⟩ := h.reads
  have hfile : (ofFiles files).files[((ofFiles files).index.decl c).file]? = some f := h.file
  refine ⟨q, .root f.tree, by simp [root?, hfile], hq, h.kind, package, outer, ?_⟩
  rw [show (ofFiles files).text ((ofFiles files).index.decl c).file = f.text by simp [text, hfile]]
  exact hreads

/-- Every method with a body is read off some place. -/
theorem exists_methodAt (files : List (String × String)) (m : (ofFiles files).index.MethodId)
    (hb : ((ofFiles files).index.method m).hasBody = true) :
    ∃ p, (ofFiles files).MethodAt m p := by
  obtain ⟨declaration, h⟩ := exists_classAt files m.owner
  obtain ⟨root, hroot, hmem, hk, package, outer, hreads⟩ := h
  obtain ⟨implicitly, hmethods, hnone⟩ := ClassDecl.methods_of_ofTree? hreads
  have hat : ((ofFiles files).index.decl m.owner).methods[m.slot.val]? =
      some ((ofFiles files).index.method m) := List.getElem?_eq_getElem m.slot.isLt
  generalize hslot : m.slot.val = slot at hat
  rw [hmethods, List.getElem?_append] at hat
  -- behind the members stands at most a constructor without a body
  split at hat
  · rw [List.getElem?_map, Option.map_eq_some_iff] at hat
    obtain ⟨⟨p, d⟩, hpd, hd⟩ := hat
    refine ⟨p, declaration, ⟨root, hroot, hmem, hk, package, outer, hreads⟩, ?_⟩
    rw [hslot, hpd, ← hd]
  · have hno := (hnone _ (List.mem_of_getElem? hat)).1
    rw [hb] at hno
    exact absurd hno (by simp)

/-! ## From the tree to the index -/

/-- What a method is read off has its span, a child for its name, and one for its body if it has a
body. -/
theorem of_methodAt {m : ws.index.MethodId} {p : Place} (h : ws.MethodAt m p) :
    ∃ root, ws.root? (ws.index.decl m.owner).file = some root ∧ p ∈ root.preorder ∧
      Kind.methodDeclarations.contains p.kind = true ∧ p.span = (ws.index.method m).declSpan ∧
      (p.child? .name).isSome = true ∧
      (p.child? .body).isSome = (ws.index.method m).hasBody := by
  obtain ⟨declaration, ⟨root, hroot, hmem, _⟩, hat⟩ := h
  obtain ⟨hp, hk, hread⟩ := MethodDecl.of_mem_readAt (List.mem_of_getElem? hat)
  obtain ⟨hname, hspan, hbody⟩ := MethodDecl.spans_of_ofTree? hread
  rw [← Place.map_node_child?, Option.isSome_map] at hname hbody
  exact ⟨root, hroot, Place.mem_preorder_trans hp hmem, hk, hspan.symm, hname, hbody.symm⟩

section Span

variable {source : String} {t : Tree} {p q name body : Place}

theorem filled_of_mem_children (ht : Tree.ofText? source = some t)
    (hp : p ∈ (Place.root t).preorder) (hq : q ∈ p.children) : q.start < q.stop := by
  obtain ⟨u, hu, hqu⟩ := Tree.exists_child_of_mem_children (Place.node_mem_preorder hp)
    (Place.node_mem_of_mem_children hq)
  exact Tree.filled_of_ofText? ht hu hqu

/-- A node with a name and a body spans more than what is below it. -/
theorem eq_of_span_eq (ht : Tree.ofText? source = some t) (hp : p ∈ (Place.root t).preorder)
    (hname : p.child? .name = some name) (hbody : p.child? .body = some body)
    (hq : q ∈ p.preorder) (hspan : q.span = p.span) : q = p := by
  rcases Place.mem_preorder_iff.1 hq with rfl | ⟨c, hc, hqc⟩
  · rfl
  have hop := (Place.ordered_of_mem_preorder (Tree.ordered_of_ofText? ht) hp).2.1
  obtain ⟨h₁, hoc, h₂⟩ := Place.ordered_of_mem_children hop hc
  obtain ⟨h₃, _, h₄⟩ := Place.ordered_of_mem_preorder hoc hqc
  have hstart : q.start = p.start := congrArg Span.start hspan
  have hstop : q.stop = p.stop := congrArg Span.stop hspan
  -- one of the two children is not the one that spans everything, and has no room beside it
  obtain ⟨d, hd, hne⟩ : ∃ d ∈ p.children, d ≠ c := by
    obtain ⟨hn, hnf⟩ := Place.child?_mem hname
    obtain ⟨hb, hbf⟩ := Place.child?_mem hbody
    by_cases hcn : c = name
    · refine ⟨body, hb, ?_⟩
      rintro rfl
      rw [hcn, hnf] at hbf
      simp at hbf
    · exact ⟨name, hn, fun e => hcn e.symm⟩
  have hfilled := filled_of_mem_children ht hp hd
  obtain ⟨h₅, _, h₆⟩ := Place.ordered_of_mem_children hop hd
  rcases pairwise_cases (Place.pairwise_children hop) hd hc with h | h | h
  · exact absurd h hne
  · omega
  · omega

/-- The span of a node with a name and a body leads back to it. -/
theorem exactly?_span (ht : Tree.ofText? source = some t) (hp : p ∈ (Place.root t).preorder)
    (hname : p.child? .name = some name) (hbody : p.child? .body = some body)
    {wanted : Kind → Bool} (hk : wanted p.kind = true) :
    (Place.root t).exactly? p.span wanted = some p := by
  have ho := Tree.ordered_of_ofText? ht
  have hop := (Place.ordered_of_mem_preorder (q := .root t) ho hp).2.1
  have hlt : p.start < p.stop := by
    have hb := (Place.child?_mem hbody).1
    obtain ⟨h₁, _, h₂⟩ := Place.ordered_of_mem_children hop hb
    have := filled_of_mem_children ht hp hb
    omega
  refine (Place.exactly?_eq_some_iff ho hlt).2 ⟨⟨hp, rfl, hk⟩, fun q hq hqs _ => ?_⟩
  have hstart : q.start = p.start := congrArg Span.start hqs
  have hstop : q.stop = p.stop := congrArg Span.stop hqs
  rcases Place.nested_or_apart (r := .root t) ho hp hq with h | h | h | h
  · exact h
  · rw [eq_of_span_eq ht hp hname hbody h hqs]
    exact p.self_mem_preorder
  · omega
  · omega

end Span

/-- The text of the file with a method. -/
abbrev sourceOf (ws : Workspace) (m : ws.index.MethodId) : String :=
  ws.text (ws.index.decl m.owner).file

/-- A method is read off the tree of its text. -/
theorem exists_tree_of_methodAt {files : List (String × String)}
    {m : (ofFiles files).index.MethodId} {p : Place} (h : (ofFiles files).MethodAt m p) :
    ∃ t, (ofFiles files).root? ((ofFiles files).index.decl m.owner).file = some (.root t) ∧
      Tree.ofText? ((ofFiles files).sourceOf m) = some t ∧ p ∈ (Place.root t).preorder := by
  obtain ⟨root, hroot, hp, hk, _⟩ := of_methodAt h
  obtain ⟨path, rfl⟩ := exists_of_root? hroot
  refine ⟨_, hroot, SourceFile.ofText?_of_mem (Place.node_mem_preorder hp) ?_, hp⟩
  intro e
  rw [show p.kind = .program from e] at hk
  simp [Kind.methodDeclarations] at hk

/-- The span that the index keeps of a method leads back to the place that the method is read
off. -/
theorem exactly?_of_methodAt {files : List (String × String)}
    {m : (ofFiles files).index.MethodId} {p : Place} (h : (ofFiles files).MethodAt m p)
    (hb : ((ofFiles files).index.method m).hasBody = true) :
    ∃ root, (ofFiles files).root? ((ofFiles files).index.decl m.owner).file = some root ∧
      root.exactly? ((ofFiles files).index.method m).declSpan Kind.methodDeclarations.contains =
        some p := by
  obtain ⟨_, _, _, hk, hspan, hname, hbody⟩ := of_methodAt h
  obtain ⟨name, hname⟩ := Option.isSome_iff_exists.1 hname
  obtain ⟨body, hbody⟩ := Option.isSome_iff_exists.1 (hbody.trans hb)
  obtain ⟨t, hroot, ht, hp⟩ := exists_tree_of_methodAt h
  exact ⟨_, hroot, hspan ▸ exactly?_span ht hp hname hbody hk⟩

/-- The declaration of a method with a body is found: it is the place that the method is read off. -/
theorem declaration?_eq_some_iff {files : List (String × String)}
    {m : (ofFiles files).index.MethodId} (hb : ((ofFiles files).index.method m).hasBody = true)
    {t : TargetMethod (ofFiles files).index} :
    Target.declaration? (ofFiles files) m = some t ↔
      t.method = m ∧ (ofFiles files).MethodAt m t.declaration ∧
        t.declaration.child? .body = some t.body := by
  have found : ∀ p, (ofFiles files).MethodAt m p → Target.declaration? (ofFiles files) m =
      (p.child? .body).map fun body => ⟨m, p, body⟩ := by
    intro p hp
    obtain ⟨root, hroot, hspan⟩ := exactly?_of_methodAt hp hb
    simp only [Target.declaration?, hroot, hspan, Option.bind_eq_bind, Option.bind_some]
    cases p.child? .body <;> rfl
  constructor
  · intro ht
    obtain ⟨p, hp⟩ := exists_methodAt files m hb
    rw [found p hp, Option.map_eq_some_iff] at ht
    obtain ⟨body, hbody, rfl⟩ := ht
    exact ⟨rfl, hp, hbody⟩
  · intro hx
    obtain ⟨rfl, hp, hbody⟩ := hx
    rw [found _ hp, hbody]
    rfl

theorem exists_declaration? {files : List (String × String)}
    {m : (ofFiles files).index.MethodId} (hb : ((ofFiles files).index.method m).hasBody = true) :
    ∃ t, Target.declaration? (ofFiles files) m = some t := by
  obtain ⟨p, hp⟩ := exists_methodAt files m hb
  obtain ⟨_, _, _, _, _, _, hbody⟩ := of_methodAt hp
  obtain ⟨body, hbody⟩ := Option.isSome_iff_exists.1 (hbody.trans hb)
  exact ⟨⟨m, p, body⟩, (declaration?_eq_some_iff hb).2 ⟨rfl, hp, hbody⟩⟩

/-! ### The first name in a method -/

/-- The first method of some files, and the first name in its body. -/
structure FirstName (files : List (String × String)) where
  method : (ofFiles files).index.MethodId
  target : TargetMethod (ofFiles files).index
  name : Place

namespace FirstName

def ofFiles? (files : List (String × String)) : Option (FirstName files) := do
  let c ← (ofFiles files).index.classIds.head?
  let method ← ((ofFiles files).index.methodsOf c).head?
  let target ← Target.declaration? (ofFiles files) method
  let name ← target.body.first? .identifier
  return { method, target, name }

theorem of_ofFiles? {files : List (String × String)} {x : FirstName files}
    (h : ofFiles? files = some x) (hb : ((ofFiles files).index.method x.method).hasBody = true) :
    Target.declaration? (ofFiles files) x.method = some x.target ∧ x.target.method = x.method ∧
      (ofFiles files).MethodAt x.method x.target.declaration ∧
      x.target.declaration.child? .body = some x.target.body ∧
      x.name ∈ x.target.body.preorder ∧ x.name.kind = .identifier := by
  simp only [ofFiles?, Option.bind_eq_bind, Option.bind_eq_some_iff, Option.pure_def,
    Option.some.injEq] at h
  obtain ⟨_, _, method, _, target, ht, name, hname, rfl⟩ := h
  obtain ⟨hmethod, hm, hbody⟩ := (declaration?_eq_some_iff hb).1 ht
  exact ⟨ht, hmethod, hm, hbody, Place.first?_mem hname⟩

end FirstName

end Workspace

end InjectionPoints
