/-
The constructors of a class: those that its body declares, and if there are none, one that is not in
the text (`constructors_eq`). A class or an enum so has at least one; a record has the one for its
header when its body declares it, or declares neither constructors nor fields and the header has no
`...` (`constructors_of_isDeclaredBy`).
-/
import InjectionPoints.Proofs.Layout.Classes
import InjectionPoints.Proofs.MethodPlaces

namespace InjectionPoints

open Java Java.Part Grammar

/-- What a list of parameters means to a call: the types, and whether the last one takes any number
of arguments. -/
def Parameter.signature (ps : List Parameter) : List String × Bool :=
  (ps.map (·.field.type), ps.getLast?.any Parameter.varargs)

def MethodDecl.signature (m : MethodDecl) : List String × Bool := (m.params, m.varargs)

namespace ClassDecl

/-- The constructors that the body of a class declares. -/
def declaredConstructors (t : Tree) : List Tree :=
  (membersOf t).filter fun m => m.kind == .constructorDeclaration

/-- The fields that the body of a class declares. -/
def declaredFields (source : String) (t : Tree) : List FieldDecl :=
  (membersOf t).flatMap fun m =>
    if m.kind == .fieldDeclaration || m.kind == .constantDeclaration then
      FieldDecl.ofTree source m
    else []

variable {source : String} {file : FileId} {package : Option String}
  {outer : Option (Nat × ClassDecl)} {t root m : Tree} {c : ClassDecl} {d : MethodDecl}

theorem members_of_ofTree? (h : ofTree? source file package outer t = some c) :
    c.kind = ClassKind.ofKind t.kind ∧ c.fields = fieldsOf source t ∧
      ∃ nameSpan, c.methods =
        methodsOf source t ++ implicitly c.kind nameSpan c.fields (methodsOf source t) := by
  unfold ofTree? at h
  obtain ⟨nameNode, _, h⟩ := Option.bind_eq_some_iff.1 h
  obtain rfl := Option.some.inj h
  exact ⟨rfl, rfl, nameNode.span, rfl⟩

theorem mem_preorder_of_mem_membersOf (h : m ∈ membersOf t) : m ∈ t.preorder := by
  have hchild {u c : Tree} (hc : c ∈ u.namedChildren) : c ∈ u.preorder :=
    Tree.mem_preorder_of_mem_children (List.mem_filter.1 hc).1
  rw [membersOf] at h
  cases hb : t.child? .body with
  | none => simp [hb] at h
  | some body =>
    rw [hb, Option.map_some, Option.getD_some] at h
    obtain ⟨c, hc, hm⟩ := List.mem_flatMap.1 h
    have hct := Tree.mem_preorder_trans
      (Tree.mem_preorder_of_mem_children (List.mem_of_find?_eq_some hb)) (hchild hc)
    split at hm
    · exact Tree.mem_preorder_trans hct (hchild hm)
    · rwa [List.mem_singleton.1 hm]

/-! ## What is read off a member -/

theorem constructor_name_test : (treeConstructs.all fun c => c.kind != .constructorDeclaration ||
    c.shape.all (Shape.must fun x => x.role == some .name)) = true := by
  decide +kernel

/-- A constructor in the text is read as one, with the parameters written there. -/
theorem exists_of_constructor (h : Tree.ofText? source = some root) (hm : m ∈ root.preorder)
    (hk : m.kind = .constructorDeclaration) :
    ∃ d, MethodDecl.ofTree? source m = some d ∧ d.isConstructor = true ∧ d.implicit = false ∧
      d.signature = Parameter.signature (Parameter.ofDeclaration source m) := by
  obtain ⟨name, hname, hrole⟩ :=
    (Tree.isConstruct_of_ofText? h hm).exists_child constructor_name_test hk
  have hsome : (m.child? .name).isSome = true := List.find?_isSome.2 ⟨name, hname, hrole⟩
  obtain ⟨n, hn⟩ := Option.isSome_iff_exists.1 hsome
  simp [MethodDecl.ofTree?, hn, hk, MethodDecl.isConstructor, MethodDecl.signature,
    Parameter.signature]

/-- A method in the text is no constructor: its name is one word. -/
theorem not_isConstructor (h : Tree.ofText? source = some root) (hm : m ∈ root.preorder)
    (hk : m.kind = .methodDeclaration) (hd : MethodDecl.ofTree? source m = some d) :
    d.isConstructor = false := by
  obtain ⟨name, returnType, hname, rfl⟩ := MethodDecl.exists_of_ofTree? hd
  have hnt := Tree.mem_preorder_trans hm
    (Tree.mem_preorder_of_mem_children (List.mem_of_find?_eq_some hname))
  obtain ⟨x, hx, hp, htext⟩ := Tree.exists_token_of_word h hnt
    (mem_wordKinds_of_name h hm (by simp [hk, namingKinds]) hname)
  have hne := Token.text_ne_of_isPlain (mem_ofText_of_mem_codeOf hx) hp
  rw [htext] at hne
  simpa [MethodDecl.isConstructor, hk, constructorName] using hne

/-- The constructors among the members are the declared ones. -/
theorem filter_methodsOf (h : Tree.ofText? source = some root) (ht : t ∈ root.preorder) :
    (methodsOf source t).filter MethodDecl.isConstructor =
      (declaredConstructors t).filterMap (MethodDecl.ofTree? source) := by
  rw [methodsOf, declaredConstructors, List.filter_filterMap, List.filterMap_filter]
  refine List.filterMap_congr fun m hm => ?_
  have hmr := Tree.mem_preorder_trans ht (mem_preorder_of_mem_membersOf hm)
  by_cases hc : m.kind = .constructorDeclaration
  · obtain ⟨d, hd, hcon, _⟩ := exists_of_constructor h hmr hc
    simp [hc, hd, hcon]
  by_cases hk : m.kind = .methodDeclaration
  · cases hd : MethodDecl.ofTree? source m with
    | none => simp [hk]
    | some d => simp [hk, not_isConstructor h hmr hk hd]
  · simp [hk, hc]

/-- A class has a constructor in the text as soon as its body declares one. -/
theorem filter_methodsOf_eq_nil_iff (h : Tree.ofText? source = some root) (ht : t ∈ root.preorder) :
    (methodsOf source t).filter MethodDecl.isConstructor = [] ↔ declaredConstructors t = [] := by
  rw [filter_methodsOf h ht]
  constructor
  · intro hnil
    refine List.eq_nil_iff_forall_not_mem.2 fun m hm => ?_
    obtain ⟨hmt, hk⟩ := List.mem_filter.1 hm
    obtain ⟨d, hd, _⟩ := exists_of_constructor h
      (Tree.mem_preorder_trans ht (mem_preorder_of_mem_membersOf hmt)) (beq_iff_eq.1 hk)
    rw [List.filterMap_eq_nil_iff.1 hnil m hm] at hd
    simp at hd
  · intro hnil
    rw [hnil]
    rfl

/-- The constructors of a class: those that its body declares, and one that is not in the text where
there are none and a class of the kind has to have one. -/
theorem constructors_eq (h : Tree.ofText? source = some root) (ht : t ∈ root.preorder)
    (hc : ofTree? source file package outer t = some c) :
    ∃ nameSpan, c.methods.filter MethodDecl.isConstructor =
      (declaredConstructors t).filterMap (MethodDecl.ofTree? source) ++
        if c.kind.isConstructed = true ∧ declaredConstructors t = [] then
          [.implicitConstructor nameSpan (if c.kind = .record then c.fields.map (·.type) else [])]
        else [] := by
  obtain ⟨_, _, nameSpan, hm⟩ := members_of_ofTree? hc
  refine ⟨nameSpan, ?_⟩
  have hany : (methodsOf source t).any MethodDecl.isConstructor = false ↔
      declaredConstructors t = [] := by
    rw [← filter_methodsOf_eq_nil_iff h ht, List.filter_eq_nil_iff, List.any_eq_false]
  rw [hm, List.filter_append, filter_methodsOf h ht, implicitly]
  simp only [Bool.and_eq_true, Bool.not_eq_true', hany]
  split
  · rfl
  · rfl

/-- The parameters of the constructor that is not in the text: in a record they are the fields. -/
def implicitSignature (c : ClassDecl) : List String × Bool :=
  (if c.kind = .record then c.fields.map (·.type) else [], false)

/-- With which parameters a class has constructors, and which of them is not in the text. -/
theorem signatures_eq (h : Tree.ofText? source = some root) (ht : t ∈ root.preorder)
    (hc : ofTree? source file package outer t = some c) :
    (c.methods.filter MethodDecl.isConstructor).map (fun d => (d.implicit, d.signature)) =
      ((declaredConstructors t).map fun m =>
        (false, Parameter.signature (Parameter.ofDeclaration source m))) ++
        if c.kind.isConstructed = true ∧ declaredConstructors t = [] then
          [(true, c.implicitSignature)]
        else [] := by
  obtain ⟨nameSpan, heq⟩ := constructors_eq h ht hc
  rw [heq, List.map_append, List.map_filterMap]
  congr 1
  · rw [← List.filterMap_eq_map]
    refine List.filterMap_congr fun m hm => ?_
    obtain ⟨hmt, hk⟩ := List.mem_filter.1 hm
    obtain ⟨d, hd, _, hi, hs⟩ := exists_of_constructor h
      (Tree.mem_preorder_trans ht (mem_preorder_of_mem_membersOf hmt)) (beq_iff_eq.1 hk)
    rw [hd, Option.map_some, hi, hs, Function.comp_apply]
  · split <;> rfl

/-- With which parameters a class has a constructor. -/
theorem exists_signature_iff (h : Tree.ofText? source = some root) (ht : t ∈ root.preorder)
    (hc : ofTree? source file package outer t = some c) (sig : List String × Bool) :
    (∃ d ∈ c.methods, d.isConstructor = true ∧ d.signature = sig) ↔
      (∃ m ∈ declaredConstructors t,
        Parameter.signature (Parameter.ofDeclaration source m) = sig) ∨
      c.kind.isConstructed = true ∧ declaredConstructors t = [] ∧ c.implicitSignature = sig := by
  have hmem : (∃ d ∈ c.methods, d.isConstructor = true ∧ d.signature = sig) ↔
      sig ∈ ((c.methods.filter MethodDecl.isConstructor).map fun d =>
        (d.implicit, d.signature)).map Prod.snd := by
    simp [and_assoc]
  rw [hmem, signatures_eq h ht hc]
  split
  · next hx => simp [hx, eq_comm]
  · next hx => simp [← and_assoc, hx]

/-- A class has a constructor that is not in the text where it has to have one and its body declares
none. -/
theorem exists_implicit_iff (h : Tree.ofText? source = some root) (ht : t ∈ root.preorder)
    (hc : ofTree? source file package outer t = some c) (sig : List String × Bool) :
    (∃ d ∈ c.methods, d.isConstructor = true ∧ d.implicit = true ∧ d.signature = sig) ↔
      c.kind.isConstructed = true ∧ declaredConstructors t = [] ∧ c.implicitSignature = sig := by
  have hmem : (∃ d ∈ c.methods, d.isConstructor = true ∧ d.implicit = true ∧ d.signature = sig) ↔
      (true, sig) ∈ (c.methods.filter MethodDecl.isConstructor).map fun d =>
        (d.implicit, d.signature) := by
    simp [and_assoc]
  rw [hmem, signatures_eq h ht hc]
  split
  · next hx => simp [hx, eq_comm]
  · next hx => simp [← and_assoc, hx]

/-- The constructor of a record that is not in the text takes its components when the body declares
no fields and the last component is not one with `...`. -/
theorem implicitSignature_record (hc : ofTree? source file package outer t = some c)
    (hk : c.kind = .record) :
    c.implicitSignature = Parameter.signature (Parameter.ofDeclaration source t) ↔
      declaredFields source t = [] ∧
        (Parameter.signature (Parameter.ofDeclaration source t)).2 = false := by
  obtain ⟨hkind, hfields, _⟩ := members_of_ofTree? hc
  have hf : c.fields = (Parameter.ofDeclaration source t).map (·.field) ++
      declaredFields source t := by
    rw [hfields, fieldsOf, ← hkind, if_pos hk]
    rfl
  have htypes : c.fields.map (·.type) =
      (Parameter.ofDeclaration source t).map (·.field.type) ++
        (declaredFields source t).map (·.type) := by
    rw [hf, List.map_append, List.map_map]
    rfl
  rw [implicitSignature, if_pos hk, htypes, Parameter.signature, Prod.mk.injEq,
    List.append_right_eq_self, List.map_eq_nil_iff, @eq_comm Bool false]

end ClassDecl

namespace Workspace

open ClassDecl

/-- Every class is what some declaration says. A record has a constructor for its header when its body
declares it, or declares neither a constructor nor a field and the header has no `...`. A class or an
enum has at least one constructor, and one that is not in the text, without parameters, exactly when
its body declares none. -/
theorem constructors_of_isDeclaredBy {files : List (String × String)}
    (c : (ofFiles files).index.ClassId) :
    (∃ f t, IsDeclaredBy (ofFiles files) ((ofFiles files).index.decl c) f t) ∧
    ∀ f t, IsDeclaredBy (ofFiles files) ((ofFiles files).index.decl c) f t →
      (((ofFiles files).index.decl c).kind = .record →
        ((∃ d ∈ ((ofFiles files).index.decl c).methods, d.isConstructor = true ∧
            d.signature = Parameter.signature (Parameter.ofDeclaration f.text t)) ↔
          (∃ m ∈ declaredConstructors t, Parameter.signature (Parameter.ofDeclaration f.text m) =
            Parameter.signature (Parameter.ofDeclaration f.text t)) ∨
          declaredConstructors t = [] ∧ declaredFields f.text t = [] ∧
            (Parameter.signature (Parameter.ofDeclaration f.text t)).2 = false)) ∧
      (((ofFiles files).index.decl c).kind = .plain ∨
          ((ofFiles files).index.decl c).kind = .enum →
        (∃ d ∈ ((ofFiles files).index.decl c).methods, d.isConstructor = true) ∧
        ∀ sig, (∃ d ∈ ((ofFiles files).index.decl c).methods,
            d.isConstructor = true ∧ d.implicit = true ∧ d.signature = sig) ↔
          declaredConstructors t = [] ∧ sig = ([], false)) := by
  refine ⟨exists_isDeclaredBy files _ (List.getElem_mem c.isLt), fun f t h => ?_⟩
  obtain ⟨package, outer, hc⟩ := h.reads
  have ht := h.ofText?
  refine ⟨fun hk => ?_, fun hk => ?_⟩
  · rw [exists_signature_iff ht h.below hc, implicitSignature_record hc hk, hk]
    simp [ClassKind.isConstructed]
  · have hcon : ((ofFiles files).index.decl c).kind.isConstructed = true := by
      rcases hk with hk | hk <;> rw [hk] <;> rfl
    have hsig : ((ofFiles files).index.decl c).implicitSignature = ([], false) := by
      rw [implicitSignature]
      rcases hk with hk | hk <;> rw [hk] <;> rfl
    refine ⟨?_, fun sig => ?_⟩
    · by_cases hnil : declaredConstructors t = []
      · obtain ⟨d, hd, hdc, _⟩ := (exists_signature_iff ht h.below hc _).2 (.inr ⟨hcon, hnil, rfl⟩)
        exact ⟨d, hd, hdc⟩
      · obtain ⟨m, hm⟩ := List.exists_mem_of_ne_nil _ hnil
        obtain ⟨d, hd, hdc, _⟩ := (exists_signature_iff ht h.below hc _).2 (.inl ⟨m, hm, rfl⟩)
        exact ⟨d, hd, hdc⟩
    · rw [exists_implicit_iff ht h.below hc, hsig, @eq_comm _ sig]
      exact and_iff_right hcon

/-! ### Records with and without a static field -/

/-- The first type that a file declares. -/
def firstType? (f : SourceFile) : Option Tree :=
  f.tree.preorder.find? fun t => Kind.typeDeclarations.contains t.kind

theorem isDeclaredBy_firstType {path text : String} {c : ClassDecl} {t : Tree}
    (ht : firstType? (SourceFile.ofText path text) = some t)
    (hc : ClassDecl.ofTree? text 0 none none t = some c) :
    IsDeclaredBy (ofFiles [(path, text)]) c (SourceFile.ofText path text) t where
  file := by
    rw [ClassIndex.file_of_ofTree? hc]
    rfl
  below := List.mem_of_find?_eq_some ht
  kind := by simpa using List.find?_some ht
  reads := ⟨none, none, by rw [text_ofText, ClassIndex.file_of_ofTree? hc, hc]⟩

def pointText : String := "record P(int x)\x7b\x7d"

def pointId : (ofFiles [("P", pointText)]).index.ClassId := ⟨0, by decide +kernel⟩

def pointTree : Tree := (firstType? (.ofText "P" pointText)).get (by decide +kernel)

theorem constructors_of_point :
    IsDeclaredBy (ofFiles [("P", pointText)]) ((ofFiles [("P", pointText)]).index.decl pointId)
        (.ofText "P" pointText) pointTree ∧
      ∃ d ∈ ((ofFiles [("P", pointText)]).index.decl pointId).methods, d.isConstructor = true ∧
        d.signature = Parameter.signature
          (Parameter.ofDeclaration (SourceFile.ofText "P" pointText).text pointTree) := by
  have h : IsDeclaredBy (ofFiles [("P", pointText)])
      ((ofFiles [("P", pointText)]).index.decl pointId) (.ofText "P" pointText) pointTree :=
    isDeclaredBy_firstType (Option.some_get _).symm (by decide +kernel)
  have hnone : declaredConstructors pointTree = [] := List.isEmpty_iff.1 (by decide +kernel)
  exact ⟨h, (((constructors_of_isDeclaredBy pointId).2 _ _ h).1 (by decide +kernel)).2
    (.inr ⟨hnone, by decide +kernel, by decide +kernel⟩)⟩

def countedText : String := "record P(int x)\x7bstatic int n;\x7d"

def countedId : (ofFiles [("P", countedText)]).index.ClassId := ⟨0, by decide +kernel⟩

def countedTree : Tree := (firstType? (.ofText "P" countedText)).get (by decide +kernel)

/-- A record with a static field has no constructor for its header. -/
theorem no_constructor_of_counted :
    ¬∀ (files : List (String × String)) (c : (ofFiles files).index.ClassId) (f : SourceFile)
      (t : Tree), IsDeclaredBy (ofFiles files) ((ofFiles files).index.decl c) f t →
        ((ofFiles files).index.decl c).kind = .record →
          ∃ d ∈ ((ofFiles files).index.decl c).methods, d.isConstructor = true ∧
            d.signature = Parameter.signature (Parameter.ofDeclaration f.text t) := by
  intro hall
  have h : IsDeclaredBy (ofFiles [("P", countedText)])
      ((ofFiles [("P", countedText)]).index.decl countedId) (.ofText "P" countedText) countedTree :=
    isDeclaredBy_firstType (Option.some_get _).symm (by decide +kernel)
  obtain ⟨d, hd, hcon, hsig⟩ := hall _ countedId _ _ h (by decide +kernel)
  have hnone : (((ofFiles [("P", countedText)]).index.decl countedId).methods.all fun d =>
      !d.isConstructor || d.signature != Parameter.signature
        (Parameter.ofDeclaration (SourceFile.ofText "P" countedText).text countedTree)) = true := by
    decide +kernel
  have := List.all_eq_true.1 hnone d hd
  simp [hcon, hsig] at this

end Workspace

end InjectionPoints
