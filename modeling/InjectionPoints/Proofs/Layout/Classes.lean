/-
Classes and layout. Declarations of types that correspond in two tidy trees give the same class,
positions apart, if they have the same surroundings (`TidyPair.bare_class?`), and they add the same
classes to an index (`bare_addType`).
-/
import InjectionPoints.ClassIndex.Build
import InjectionPoints.Proofs.Layout.Declarations

namespace InjectionPoints

open Java Text

open Java.Tree (openKinds)

/-! ## Members -/

theorem beq_eq_false_of_isComment {k k' : Kind} (hk : k.isComment = true)
    (hk' : k'.isComment = false) : (k == k') = false := by
  rw [beq_eq_false_iff_ne]
  rintro rfl
  simp [hk] at hk'

theorem Java.Tree.proper_members (body : Tree) :
    Tree.proper body.members = (Tree.proper body.namedChildren).flatMap fun c =>
      if c.kind == .enumBodyDeclarations then Tree.proper c.namedChildren else [c] := by
  rw [members, proper, List.filter_flatMap, ← flatMap_proper]
  · refine List.flatMap_congr fun c hc => ?_
    have hc : c.kind.isComment = false := by simpa using (List.mem_filter.1 hc).2
    split
    · rfl
    · rw [List.filter_singleton, hc]
      rfl
  · intro c _ hc
    rw [beq_eq_false_of_isComment hc rfl]
    simp [hc]

theorem Java.Tree.interfaceTexts_eq (source : String) (t : Tree) :
    t.interfaceTexts source =
      (t.child? .interfaces <|> t.named? .superInterfaces <|> t.named? .extendsInterfaces).elim []
        fun clause => (clause.named? .typeList).elim [] fun types =>
          types.namedChildren.map (Tree.compactText source) := by
  rw [interfaceTexts]
  cases t.child? .interfaces <|> t.named? .superInterfaces <|> t.named? .extendsInterfaces with
  | none => rfl
  | some clause => cases h : clause.named? .typeList <;> simp [h]

namespace ClassDecl

/-- The members of a class. -/
def membersOf (t : Tree) : List Tree := ((t.child? .body).map Tree.members).getD []

/-- The fields that a declaration gives to its class: those of a record are its components, too. -/
def fieldsOf (source : String) (t : Tree) : List FieldDecl :=
  (if ClassKind.ofKind t.kind = .record then (Parameter.ofDeclaration source t).map (·.field)
    else []) ++
  (membersOf t).flatMap fun m =>
    if m.kind == .fieldDeclaration || m.kind == .constantDeclaration then
      FieldDecl.ofTree source m
    else []

/-- The methods and constructors in the text of a declaration. -/
def methodsOf (source : String) (t : Tree) : List MethodDecl :=
  (membersOf t).filterMap fun m =>
    if m.kind == .methodDeclaration || m.kind == .constructorDeclaration then
      MethodDecl.ofTree? source m
    else none

/-- The constructor that a class has without declaring it. -/
def implicitly (kind : ClassKind) (nameSpan : Span) (fields : List FieldDecl)
    (methods : List MethodDecl) : List MethodDecl :=
  if kind.isConstructed && !methods.any MethodDecl.isConstructor then
    [.implicitConstructor nameSpan (if kind = .record then fields.map (·.type) else [])]
  else []

theorem bare_implicitly (kind : ClassKind) (nameSpan : Span) (fields : List FieldDecl)
    (methods : List MethodDecl) :
    (implicitly kind nameSpan fields methods).map MethodDecl.bare =
      implicitly kind ⟨0, 0⟩ (fields.map FieldDecl.bare) (methods.map MethodDecl.bare) := by
  have hany : (methods.map MethodDecl.bare).any MethodDecl.isConstructor =
      methods.any MethodDecl.isConstructor := List.any_map
  have htypes : (fields.map FieldDecl.bare).map (·.type) = fields.map (·.type) := List.map_map
  rw [implicitly, implicitly, hany, htypes]
  split <;> rfl

/-- The classes around a class, without positions. -/
def bareAround (outer : Option (Nat × ClassDecl)) : Option (Nat × ClassDecl) :=
  outer.map (Prod.map id bare)

theorem bare_ofTree? (source : String) (file : FileId) (package : Option String)
    (outer : Option (Nat × ClassDecl)) (t : Tree) :
    (ofTree? source file package outer t).map bare =
      ((t.child? .name).map (Tree.text source)).map fun name =>
        { file, name
          sourceName := match bareAround outer with
            | some (_, around) => around.sourceName ++ "." ++ name
            | none => (package.map (· ++ ".")).getD "" ++ name
          binaryName := match bareAround outer with
            | some (_, around) => around.binaryName ++ "$" ++ name
            | none => (package.map (· ++ ".")).getD "" ++ name
          kind := ClassKind.ofKind t.kind
          nameSpan := ⟨0, 0⟩
          outer := (bareAround outer).map Prod.fst
          typeParams := TypeParam.ofTree source t
          superclass := ((t.child? .superclass).bind fun clause => clause.namedChildren.head?).map
            (Tree.compactText source)
          interfaces := t.interfaceTexts source
          fields := (fieldsOf source t).map FieldDecl.bare
          methods := (methodsOf source t).map MethodDecl.bare ++
            implicitly (ClassKind.ofKind t.kind) ⟨0, 0⟩ ((fieldsOf source t).map FieldDecl.bare)
              ((methodsOf source t).map MethodDecl.bare) } := by
  unfold ofTree?
  cases t.child? .name with
  | none => rfl
  | some nameNode =>
    rw [← bare_implicitly _ nameNode.span, ← List.map_append]
    cases outer <;> rfl

end ClassDecl

namespace Java.Relayout

variable {a b : String} {r : Relayout a b} {t u : Tree}

/-! ## Classes -/

theorem TidyPair.members (h : r.TidyPair t u) (hk : t.kind ∈ openKinds) :
    List.Forall₂ r.TidyPair (Tree.proper t.members) (Tree.proper u.members) := by
  rw [Tree.proper_members, Tree.proper_members]
  refine List.rel_flatMap (h.namedChildren hk) fun c d hcd => ?_
  rw [hcd.pair.kind_eq]
  split
  · rename_i hc
    exact hcd.namedChildren (by rw [beq_iff_eq.1 hc]; decide)
  · exact .cons hcd .nil

theorem TidyPair.map_types (h : r.TidyPair t u) (hk : t.kind = .typeList) :
    u.namedChildren.map (Tree.compactText b) = t.namedChildren.map (Tree.compactText a) := by
  have hplain {source : String} {x : Tree} (hx : x.kind = .typeList)
      (htidy : x.isTidy source = true) : ∀ k ∈ x.namedChildren, k.isPlain source = true :=
    fun k hk => isPlain_of_kept htidy k (by rwa [Tree.kept, hx])
  have hta := hplain hk h.left
  have hub := hplain (h.pair.kind_eq.trans hk) h.right
  have hproper {source : String} {cs : List Tree} (hcs : ∀ k ∈ cs, k.isPlain source = true) :
      Tree.proper cs = cs :=
    List.filter_eq_self.2 fun k hk => by rw [isComment_of_isPlain (hcs k hk)]; rfl
  have htypes := h.pair.namedChildren
  rw [hproper hta, hproper hub] at htypes
  rw [← List.forall₂_eq_eq_eq, List.forall₂_map_left_iff, List.forall₂_map_right_iff]
  exact (forall₂_with_mem htypes).flip.imp fun y x hxy =>
    hxy.1.compactText_eq (hta x hxy.2.1) (hub y hxy.2.2)

variable (h : r.TidyPair t u) (hk : t.kind ∈ Kind.typeDeclarations)

include h hk

theorem TidyPair.membersOf : List.Forall₂ r.TidyPair (Tree.proper (ClassDecl.membersOf t))
    (Tree.proper (ClassDecl.membersOf u)) := by
  have hrel := h.child? (mem_openKinds_of_type hk) .body
  have hopen : ∀ c ∈ t.child? .body, c.kind ∈ openKinds := fun c hc =>
    mem_openKinds_of_role r.left_eq h.pair.left_mem (f := .body) (List.contains_iff_mem.2 hk) hc
  rw [ClassDecl.membersOf, ClassDecl.membersOf]
  generalize t.child? .body = x, u.child? .body = y at hrel hopen
  cases hrel with
  | none => exact .nil
  | @some c d hcd => exact hcd.members (hopen c rfl)

theorem TidyPair.bare_fieldsOf : (ClassDecl.fieldsOf b u).map FieldDecl.bare =
    (ClassDecl.fieldsOf a t).map FieldDecl.bare := by
  have hcomponents : ((Parameter.ofDeclaration b u).map (·.field)).map FieldDecl.bare =
      ((Parameter.ofDeclaration a t).map (·.field)).map FieldDecl.bare := by
    have hparams := h.bare_ofDeclaration (mem_openKinds_of_type hk) (mem_namingKinds_of_type hk)
    simpa only [List.map_map, Function.comp_def, Parameter.bare] using
      congrArg (List.map fun p => p.field) hparams
  have hcomment (source : String) (cs : List Tree) : ∀ c ∈ cs, c.kind.isComment = true →
      (if c.kind == .fieldDeclaration || c.kind == .constantDeclaration then
        FieldDecl.ofTree source c else []).map FieldDecl.bare = [] := fun c _ hc => by
    rw [beq_eq_false_of_isComment hc rfl, beq_eq_false_of_isComment hc rfl]
    rfl
  rw [ClassDecl.fieldsOf, ClassDecl.fieldsOf, List.map_append, List.map_append, h.pair.kind_eq,
    List.map_flatMap, List.map_flatMap, ← Tree.flatMap_proper (hcomment b _),
    ← Tree.flatMap_proper (hcomment a _)]
  congr 1
  · split
    · exact hcomponents
    · rfl
  · refine flatMap_eq (h.membersOf hk) fun c d hcd => ?_
    rw [hcd.pair.kind_eq]
    split
    · rename_i hc
      exact hcd.bare_fields (by simpa using hc)
    · rfl

theorem TidyPair.bare_methodsOf : (ClassDecl.methodsOf b u).map MethodDecl.bare =
    (ClassDecl.methodsOf a t).map MethodDecl.bare := by
  have hcomment (source : String) (cs : List Tree) : ∀ c ∈ cs, c.kind.isComment = true →
      (if c.kind == .methodDeclaration || c.kind == .constructorDeclaration then
        MethodDecl.ofTree? source c else none) = none := fun c _ hc => by
    rw [beq_eq_false_of_isComment hc rfl, beq_eq_false_of_isComment hc rfl]
    rfl
  rw [ClassDecl.methodsOf, ClassDecl.methodsOf, ← Tree.filterMap_proper (hcomment b _),
    ← Tree.filterMap_proper (hcomment a _), List.map_filterMap, List.map_filterMap]
  refine filterMap_eq (h.membersOf hk) fun c d hcd => ?_
  rw [hcd.pair.kind_eq]
  split
  · rename_i hc
    exact hcd.bare_method? (by simpa using hc)
  · rfl

theorem TidyPair.superclass_eq :
    ((u.child? .superclass).bind fun clause => clause.namedChildren.head?).map
        (Tree.compactText b) =
      ((t.child? .superclass).bind fun clause => clause.namedChildren.head?).map
        (Tree.compactText a) := by
  refine h.map_kept (K := fun x => (x.child? .superclass).bind fun clause =>
    clause.namedChildren.head?) (fun x hx k hkx => ?_) fun ht hu => ?_
  · have hkept : x.kept = ((x.child? .superclass).bind fun clause =>
        clause.namedChildren.head?).toList := by
      rw [← hx] at hk
      simp only [Kind.typeDeclarations, List.mem_cons, List.not_mem_nil, or_false] at hk
      rcases hk with hk | hk | hk | hk | hk <;> rw [Tree.kept, hk]
    rw [hkept]
    exact Option.mem_toList.2 hkx
  · have hrel := h.pair.child? .superclass
    generalize t.child? .superclass = x, u.child? .superclass = y at hrel ht hu
    cases hrel with
    | none => exact .none
    | @some c d hcd =>
      rw [Option.bind_some] at ht hu
      rw [Option.bind_some, Option.bind_some, ← Tree.head?_proper ht, ← Tree.head?_proper hu]
      exact head?_rel hcd.namedChildren

theorem TidyPair.interfaces_eq : u.interfaceTexts b = t.interfaceTexts a := by
  have hopen := mem_openKinds_of_type hk
  have hrel := orElse_rel (h.child? hopen .interfaces)
    (orElse_rel (h.named? hopen (k := .superInterfaces) rfl)
      (h.named? hopen (k := .extendsInterfaces) rfl))
  rw [Tree.interfaceTexts_eq, Tree.interfaceTexts_eq]
  refine elim_eq hrel fun c hc d hcd => ?_
  have hclause : c.kind ∈ openKinds := by
    rcases mem_of_mem_orElse hc with hc | hc
    · exact mem_openKinds_of_role r.left_eq h.pair.left_mem rfl hc
    · rcases mem_of_mem_orElse hc with hc | hc
      all_goals
        rw [Tree.kind_of_mem_named? hc]
        decide
  exact elim_eq (hcd.named? hclause (k := .typeList) rfl) fun types htypes _ htu =>
    htu.map_types (Tree.kind_of_mem_named? htypes)

theorem TidyPair.bare_class? {file : FileId} {package : Option String}
    {outer outer' : Option (Nat × ClassDecl)}
    (ho : ClassDecl.bareAround outer' = ClassDecl.bareAround outer) :
    (ClassDecl.ofTree? b file package outer' u).map ClassDecl.bare =
      (ClassDecl.ofTree? a file package outer t).map ClassDecl.bare := by
  rw [ClassDecl.bare_ofTree?, ClassDecl.bare_ofTree?, ho,
    h.pair.map_name (mem_namingKinds_of_type hk), h.pair.kind_eq,
    h.typeParams_eq (mem_openKinds_of_type hk), h.superclass_eq hk, h.interfaces_eq hk,
    h.bare_fieldsOf hk, h.bare_methodsOf hk]

end Java.Relayout

/-! ## Adding classes -/

namespace ClassIndex

open Java.Relayout

section Comments

variable {source : String} {file : FileId} {package : Option String}
  {outer : Option (Nat × ClassDecl)} {classes : List ClassDecl} {ts : List Tree}

theorem addBody_proper (h : ∀ c ∈ ts, c.field = some .body → c.kind.isComment = false) :
    addBody source file package outer classes (Tree.proper ts) =
      addBody source file package outer classes ts := by
  induction ts with
  | nil => rfl
  | cons t ts ih =>
    obtain ⟨k, f, s, cs⟩ := t
    have hrest := ih fun c hc => h c (List.mem_cons_of_mem _ hc)
    rw [Tree.proper, List.filter_cons, addBody]
    by_cases hf : f = some .body
    · rw [if_pos hf, h _ List.mem_cons_self hf]
      simp [addBody, hf]
    · rw [if_neg hf]
      split
      · rw [addBody, if_neg hf]
        exact hrest
      · exact hrest

theorem addMembers_cons_comment {t : Tree} (h : t.kind.isComment = true) :
    addMembers source file package outer classes (t :: ts) =
      addMembers source file package outer classes ts := by
  obtain ⟨k, f, s, cs⟩ := t
  have hk : k ≠ .enumBodyDeclarations := beq_eq_false_iff_ne.1 (beq_eq_false_of_isComment h rfl)
  have ht : ¬Kind.typeDeclarations.contains k = true := not_type_of_isComment h
  rw [addMembers, if_neg hk, if_neg ht]

theorem addMembers_proper : addMembers source file package outer classes (Tree.proper ts) =
    addMembers source file package outer classes ts := by
  induction ts generalizing classes with
  | nil => rfl
  | cons t ts ih =>
    rw [Tree.proper, List.filter_cons]
    cases hk : t.kind.isComment with
    | true =>
      rw [addMembers_cons_comment hk]
      exact ih
    | false =>
      obtain ⟨k, f, s, cs⟩ := t
      rw [Bool.not_false, if_pos rfl, addMembers, addMembers]
      exact ih

end Comments

section Relaid

variable {a b : String} {r : Relayout a b} {file : FileId} {package : Option String}

-- The recursion is on the first tree with its comments. The nodes of the second tree go along
-- without comments, which add nothing (`addBody_proper`, `addMembers_proper`).
mutual

/-- Declarations that correspond add the same classes. -/
theorem bare_addType {outer outer' : Option (Nat × ClassDecl)} {classes classes' : List ClassDecl}
    (ho : ClassDecl.bareAround outer' = ClassDecl.bareAround outer)
    (hc : classes'.map ClassDecl.bare = classes.map ClassDecl.bare) (t u : Tree)
    (h : r.TidyPair t u) (hk : t.kind ∈ Kind.typeDeclarations) :
    (addType b file package outer' classes' u).map ClassDecl.bare =
      (addType a file package outer classes t).map ClassDecl.bare := by
  match t, u with
  | .node k f s ts, .node k' f' s' us =>
    have hkk : k' = k := h.pair.kind_eq
    have hopen := mem_openKinds_of_type hk
    have hclass : (ClassDecl.ofTree? b file package outer' (.node k' f' s' us)).map ClassDecl.bare =
        (ClassDecl.ofTree? a file package outer (.node k f s ts)).map ClassDecl.bare :=
      h.bare_class? hk ho
    rw [addType, addType]
    generalize ClassDecl.ofTree? a file package outer (.node k f s ts) = x,
      ClassDecl.ofTree? b file package outer' (.node k' f' s' us) = y at hclass
    match x, y, hclass with
    | none, none, _ => exact hc
    | some c, some c', hclass =>
      have hbare : c'.bare = c.bare := Option.some.inj hclass
      have hlen : classes'.length = classes.length := by simpa using congrArg List.length hc
      have hbody : ∀ c ∈ ts, c.field = some .body → c.kind ∈ openKinds := fun c hm hf => by
        have hchild := (child_rolesStandRight r.left_eq h.pair.left_mem hm hf).2
        exact hchild (List.contains_iff_mem.2 hk)
      have hbody' : ∀ c ∈ us, c.field = some .body → c.kind.isComment = false := fun c hm hf =>
        Tree.not_comment_of_role r.right_eq h.pair.right_mem hm hf
      show (addBody b file package (some (classes'.length, c')) (classes' ++ [c']) us).map
          ClassDecl.bare =
        (addBody a file package (some (classes.length, c)) (classes ++ [c]) ts).map ClassDecl.bare
      rw [← addBody_proper hbody']
      refine bare_addBody ?_ ?_ ts _ (h.children hopen) hbody
      · rw [ClassDecl.bareAround, ClassDecl.bareAround, Option.map_some, Option.map_some,
          Prod.map_apply, Prod.map_apply, hlen, hbare]
      · rw [List.map_append, List.map_append, hc, List.map_singleton, List.map_singleton, hbare]

theorem bare_addBody {outer outer' : Option (Nat × ClassDecl)} {classes classes' : List ClassDecl}
    (ho : ClassDecl.bareAround outer' = ClassDecl.bareAround outer)
    (hc : classes'.map ClassDecl.bare = classes.map ClassDecl.bare) (ts us : List Tree)
    (h : List.Forall₂ r.TidyPair (Tree.proper ts) us)
    (hbody : ∀ c ∈ ts, c.field = some .body → c.kind ∈ openKinds) :
    (addBody b file package outer' classes' us).map ClassDecl.bare =
      (addBody a file package outer classes ts).map ClassDecl.bare := by
  match ts with
  | [] =>
    cases h
    exact hc
  | .node k f s cs :: ts =>
    have hrest : ∀ c ∈ ts, c.field = some .body → c.kind ∈ openKinds := fun c hm =>
      hbody c (List.mem_cons_of_mem _ hm)
    by_cases hf : f = some .body
    · -- a body is no comment, so the second list begins with one, too
      have hopen : k ∈ openKinds := hbody _ List.mem_cons_self hf
      rw [Tree.proper, List.filter_cons, Tree.kind_node, isComment_of_mem_openKinds hopen] at h
      cases h with
      | @cons _ u _ us htu _ =>
        obtain ⟨k', f', s', ds⟩ := u
        have hff : f' = f := htu.pair.field_eq
        rw [addBody, addBody, if_pos hf, if_pos (hff.trans hf), ← addMembers_proper]
        exact bare_addMembers ho hc cs _ (htu.children hopen)
    · rw [addBody, if_neg hf]
      rw [Tree.proper, List.filter_cons] at h
      split at h
      · cases h with
        | @cons _ u _ us htu hus =>
          obtain ⟨k', f', s', ds⟩ := u
          have hff : f' = f := htu.pair.field_eq
          rw [addBody, if_neg (by rwa [hff])]
          exact bare_addBody ho hc ts us hus hrest
      · exact bare_addBody ho hc ts us h hrest

theorem bare_addMembers {outer outer' : Option (Nat × ClassDecl)}
    {classes classes' : List ClassDecl}
    (ho : ClassDecl.bareAround outer' = ClassDecl.bareAround outer)
    (hc : classes'.map ClassDecl.bare = classes.map ClassDecl.bare) (ts us : List Tree)
    (h : List.Forall₂ r.TidyPair (Tree.proper ts) us) :
    (addMembers b file package outer' classes' us).map ClassDecl.bare =
      (addMembers a file package outer classes ts).map ClassDecl.bare := by
  match ts with
  | [] =>
    cases h
    exact hc
  | .node k f s cs :: ts =>
    cases hk : k.isComment with
    | true =>
      rw [Tree.proper, List.filter_cons, Tree.kind_node, hk] at h
      rw [addMembers_cons_comment (t := .node k f s cs) hk]
      exact bare_addMembers ho hc ts us h
    | false =>
      rw [Tree.proper, List.filter_cons, Tree.kind_node, hk] at h
      cases h with
      | @cons _ u _ us htu hrest =>
        obtain ⟨k', f', s', ds⟩ := u
        have hkk : k' = k := htu.pair.kind_eq
        subst hkk
        rw [addMembers, addMembers]
        refine bare_addMembers ho ?_ ts us hrest
        split
        · rename_i he
          have hopen : k' ∈ openKinds := by rw [he]; decide
          have hchildren := htu.children hopen
          rw [← addMembers_proper]
          exact bare_addMembers ho hc cs _ hchildren
        · split
          · rename_i ht
            exact bare_addType ho hc (.node k' f s cs) (.node k' f' s' ds) htu
              (List.contains_iff_mem.1 ht)
          · exact hc

end

/-- Nodes at the top of two files that correspond add the same classes. -/
theorem bare_addTypes {classes classes' : List ClassDecl} {ts us : List Tree}
    (hc : classes'.map ClassDecl.bare = classes.map ClassDecl.bare)
    (h : List.Forall₂ r.TidyPair (Tree.proper ts) (Tree.proper us)) :
    (addTypes b file package classes' us).map ClassDecl.bare =
      (addTypes a file package classes ts).map ClassDecl.bare := by
  let add (source : String) (classes : List ClassDecl) (t : Tree) : List ClassDecl :=
    if Kind.typeDeclarations.contains t.kind then addType source file package none classes t
    else classes
  have hcomment (source : String) : ∀ classes c, c.kind.isComment = true →
      add source classes c = classes := fun _ _ hc => if_neg (not_type_of_isComment hc)
  show (us.foldl (add b) classes').map ClassDecl.bare =
    (ts.foldl (add a) classes).map ClassDecl.bare
  rw [← Tree.foldl_proper (hcomment a), ← Tree.foldl_proper (hcomment b)]
  let same (cs ds : List ClassDecl) : Prop := ds.map ClassDecl.bare = cs.map ClassDecl.bare
  refine List.rel_foldl (P := same) (fun cs ds hcs c d hcd => ?_) hc h
  show (add b ds d).map ClassDecl.bare = (add a cs c).map ClassDecl.bare
  simp only [add, hcd.pair.kind_eq]
  split
  · exact bare_addType rfl hcs c d hcd (List.contains_iff_mem.1 ‹_›)
  · exact hcs

end Relaid

end ClassIndex

end InjectionPoints
