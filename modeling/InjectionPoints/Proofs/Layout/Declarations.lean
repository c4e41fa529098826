/-
Declarations and layout. Tidy nodes that correspond declare the same fields, type variables,
parameters and methods, positions apart (`TidyPair.bare_fields`, `TidyPair.typeParams_eq`,
`TidyPair.bare_parameters`, `TidyPair.bare_method?`). Beside each reader of declarations stands what
it gives without positions (`FieldDecl.bare_ofTree`, `MethodDecl.bare_ofTree?`).
-/
import InjectionPoints.Proofs.Layout.Tidy
import InjectionPoints.Proofs.Renumbering.Index

namespace InjectionPoints

open Java Text

open Java.Tree (wordKinds openKinds)

/-! ## Fields -/

theorem FieldDecl.bare_ofTree (source : String) (t : Tree) :
    (ofTree source t).map bare =
      ((t.child? .type).map (Tree.compactText source)).elim [] fun type =>
        (t.childrenIn .declarator).filterMap fun declarator =>
          ((declarator.child? .name).map (Tree.text source)).map fun name =>
            ⟨name, type ++ declarator.dimensionsText source, ⟨0, 0⟩⟩ := by
  rw [ofTree]
  cases t.child? .type with
  | none => rfl
  | some type =>
    simp only [List.map_filterMap, Option.map_map, Function.comp_def, bare, Option.map_some,
      Option.elim_some]

namespace Java.Relayout

variable {a b : String} {r : Relayout a b} {t u : Tree}

theorem Pair.dimensionsText_eq (h : r.Pair t u)
    (ht : ∀ k ∈ t.child? .dimensions, k.isPlain a = true)
    (hu : ∀ k ∈ u.child? .dimensions, k.isPlain b = true) :
    u.dimensionsText b = t.dimensionsText a :=
  congrArg (Option.getD · "") (map_compactText (h.child? .dimensions) ht hu)

theorem TidyPair.bare_fields (h : r.TidyPair t u)
    (hk : t.kind = .fieldDeclaration ∨ t.kind = .constantDeclaration) :
    (FieldDecl.ofTree b u).map FieldDecl.bare = (FieldDecl.ofTree a t).map FieldDecl.bare := by
  have hkept (x : Tree) (hx : x.kind = t.kind) : x.kept = (x.child? .type).toList ++
      (x.childrenIn .declarator).filterMap (Tree.child? .dimensions) := by
    rcases hk with hk | hk <;> rw [Tree.kept, hx, hk]
  have htype : (u.child? .type).map (Tree.compactText b) =
      (t.child? .type).map (Tree.compactText a) := by
    refine h.map_kept (fun x hx k hk => ?_) fun _ _ => h.pair.child? .type
    rw [hkept x hx]
    exact List.mem_append_left _ (Option.mem_toList.2 hk)
  have hdims {source : String} {x d : Tree} (hx : x.kind = t.kind)
      (htidy : x.isTidy source = true) (hd : d ∈ x.childrenIn .declarator) :
      ∀ k ∈ d.child? .dimensions, k.isPlain source = true := fun k hk => by
    refine isPlain_of_kept htidy k ?_
    rw [hkept x hx]
    exact List.mem_append_right _ (List.mem_filterMap.2 ⟨d, hd, hk⟩)
  rw [FieldDecl.bare_ofTree, FieldDecl.bare_ofTree, htype]
  congr 1
  funext type
  refine filterMap_eq (forall₂_with_mem (h.pair.childrenIn .declarator)) fun c d hcd => ?_
  obtain ⟨hcd, hc, hd⟩ := hcd
  have hname : c.kind ∈ namingKinds := by
    rw [kind_of_declarator r.left_eq h.pair.left_mem hc]
    decide
  rw [hcd.map_name hname,
    hcd.dimensionsText_eq (hdims rfl h.left hc) (hdims h.pair.kind_eq h.right hd)]

end Java.Relayout

/-! ## Type variables -/

theorem TypeParam.ofTree_eq (source : String) (t : Tree) :
    ofTree source t =
      (t.child? .typeParameters <|> t.named? .typeParameters).elim [] fun params =>
        (params.namedChildren.filter fun c => c.kind == .typeParameter).filterMap fun param =>
          ((param.named? .typeIdentifier <|> param.named? .identifier).map
            (Tree.text source)).map fun name =>
              ⟨name, ((param.named? .typeBound).bind fun bound => bound.namedChildren.head?).map
                (Tree.compactText source)⟩ := by
  rw [ofTree]
  cases t.child? .typeParameters <|> t.named? .typeParameters with
  | none => rfl
  | some params => simp only [Option.map_map, Function.comp_def, Option.elim_some]

namespace Java.Relayout

variable {a b : String} {r : Relayout a b} {t u : Tree}

theorem TidyPair.map_bound (h : r.TidyPair t u) (hk : t.kind ∈ openKinds) :
    ((u.named? .typeBound).bind fun bound => bound.namedChildren.head?).map (Tree.compactText b) =
      ((t.named? .typeBound).bind fun bound => bound.namedChildren.head?).map
        (Tree.compactText a) := by
  rw [Option.map_bind, Option.map_bind]
  refine bind_eq (h.named? hk (k := .typeBound) rfl) fun c hc d hcd => ?_
  have hbound : c.kind = .typeBound := Tree.kind_of_mem_named? hc
  refine hcd.map_kept (K := fun x => x.namedChildren.head?) (fun x hx k hk => ?_) fun hc hd => ?_
  · rw [Tree.kept, hx, hbound]
    exact Option.mem_toList.2 hk
  · rw [← Tree.head?_proper hc, ← Tree.head?_proper hd]
    exact head?_rel hcd.pair.namedChildren

theorem TidyPair.typeParam_name (h : r.TidyPair t u) :
    (u.named? .typeIdentifier <|> u.named? .identifier).map (Tree.text b) =
      (t.named? .typeIdentifier <|> t.named? .identifier).map (Tree.text a) := by
  refine map_text (orElse_rel (h.pair.named? rfl) (h.pair.named? rfl)) fun k hk => ?_
  rcases mem_of_mem_orElse hk with hk | hk
  all_goals
    rw [Tree.kind_of_mem_named? hk]
    decide

theorem TidyPair.typeParams_eq (h : r.TidyPair t u) (hk : t.kind ∈ openKinds) :
    TypeParam.ofTree b u = TypeParam.ofTree a t := by
  have hrel := orElse_rel (h.child? hk .typeParameters) (h.named? hk (k := .typeParameters) rfl)
  rw [TypeParam.ofTree_eq, TypeParam.ofTree_eq]
  refine elim_eq hrel fun p hp q hpq => ?_
  have hopen : p.kind ∈ openKinds := by
    rcases mem_of_mem_orElse hp with hp | hp
    · exact mem_openKinds_of_role r.left_eq h.pair.left_mem rfl hp
    · rw [Tree.kind_of_mem_named? hp]
      decide
  have hparams : List.Forall₂ r.TidyPair
      (p.namedChildren.filter fun c => c.kind == .typeParameter)
      (q.namedChildren.filter fun c => c.kind == .typeParameter) := by
    have hn (ts : List Tree) : ∀ c ∈ ts, (c.kind == .typeParameter) = true →
        c.kind.isComment = false := fun c _ hc => by rw [beq_iff_eq.1 hc]; rfl
    rw [← Tree.filter_proper (hn p.namedChildren), ← Tree.filter_proper (hn q.namedChildren)]
    exact filter_rel (hpq.namedChildren hopen) fun c d hcd => by rw [hcd.pair.kind_eq]
  refine filterMap_eq (forall₂_with_mem hparams) fun c d hcd => ?_
  obtain ⟨hcd, hc, _⟩ := hcd
  have hck : c.kind ∈ openKinds := by
    rw [show c.kind = .typeParameter by simpa using (List.mem_filter.1 hc).2]
    decide
  rw [hcd.typeParam_name, hcd.map_bound hck]

end Java.Relayout

/-! ## Parameters -/

namespace Parameter

/-- A parameter without its position. -/
def bare (p : Parameter) : Parameter := { p with field := p.field.bare }

variable (source : String) (t : Tree)

theorem bare_single? : (single? source t).map bare =
    ((t.child? .type).map (Tree.compactText source)).bind fun type =>
      ((t.child? .name).map (Tree.text source)).map fun name =>
        ⟨⟨name, type ++ t.dimensionsText source, ⟨0, 0⟩⟩, false⟩ := by
  rw [single?]
  cases t.child? .type <;> cases t.child? .name <;> rfl

/-- The type of a parameter that takes any number of arguments. -/
def spreadType? : Option Tree :=
  t.namedChildren.find? fun c => c.kind != .modifiers && c.kind != .variableDeclarator

theorem bare_spread? : (spread? source t).map bare =
    ((spreadType? t).map (Tree.compactText source)).bind fun type =>
      (((t.named? .variableDeclarator).bind (Tree.child? .name)).map (Tree.text source)).map
        fun name => ⟨⟨name, type ++ "[]", ⟨0, 0⟩⟩, true⟩ := by
  rw [spread?, spreadType?]
  cases t.namedChildren.find? fun c => c.kind != .modifiers && c.kind != .variableDeclarator with
  | none => rfl
  | some type => cases (t.named? .variableDeclarator).bind (Tree.child? .name) <;> rfl

/-- A comment is no parameter. -/
theorem ofTree_proper (params : Tree) :
    ((Tree.proper params.namedChildren).filterMap fun t =>
      match t.kind with
      | .formalParameter => single? source t
      | .spreadParameter => spread? source t
      | _ => none) = ofTree source params := by
  refine Tree.filterMap_proper fun c _ hc => ?_
  split <;> simp_all [Kind.isComment]

theorem bare_ofDeclaration : (ofDeclaration source t).map bare =
    (t.child? .parameters).elim [] fun params => (ofTree source params).map bare := by
  rw [ofDeclaration]
  cases t.child? .parameters <;> rfl

end Parameter

namespace Java.Relayout

variable {a b : String} {r : Relayout a b} {t u : Tree}

/-- What is kept of a declaration with one type and dimensions. -/
theorem TidyPair.type_and_dimensions (h : r.TidyPair t u)
    (hk : t.kind = .methodDeclaration ∨ t.kind = .formalParameter) :
    (u.child? .type).map (Tree.compactText b) = (t.child? .type).map (Tree.compactText a) ∧
      u.dimensionsText b = t.dimensionsText a := by
  have hkept (x : Tree) (hx : x.kind = t.kind) :
      x.kept = (x.child? .type).toList ++ (x.child? .dimensions).toList := by
    rcases hk with hk | hk <;> rw [Tree.kept, hx, hk]
  have hdims : (u.child? .dimensions).map (Tree.compactText b) =
      (t.child? .dimensions).map (Tree.compactText a) := by
    refine h.map_kept (fun x hx k hk => ?_) fun _ _ => h.pair.child? .dimensions
    rw [hkept x hx]
    exact List.mem_append_right _ (Option.mem_toList.2 hk)
  refine ⟨h.map_kept (fun x hx k hk => ?_) fun _ _ => h.pair.child? .type,
    congrArg (Option.getD · "") hdims⟩
  rw [hkept x hx]
  exact List.mem_append_left _ (Option.mem_toList.2 hk)

theorem TidyPair.bare_single? (h : r.TidyPair t u) (hk : t.kind = .formalParameter) :
    (Parameter.single? b u).map Parameter.bare = (Parameter.single? a t).map Parameter.bare := by
  obtain ⟨htype, hdims⟩ := h.type_and_dimensions (.inr hk)
  have hname := h.pair.map_name (by rw [hk]; decide)
  rw [Parameter.bare_single?, Parameter.bare_single?, htype, hdims, hname]

theorem TidyPair.bare_spread? (h : r.TidyPair t u) (hk : t.kind = .spreadParameter) :
    (Parameter.spread? b u).map Parameter.bare = (Parameter.spread? a t).map Parameter.bare := by
  have htype : (Parameter.spreadType? u).map (Tree.compactText b) =
      (Parameter.spreadType? t).map (Tree.compactText a) := by
    refine h.map_kept (fun x hx k hkx => ?_) fun ht hu => ?_
    · rw [Tree.kept, hx, hk]
      exact Option.mem_toList.2 hkx
    · rw [Parameter.spreadType?] at ht hu
      rw [Parameter.spreadType?, Parameter.spreadType?, ← Tree.find?_proper_of_find? ht,
        ← Tree.find?_proper_of_find? hu]
      exact find?_rel h.pair.namedChildren fun c d hcd => by rw [hcd.kind_eq]
  have hname : ((u.named? .variableDeclarator).bind (Tree.child? .name)).map (Tree.text b) =
      ((t.named? .variableDeclarator).bind (Tree.child? .name)).map (Tree.text a) := by
    rw [Option.map_bind, Option.map_bind]
    refine bind_eq (h.pair.named? (k := .variableDeclarator) rfl) fun c hc d hcd => ?_
    exact hcd.map_name (by rw [Tree.kind_of_mem_named? hc]; decide)
  rw [Parameter.bare_spread?, Parameter.bare_spread?, htype, hname]

theorem TidyPair.bare_parameters (h : r.TidyPair t u) (hk : t.kind ∈ openKinds) :
    (Parameter.ofTree b u).map Parameter.bare = (Parameter.ofTree a t).map Parameter.bare := by
  rw [← Parameter.ofTree_proper, ← Parameter.ofTree_proper, List.map_filterMap, List.map_filterMap]
  refine filterMap_eq (h.namedChildren hk) fun c d hcd => ?_
  rw [hcd.pair.kind_eq]
  split
  · exact hcd.bare_single? ‹_›
  · exact hcd.bare_spread? ‹_›
  · rfl

theorem TidyPair.bare_ofDeclaration (h : r.TidyPair t u) (hk : t.kind ∈ openKinds)
    (hn : t.kind ∈ namingKinds) :
    (Parameter.ofDeclaration b u).map Parameter.bare =
      (Parameter.ofDeclaration a t).map Parameter.bare := by
  rw [Parameter.bare_ofDeclaration, Parameter.bare_ofDeclaration]
  refine elim_eq (h.child? hk .parameters) fun p hp q hpq => hpq.bare_parameters ?_
  exact mem_openKinds_of_role r.left_eq h.pair.left_mem (f := .parameters)
    (List.contains_iff_mem.2 hn) hp

end Java.Relayout

/-! ## Methods -/

/-- The type that a method returns, as it is kept; none for a constructor. -/
def MethodDecl.returnType? (source : String) (t : Tree) : Option (Option String) :=
  if t.kind = .constructorDeclaration then some none
  else ((t.child? .type).map (Tree.compactText source)).map fun type =>
    some (type ++ t.dimensionsText source)

theorem MethodDecl.bare_ofTree? (source : String) (t : Tree) :
    (ofTree? source t).map bare =
      ((t.child? .name).map (Tree.text source)).bind fun name =>
        (returnType? source t).map fun returnType =>
          let params := (Parameter.ofDeclaration source t).map Parameter.bare
          { name := if t.kind = .constructorDeclaration then constructorName else name
            typeParams := TypeParam.ofTree source t
            params := params.map fun p => p.field.type
            varargs := params.getLast?.any Parameter.varargs
            returnType
            nameSpan := ⟨0, 0⟩
            declSpan := ⟨0, 0⟩
            hasBody := (t.child? .body).isSome
            implicit := false } := by
  simp only [List.map_map, List.getLast?_map, Option.any_map, Function.comp_def, Parameter.bare,
    FieldDecl.bare]
  unfold ofTree? returnType?
  cases t.child? .name with
  | none => rfl
  | some name =>
    by_cases hk : t.kind = .constructorDeclaration
    · simp [hk, bare]
    · cases t.child? .type <;> simp [hk, bare]

namespace Java.Relayout

variable {a b : String} {r : Relayout a b} {t u : Tree}

theorem TidyPair.returnType?_eq (h : r.TidyPair t u)
    (hk : t.kind = .methodDeclaration ∨ t.kind = .constructorDeclaration) :
    MethodDecl.returnType? b u = MethodDecl.returnType? a t := by
  rw [MethodDecl.returnType?, MethodDecl.returnType?, h.pair.kind_eq]
  rcases hk with hk | hk
  · obtain ⟨htype, hdims⟩ := h.type_and_dimensions (.inl hk)
    rw [htype, hdims]
  · rw [if_pos hk, if_pos hk]

theorem TidyPair.bare_method? (h : r.TidyPair t u)
    (hk : t.kind = .methodDeclaration ∨ t.kind = .constructorDeclaration) :
    (MethodDecl.ofTree? b u).map MethodDecl.bare =
      (MethodDecl.ofTree? a t).map MethodDecl.bare := by
  have hopen : t.kind ∈ openKinds := by rcases hk with hk | hk <;> rw [hk] <;> decide
  have hnaming : t.kind ∈ namingKinds := by rcases hk with hk | hk <;> rw [hk] <;> decide
  rw [MethodDecl.bare_ofTree?, MethodDecl.bare_ofTree?, h.pair.map_name hnaming,
    h.returnType?_eq hk, h.typeParams_eq hopen, h.bare_ofDeclaration hopen hnaming,
    isSome_eq_of_rel (h.pair.child? .body), h.pair.kind_eq]

end Java.Relayout

end InjectionPoints
