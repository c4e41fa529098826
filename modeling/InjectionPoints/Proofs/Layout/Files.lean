/-
Files and layout. The trees of two texts with the same code, both of them tidy, have the same scope
(`Tidy.scope_eq`) and, positions apart, the same classes (`Tidy.bare_classesOf`). So files in two
layouts make indexes that are alike (`alike_ofFiles`), in which the same numbers mean the same
(`Alike.renumbering`). Untidy texts differ: the name of a package is kept with its white space.
-/
import InjectionPoints.Proofs.Layout.Classes
import InjectionPoints.Proofs.Renumbering.Files

namespace InjectionPoints

open Java Text

open Java.Tree (openKinds)

/-! ## Scopes -/

namespace Java.Relayout

variable {a b : String} {r : Relayout a b} {t u : Tree}

theorem Pair.nameNode? (h : r.Pair t u) :
    Option.Rel r.Pair (FileScope.nameNode? t) (FileScope.nameNode? u) :=
  orElse_rel (h.named? rfl) (h.named? rfl)

theorem Pair.isStatic_eq (h : r.Pair t u) :
    (u.children.any fun c => c.kind == .token "static") =
      t.children.any fun c => c.kind == .token "static" := by
  have hcomment (cs : List Tree) : ∀ c ∈ cs, (c.kind == .token "static") = true →
      c.kind.isComment = false := fun c _ hc => by rw [beq_iff_eq.1 hc]; rfl
  rw [← List.isSome_find?, ← List.isSome_find?, ← Tree.find?_proper (hcomment t.children),
    ← Tree.find?_proper (hcomment u.children)]
  exact isSome_eq_of_rel (find?_rel h.children fun c d hcd => by rw [hcd.kind_eq])

theorem TidyPair.scope_addImport (h : r.TidyPair t u) (hk : t.kind = .importDeclaration)
    (scope : FileScope) : scope.addImport b u = scope.addImport a t := by
  have hname : (FileScope.nameNode? u).map (Tree.compactText b) =
      (FileScope.nameNode? t).map (Tree.compactText a) := by
    refine h.map_kept (fun x hx k hkx => ?_) fun _ _ => h.pair.nameNode?
    rw [Tree.kept, hx, hk]
    exact Option.mem_toList.2 hkx
  have hall := isSome_eq_of_rel (h.pair.named? (k := .asterisk) rfl)
  rw [FileScope.addImport, FileScope.addImport, h.pair.isStatic_eq, hall]
  generalize FileScope.nameNode? t = x, FileScope.nameNode? u = y at hname
  cases y with
  | none =>
    cases x with
    | none => rfl
    | some c => cases hname
  | some d =>
    cases x with
    | none => cases hname
    | some c =>
      have hcd : d.compactText b = c.compactText a := Option.some.inj hname
      simp only [hcd]

theorem TidyPair.package_eq (h : r.TidyPair t u) (hk : t.kind = .packageDeclaration) :
    (FileScope.nameNode? u).map (Tree.text b) = (FileScope.nameNode? t).map (Tree.text a) := by
  have htight {source : String} {x : Tree} (hx : x.isTidy source = true)
      (hk : x.kind = .packageDeclaration) :
      ∀ c ∈ FileScope.nameNode? x, c.isTight source = true := by
    have hnode := (Tree.isTidy_iff.1 hx).1
    rw [Tree.isTidyNode, hk, Bool.and_eq_true] at hnode
    simpa [Option.all_eq_true] using hnode.2
  have hta := htight h.left hk
  have hub := htight h.right (h.pair.kind_eq.trans hk)
  have hrel := h.pair.nameNode?
  generalize FileScope.nameNode? t = x, FileScope.nameNode? u = y at hrel hta hub
  cases hrel with
  | none => rfl
  | some hcd => exact congrArg some (hcd.text_eq_of_isTight (hta _ rfl) (hub _ rfl))

theorem TidyPair.scope_add (h : r.TidyPair t u) (scope : FileScope) :
    scope.add b u = scope.add a t := by
  rw [FileScope.add, FileScope.add, h.pair.kind_eq]
  split
  · rw [h.package_eq ‹_›]
  · exact h.scope_addImport ‹_› scope
  · rfl

/-! ## Files -/

variable (r)

/-- Both trees are tidy. -/
structure Tidy : Prop where
  left : r.left.isTidy a = true
  right : r.right.isTidy b = true

variable {r}

theorem Tidy.pairs (h : r.Tidy) :
    List.Forall₂ r.TidyPair (Tree.proper r.left.children) (Tree.proper r.right.children) := by
  have hopen {source : String} {t : Tree} (ht : Tree.ofText? source = some t) :
      t.kind ∈ openKinds := by
    rw [Tree.kind_of_ofText? ht]
    decide
  refine (forall₂_with_mem r.pairs).imp fun c d hcd => ⟨hcd.1, ?_, ?_⟩
  · exact (Tree.isTidy_iff.1 h.left).2 (hopen r.left_eq) c (List.mem_of_mem_filter hcd.2.1)
  · exact (Tree.isTidy_iff.1 h.right).2 (hopen r.right_eq) d (List.mem_of_mem_filter hcd.2.2)

theorem Tidy.scope_eq (h : r.Tidy) :
    FileScope.ofTree b r.right = FileScope.ofTree a r.left := by
  have hcomment (source : String) : ∀ scope c, c.kind.isComment = true →
      FileScope.add source scope c = scope := fun scope c hc => by
    rw [FileScope.add]
    split <;> simp_all [Kind.isComment]
  have hpairs := Pair.namedChildren_of (fun _ _ h => h.pair) h.pairs
  rw [FileScope.ofTree, FileScope.ofTree, ← Tree.foldl_proper (hcomment a),
    ← Tree.foldl_proper (hcomment b)]
  symm
  refine List.rel_foldl (P := Eq) (fun scope scope' hs c d hcd => ?_) rfl hpairs
  subst hs
  exact (hcd.scope_add scope).symm

theorem Tidy.bare_classesOf (h : r.Tidy) :
    (ClassIndex.classesOf b r.right).map ClassDecl.bare =
      (ClassIndex.classesOf a r.left).map ClassDecl.bare := by
  show (ClassIndex.addTypes b 0 (FileScope.ofTree b r.right).package [] r.right.children).map
      ClassDecl.bare =
    (ClassIndex.addTypes a 0 (FileScope.ofTree a r.left).package [] r.left.children).map
      ClassDecl.bare
  rw [h.scope_eq]
  exact ClassIndex.bare_addTypes rfl h.pairs

end Java.Relayout

/-! ## Indexes that differ in positions only -/

/-- Two indexes with the same scopes and, positions apart, the same classes. -/
structure ClassIndex.Alike (ix ix' : ClassIndex) : Prop where
  scopes_eq : ix'.scopes = ix.scopes
  classes_eq : ix'.classes.map ClassDecl.bare = ix.classes.map ClassDecl.bare

namespace ClassIndex.Alike

variable {ix ix' : ClassIndex}

/-- The same numbers mean the same. -/
def renumbering (h : Alike ix ix') : Renumbering ix ix' where
  file := .refl Nat
  cls := .refl Nat
  decl_eq n := by
    have hn := congrArg (·[n]?) h.classes_eq
    simp only [List.getElem?_map] at hn
    rw [Equiv.refl_apply, hn]
    refine Option.map_congr fun c _ => ?_
    simp [ClassDecl.renumber]
  scope_eq f := by rw [Equiv.refl_apply, h.scopes_eq]
  order _ _ _ hlt := hlt

theorem addFile (h : Alike ix ix') {source source' : String} {root root' : Tree}
    (hscope : FileScope.ofTree source' root' = FileScope.ofTree source root)
    (hclasses : (classesOf source' root').map ClassDecl.bare =
      (classesOf source root).map ClassDecl.bare) :
    Alike (ix.addFile source root) (ix'.addFile source' root') where
  scopes_eq := by
    show ix'.scopes ++ [_] = ix.scopes ++ [_]
    rw [h.scopes_eq, hscope]
  classes_eq := by
    have hlen : ix'.classes.length = ix.classes.length := by
      simpa using congrArg List.length h.classes_eq
    have hplace (file base : Nat) (cs : List ClassDecl) :
        (cs.map (ClassDecl.place file base)).map ClassDecl.bare =
          (cs.map ClassDecl.bare).map (ClassDecl.place file base) := by
      rw [List.map_map, List.map_map]
      rfl
    rw [classes_addFile, classes_addFile, List.map_append, List.map_append, h.classes_eq,
      h.scopes_eq, hlen, hplace, hplace, hclasses]

end ClassIndex.Alike

/-! ## Files in two layouts -/

/-- Whether the tree of a text is tidy. -/
def isTidyText (source : String) : Bool := (Tree.ofText? source).all (Tree.isTidy source)

/-- A text and the same code in another layout: the text has not changed, or both are tidy. -/
def Relaid (a b : String) : Prop :=
  a = b ∨ SameCode a b ∧ isTidyText a = true ∧ isTidyText b = true

theorem tree_ofText (path source : String) : (SourceFile.ofText path source).tree =
    (Tree.ofText? source).getD (.program source.utf8ByteSize []) := by
  rw [SourceFile.ofText]
  cases Tree.ofText? source <;> rfl

namespace Relaid

variable {a b : String}

/-- The trees of the two texts have the same scope and the same classes. -/
theorem same_declarations (h : Relaid a b) (path path' : String) :
    FileScope.ofTree b (SourceFile.ofText path' b).tree =
        FileScope.ofTree a (SourceFile.ofText path a).tree ∧
      (ClassIndex.classesOf b (SourceFile.ofText path' b).tree).map ClassDecl.bare =
        (ClassIndex.classesOf a (SourceFile.ofText path a).tree).map ClassDecl.bare := by
  rw [tree_ofText, tree_ofText]
  rcases h with rfl | ⟨hcode, ha, hb⟩
  · exact ⟨rfl, rfl⟩
  · rcases ofText?_eq_none_or_exists_relayout hcode with ⟨hna, hnb⟩ | ⟨⟨r⟩⟩
    · rw [hna, hnb]
      exact ⟨rfl, rfl⟩
    · rw [isTidyText, r.left_eq] at ha
      rw [isTidyText, r.right_eq] at hb
      have htidy : r.Tidy := ⟨ha, hb⟩
      rw [r.left_eq, r.right_eq]
      exact ⟨htidy.scope_eq, htidy.bare_classesOf⟩

end Relaid

namespace Workspace

theorem alike_ofFiles {l l' : List (String × String)}
    (h : List.Forall₂ (fun f g => Relaid f.2 g.2) l l') :
    ClassIndex.Alike (ofFiles l).index (ofFiles l').index := by
  have hstep (ws ws' : Workspace) (hws : ws.index.Alike ws'.index) (f g : String × String)
      (hfg : Relaid f.2 g.2) : (ws.addFile f.1 f.2).index.Alike (ws'.addFile g.1 g.2).index := by
    obtain ⟨hscope, hclasses⟩ := hfg.same_declarations f.1 g.1
    exact hws.addFile hscope hclasses
  exact List.rel_foldl (P := fun ws ws' : Workspace => ws.index.Alike ws'.index)
    (fun ws ws' hws f g hfg => hstep ws ws' hws f g hfg) ⟨rfl, rfl⟩ h

/-- Files in two layouts have the same scopes and declare the same classes in the same order, and
each declaration has the same descriptor and supertypes under the same number. -/
theorem declarations_of_relaid {l l' : List (String × String)}
    (h : List.Forall₂ (fun f g => Relaid f.2 g.2) l l') :
    (ofFiles l').index.scopes = (ofFiles l).index.scopes ∧
      (ofFiles l').index.classes.map ClassDecl.bare =
        (ofFiles l).index.classes.map ClassDecl.bare ∧
      ∃ r : InjectionPoints.Renumbering (ofFiles l).index (ofFiles l').index,
        ((∀ n, r.file n = n) ∧ ∀ n, r.cls n = n) ∧
        (∀ f type, (ofFiles l').index.typeDescriptor f type =
          (ofFiles l).index.typeDescriptor f type) ∧
        (∀ m, (ofFiles l').index.methodDescriptor (r.methodId m) =
          (ofFiles l).index.methodDescriptor m) ∧
        (∀ f, (ofFiles l').index.fieldDescriptor (r.fieldId f) =
          (ofFiles l).index.fieldDescriptor f) ∧
        ∀ c, (ofFiles l').index.supertypes (r.classId c) =
          ((ofFiles l).index.supertypes c).map r.classId := by
  have hix := alike_ofFiles h
  let r := hix.renumbering
  exact ⟨hix.scopes_eq, hix.classes_eq, r, ⟨fun _ => rfl, fun _ => rfl⟩,
    r.typeDescriptor_renumbered, r.methodDescriptor_renumbered, r.fieldDescriptor_renumbered,
    r.supertypes_renumbered⟩

def tightText : String := "package p;class A<T>extends B\x7bint[] f(T t)\x7breturn null;\x7d\x7d"

def spacedText : String :=
  "package p ; // c\nclass A < T > extends B \x7b int [ ] f(/* c */T t)\x7b return null; \x7d \x7d"

theorem declarations_of_spacedText :
    Relaid tightText spacedText ∧ declaredNames ("A.java", spacedText) = ["p.A"] ∧
      (ofFiles [("A.java", spacedText)]).index.scopes =
        (ofFiles [("A.java", tightText)]).index.scopes ∧
      (ofFiles [("A.java", spacedText)]).index.classes.map ClassDecl.bare =
        (ofFiles [("A.java", tightText)]).index.classes.map ClassDecl.bare := by
  have h : Relaid tightText spacedText :=
    .inr ⟨by decide +kernel, by decide +kernel, by decide +kernel⟩
  have hfiles : List.Forall₂ (fun f g : String × String => Relaid f.2 g.2)
      [("A.java", tightText)] [("A.java", spacedText)] := .cons h .nil
  obtain ⟨hscopes, hclasses, _⟩ := declarations_of_relaid hfiles
  exact ⟨h, by decide +kernel, hscopes, hclasses⟩

/-- White space in the name of a package stays in the names of its classes. -/
theorem declaredNames_of_spaced_package :
    SameCode "package p.q;class A\x7b\x7d" "package p . q;class A\x7b\x7d" ∧
      declaredNames ("A.java", "package p.q;class A\x7b\x7d") = ["p.q.A"] ∧
      declaredNames ("A.java", "package p . q;class A\x7b\x7d") = ["p . q.A"] := by
  decide +kernel

end Workspace

end InjectionPoints
