/-
What every workspace is like, whatever files it was made of and in whatever order. Files and classes
that were added stay as they are under their numbers (`Extends.addFile`). A class has its names from
the class around it, which is in the same file and has a smaller number, or else from the package of
its file (`WellNamed.addFile`). A source name stands for the class that was declared last under it,
as in a table in which each class takes the place of an earlier one (`getElem?_sourceNames`). The
numbers of the classes around classes fall, so the way outwards comes to an end (`walksOut_around`).
All this together is `ofFiles_invariant`.
-/
import InjectionPoints.Proofs.Renumbering.Files

namespace InjectionPoints

open Java

/-! ## The table of source names -/

section FindLast

variable {α : Type} {p : α → Bool}

/-- A last element that passes takes the place of the one before. -/
theorem findLast?_concat (p : α → Bool) (l : List α) (a : α) :
    (findLast? p (l ++ [a])).map Fin.val =
      if p a then some l.length else (findLast? p l).map Fin.val := by
  induction l with
  | nil => cases h : p a <;> simp [findLast?, h]
  | cons b l ih =>
    rw [List.cons_append, findLast?, findLast?]
    cases hl : findLast? p l <;> cases hla : findLast? p (l ++ [a]) <;> cases ha : p a <;>
      cases hb : p b <;> simp_all [Fin.val_succ]

end FindLast

namespace ClassIndex

variable (ix : ClassIndex)

/-- The table that grows with the classes: each enters its number under its source name, in place
of an earlier one. -/
def sourceNames : Std.HashMap String Nat :=
  ix.classes.zipIdx.foldl (fun table c => table.insert c.1.sourceName c.2) ∅

/-- Looking up a source name finds what the table holds under it. -/
theorem getElem?_sourceNames (name : String) :
    ix.sourceNames[name]? = (ix.bySourceName? name).map Fin.val := by
  obtain ⟨classes, scopes⟩ := ix
  simp only [sourceNames, bySourceName?]
  induction classes using List.reverseRecOn with
  | nil => simp [findLast?]
  | append_singleton classes c ih =>
    rw [findLast?_concat, List.zipIdx_append, List.foldl_append, Nat.zero_add]
    simp only [List.zipIdx_cons, List.zipIdx_nil, List.foldl_cons, List.foldl_nil]
    rw [Std.HashMap.getElem?_insert, ih]

theorem bySourceName?_eq_some_iff {name : String} {c : ix.ClassId} :
    ix.bySourceName? name = some c ↔
      (ix.decl c).sourceName = name ∧ ∀ d, (ix.decl d).sourceName = name → d ≤ c := by
  rw [bySourceName?, findLast?_eq_some_iff, beq_iff_eq]
  refine and_congr Iff.rfl (forall_congr' fun d => ?_)
  rw [beq_eq_false_iff_ne, ne_eq, imp_not_comm]
  exact imp_congr Iff.rfl not_lt

theorem bySourceName?_eq_none_iff {name : String} :
    ix.bySourceName? name = none ↔ ∀ d, (ix.decl d).sourceName ≠ name := by
  rw [bySourceName?, findLast?_eq_none_iff]
  exact forall_congr' fun d => beq_eq_false_iff_ne

/-! ## Names -/

/-- The package of a file. -/
def package? (file : FileId) : Option String := (ix.scope? file).bind FileScope.package

/-- Where class `n` among `classes` has its names from: from the class around it, which comes before
it and is in the same file, or else from the package of its file. -/
structure NamedIn (classes : List ClassDecl) (package : Option String) (n : Nat) (c : ClassDecl) :
    Prop where
  inner : ∀ o, c.outer = some o → o < n ∧ ∃ around, classes[o]? = some around ∧
    around.file = c.file ∧ c.sourceName = around.sourceName ++ "." ++ c.name ∧
    c.binaryName = around.binaryName ++ "$" ++ c.name
  top : c.outer = none →
    c.sourceName = qualify package c.name ∧ c.binaryName = qualify package c.name

/-- Every class has its names from the class around it, or from its package. -/
def WellNamed (package? : FileId → Option String) (classes : List ClassDecl) : Prop :=
  ∀ n c, classes[n]? = some c → NamedIn classes (package? c.file) n c

variable {ix} {source : String} {file : FileId} {package : Option String}
  {classes classes' : List ClassDecl} {n : Nat} {c : ClassDecl}

theorem NamedIn.mono (h : NamedIn classes package n c) (hp : classes <+: classes') :
    NamedIn classes' package n c where
  inner o ho := by
    obtain ⟨hlt, around, ha, hnames⟩ := h.inner o ho
    exact ⟨hlt, around, getElem?_of_initial hp ha, hnames⟩
  top := h.top

/-- The names that a declaration gives to its class. -/
theorem namedIn_of_ofTree? {outer : Option (Nat × ClassDecl)} {t : Tree}
    (ho : IsAround file classes outer)
    (h : ClassDecl.ofTree? source file package outer t = some c) :
    NamedIn classes package classes.length c := by
  unfold ClassDecl.ofTree? at h
  obtain ⟨nameNode, _, h⟩ := Option.bind_eq_some_iff.1 h
  obtain rfl := Option.some.inj h
  cases outer with
  | none =>
    refine ⟨by simp, fun _ => ?_⟩
    cases package <;> simp [qualify]
  | some a =>
    obtain ⟨hat, hfile⟩ := ho a rfl
    refine ⟨fun o hoa => ?_, by simp⟩
    obtain rfl : a.1 = o := by simpa using hoa
    exact ⟨(List.getElem?_eq_some_iff.1 hat).1, a.2, hat, hfile, rfl, rfl⟩

/-- A declaration keeps all classes well named. -/
theorem wellNamed_kept {package? : FileId → Option String} (hp : package? file = package) :
    KeptByClass source file package (fun _ => True) (WellNamed package?) := by
  intro classes outer t c _ h ho hc n d hd
  rcases Nat.lt_or_ge n classes.length with hn | hn
  · rw [List.getElem?_append_left hn] at hd
    exact (h n d hd).mono (List.prefix_append _ _)
  · rw [List.getElem?_append_right hn, List.getElem?_singleton] at hd
    split at hd
    · obtain rfl : n = classes.length := by omega
      obtain rfl := Option.some.inj hd
      rw [file_of_ofTree? hc, hp]
      exact (namedIn_of_ofTree? ho hc).mono (List.prefix_append _ _)
    · simp at hd

/-! ## The way outwards -/

/-- The way from a class outwards, up to its end: a class, the class around it, and so on to one
that has none around it. -/
inductive WalksOut (ix : ClassIndex) : Option Nat → List ClassDecl → Prop
  | stop : WalksOut ix none []
  | step {n : Nat} {c : ClassDecl} {way : List ClassDecl} (found : ix.classes[n]? = some c)
      (rest : WalksOut ix c.outer way) : WalksOut ix (some n) (c :: way)

/-- As numbers fall on the way outwards, the fuel is enough for the whole way. -/
theorem walksOut_around {package? : FileId → Option String} (h : WellNamed package? ix.classes)
    (fuel : Nat) {outer : Option Nat}
    (ho : ∀ o, outer = some o → o < fuel ∧ o < ix.classes.length) :
    WalksOut ix outer (ix.around outer fuel) := by
  induction fuel generalizing outer with
  | zero =>
    cases outer with
    | none => exact .stop
    | some o => exact absurd (ho o rfl).1 (Nat.not_lt_zero o)
  | succ fuel ih =>
    cases outer with
    | none => exact .stop
    | some o =>
      obtain ⟨hfuel, hlt⟩ := ho o rfl
      have hat := List.getElem?_eq_getElem hlt
      simp only [around, Option.bind_some, hat]
      refine .step hat (ih fun o' ho' => ?_)
      have := ((h o _ hat).inner o' ho').1
      omega

theorem walksOut_enclosing {package? : FileId → Option String} (h : WellNamed package? ix.classes)
    (c : ix.ClassId) : WalksOut ix (some c) (ix.enclosing c) := by
  have hat : ix.classes[c.val]? = some (ix.decl c) := List.getElem?_eq_getElem c.isLt
  refine .step hat (walksOut_around h _ fun o ho => ?_)
  have := ((h c _ hat).inner o ho).1
  omega

end ClassIndex

/-- A node of the tree of a file is one of a text that can be read. -/
theorem SourceFile.ofText?_of_mem {path text : String} {u : Tree}
    (hu : u ∈ (SourceFile.ofText path text).tree.preorder) (hk : u.kind ≠ .program) :
    Tree.ofText? text = some (SourceFile.ofText path text).tree := by
  unfold SourceFile.ofText at hu ⊢
  split
  · next t h => rw [h]
  · next h =>
    simp only [h, Tree.program, Tree.preorder, Tree.preorderAll, List.mem_singleton] at hu
    exact absurd (congrArg Tree.kind hu) hk

namespace Workspace

/-! ## Adding a file -/

/-- What a workspace holds, it holds under the same numbers in another one, which may have more
behind it. -/
structure Extends (ws ws' : Workspace) : Prop where
  files : ws.files <+: ws'.files
  scopes : ws.index.scopes <+: ws'.index.scopes
  classes : ws.index.classes <+: ws'.index.classes
  fileId? : ∀ path file, ws.fileId? path = some file → ws'.fileId? path = some file

theorem Extends.addFile (ws : Workspace) (path text : String) :
    ws.Extends (ws.addFile path text) where
  files := List.prefix_append _ _
  scopes := List.prefix_append _ _
  classes := by
    rw [classes_addFile ws (path, text)]
    exact List.prefix_append _ _
  fileId? p file h := by
    simp only [Workspace.fileId?, Workspace.addFile, List.findIdx?_append] at h ⊢
    rw [h, Option.some_or]

theorem text_ofText (path text : String) : (SourceFile.ofText path text).text = text := by
  unfold SourceFile.ofText
  split <;> rfl

variable {ws : Workspace}

/-- Another file keeps all classes well named. -/
theorem wellNamed_addFile (hs : ws.Sound) (h : ClassIndex.WellNamed ws.index.package? ws.index.classes)
    (path text : String) : ClassIndex.WellNamed (ws.addFile path text).index.package?
      (ws.addFile path text).index.classes := by
  -- The classes that are there see the scopes of their files behind a longer list.
  have hold : ClassIndex.WellNamed (ws.addFile path text).index.package? ws.index.classes := by
    intro n c hc
    have hlt : c.file < ws.index.scopes.length :=
      hs.scopes_length ▸ hs.file_lt c (List.mem_of_getElem? hc)
    have hp : (ws.addFile path text).index.package? c.file = ws.index.package? c.file := by
      simp only [ClassIndex.package?, ClassIndex.scope?, Workspace.addFile, ClassIndex.addFile,
        List.getElem?_append_left hlt]
    rw [hp]
    exact h n c hc
  refine ClassIndex.addTypes_kept (ClassIndex.wellNamed_kept ?_) hold _ fun _ _ _ _ _ => trivial
  simp [ClassIndex.package?, ClassIndex.scope?, Workspace.addFile, ClassIndex.addFile]

theorem wellNamed_addFiles (hs : ws.Sound)
    (h : ClassIndex.WellNamed ws.index.package? ws.index.classes) (l : List (String × String)) :
    ClassIndex.WellNamed (ws.addFiles l).index.package? (ws.addFiles l).index.classes := by
  induction l generalizing ws with
  | nil => exact h
  | cons f l ih => exact ih (hs.addFile f) (wellNamed_addFile hs h f.1 f.2)

/-- The scopes are those that the texts write. -/
theorem scopes_addFiles (h : ws.index.scopes = ws.files.map fun f => FileScope.ofTree f.text f.tree)
    (l : List (String × String)) : (ws.addFiles l).index.scopes =
      (ws.addFiles l).files.map fun f => FileScope.ofTree f.text f.tree := by
  induction l generalizing ws with
  | nil => exact h
  | cons f l ih =>
    refine ih ?_
    simp [Workspace.addFile, ClassIndex.addFile, h, text_ofText]

theorem files_addFiles (ws : Workspace) (l : List (String × String)) :
    (ws.addFiles l).files = ws.files ++ l.map fun f => SourceFile.ofText f.1 f.2 := by
  induction l generalizing ws with
  | nil => simp [addFiles]
  | cons f l ih =>
    rw [addFiles, List.foldl_cons, ← addFiles, ih]
    simp [Workspace.addFile]

/-- The tree of a file is that of its text. -/
theorem exists_of_root? {files : List (String × String)} {file : FileId} {root : Place}
    (h : (ofFiles files).root? file = some root) :
    ∃ path, root = .root (SourceFile.ofText path ((ofFiles files).text file)).tree := by
  simp only [root?, Workspace.text, ofFiles, files_addFiles, empty, List.nil_append,
    List.getElem?_map, Option.map_map, Option.map_eq_some_iff] at h ⊢
  obtain ⟨f, hf, rfl⟩ := h
  exact ⟨f.1, by simp [hf, text_ofText]⟩

/-- Whatever files are added: each class is in a file that is there and has its names from the class
around it or from the package that the file writes; a source name is looked up to the class with
the greatest number that has it; another file changes nothing that is there; and the way outwards
from each class comes to its end. -/
theorem ofFiles_invariant (files : List (String × String)) :
    let ws := ofFiles files
    (∀ n c, ws.index.classes[n]? = some c → c.file < ws.files.length ∧
      ClassIndex.NamedIn ws.index.classes (ws.index.package? c.file) n c) ∧
    (ws.index.scopes = ws.files.map fun f => FileScope.ofTree f.text f.tree) ∧
    (∀ name, ws.index.sourceNames[name]? = (ws.index.bySourceName? name).map Fin.val) ∧
    (∀ name c, ws.index.bySourceName? name = some c ↔ (ws.index.decl c).sourceName = name ∧
      ∀ d, (ws.index.decl d).sourceName = name → d ≤ c) ∧
    (∀ name, ws.index.bySourceName? name = none ↔ ∀ d, (ws.index.decl d).sourceName ≠ name) ∧
    (∀ path text, ws.Extends (ws.addFile path text)) ∧
    ∀ c : ws.index.ClassId, ClassIndex.WalksOut ws.index (some c) (ws.index.enclosing c) := by
  have hnamed : ClassIndex.WellNamed (ofFiles files).index.package? (ofFiles files).index.classes :=
    wellNamed_addFiles sound_empty (by simp [ClassIndex.WellNamed, empty, ClassIndex.empty]) files
  refine ⟨fun n c hc => ⟨?_, hnamed n c hc⟩, scopes_addFiles rfl files,
    ClassIndex.getElem?_sourceNames _, fun name c => ClassIndex.bySourceName?_eq_some_iff _,
    fun name => ClassIndex.bySourceName?_eq_none_iff _, Extends.addFile _,
    ClassIndex.walksOut_enclosing hnamed⟩
  exact (sound_empty.addFiles files).file_lt c (List.mem_of_getElem? hc)

end Workspace

end InjectionPoints
