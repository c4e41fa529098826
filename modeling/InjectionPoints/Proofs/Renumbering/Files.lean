/-
The order in which files are added. Two files next to each other can be swapped
(`Reordering.swap`), a file can be added to both of two reordered workspaces
(`Reordering.addFile`); so files in any other order give a workspace with the same classes under
other numbers (`exists_reordering`). When no two files have the same path or declare the same
class, the numbers are all that differs (`exists_renumbering_of_perm`).
-/
import Mathlib.Data.List.Induction
import InjectionPoints.Proofs.Renumbering.Growth
import InjectionPoints.Proofs.Renumbering.Queries

namespace InjectionPoints

open Java

/-! ## Swapping two blocks of numbers -/

/-- Behind the first `b` numbers, swaps the next `m` with the `n` behind these. -/
def blockSwap (b m n : Nat) : Equiv.Perm Nat where
  toFun i := if i < b then i else if i < b + m then i + n else if i < b + m + n then i - m else i
  invFun i := if i < b then i else if i < b + n then i + m else if i < b + n + m then i - n else i
  left_inv i := by
    dsimp only
    split_ifs <;> omega
  right_inv i := by
    dsimp only
    split_ifs <;> omega

theorem blockSwap_apply (b m n i : Nat) : blockSwap b m n i =
    if i < b then i else if i < b + m then i + n else if i < b + m + n then i - m else i := rfl

/-- Only a number of the first block and one of the second change their order. -/
theorem blockSwap_lt {b m n i j : Nat} (h : i < j) (hij : ¬(b ≤ i ∧ i < b + m ∧ b + m ≤ j)) :
    blockSwap b m n i < blockSwap b m n j := by
  simp only [blockSwap_apply]
  split_ifs <;> omega

theorem getElem?_blockSwap {α : Type} (before xs ys : List α) (i : Nat) :
    (before ++ ys ++ xs)[blockSwap before.length xs.length ys.length i]? =
      (before ++ xs ++ ys)[i]? := by
  rw [blockSwap_apply]
  split_ifs with hb hm hn
  · rw [List.append_assoc, List.append_assoc, List.getElem?_append_left hb,
      List.getElem?_append_left hb]
  · -- the first block comes to stand behind the second
    rw [List.getElem?_append_right (by rw [List.length_append]; omega),
      List.getElem?_append_left (by rw [List.length_append]; omega),
      List.getElem?_append_right (by omega), List.length_append]
    congr 1
    omega
  · rw [List.getElem?_append_left (by rw [List.length_append]; omega),
      List.getElem?_append_right (by omega),
      List.getElem?_append_right (by rw [List.length_append]; omega), List.length_append]
    congr 1
    omega
  · rw [List.getElem?_eq_none (by simp only [List.length_append]; omega),
      List.getElem?_eq_none (by simp only [List.length_append]; omega)]

section Appended

variable {α β : Type} {l : List α} {l' : List β} {σ : Equiv.Perm Nat}

/-- Lists with the same elements under numbers that only move inside are equally long. -/
theorem length_eq_of_getElem? (h : ∀ n, l'[σ n]? = none ↔ l[n]? = none)
    (hge : ∀ n, l.length ≤ n → σ n = n) : l'.length = l.length := by
  simp only [List.getElem?_eq_none_iff] at h
  refine Nat.le_antisymm ?_ (Nat.le_of_not_lt fun hlt => ?_)
  · have := (h l.length).2 (Nat.le_refl _)
    rwa [hge _ (Nat.le_refl _)] at this
  · -- the number behind the shorter list would come from outside the longer one
    obtain ⟨n, hn⟩ := σ.surjective l'.length
    have hle : l.length ≤ n := (h n).1 (by rw [hn])
    rw [hge n hle] at hn
    omega

/-- What is put behind both lists has the same numbers in both. -/
theorem getElem?_append_renumbered {g : α → β} (h : ∀ n, l'[σ n]? = (l[n]?).map g)
    (hge : ∀ n, l.length ≤ n → σ n = n) (xs : List α) (n : Nat) :
    (l' ++ xs.map g)[σ n]? = ((l ++ xs)[n]?).map g := by
  have hlen : l'.length = l.length :=
    length_eq_of_getElem? (fun n => by rw [h, Option.map_eq_none_iff]) hge
  rcases Nat.lt_or_ge n l.length with hn | hn
  · have hσ : σ n < l'.length := by
      have := h n
      rw [List.getElem?_eq_getElem hn] at this
      exact (List.getElem?_eq_some_iff.1 this).1
    rw [List.getElem?_append_left hσ, List.getElem?_append_left hn, h]
  · rw [hge n hn, List.getElem?_append_right (hlen ▸ hn), List.getElem?_append_right hn,
      List.getElem?_map, hlen]

end Appended

namespace Workspace

/-- The workspace with some more files, given by paths and texts. -/
def addFiles (ws : Workspace) (files : List (String × String)) : Workspace :=
  files.foldl (fun ws f => ws.addFile f.1 f.2) ws

/-- The workspace of some files. -/
def ofFiles (files : List (String × String)) : Workspace := empty.addFiles files

/-- The source names of the classes that a file declares. -/
def declaredNames (f : String × String) : List String :=
  (empty.addFile f.1 f.2).index.classes.map (·.sourceName)

/-- The numbers that a workspace mentions are numbers of its files and classes. -/
structure Sound (ws : Workspace) : Prop where
  scopes_length : ws.index.scopes.length = ws.files.length
  file_lt : ∀ c ∈ ws.index.classes, c.file < ws.files.length
  nested : ClassIndex.IsNested ws.index.classes

/-- The classes that a text declares, numbered by themselves. -/
def classesOfText (f : String × String) : List ClassDecl :=
  ClassIndex.classesOf f.2 (SourceFile.ofText f.1 f.2).tree

theorem classes_addFile (ws : Workspace) (f : String × String) :
    (ws.addFile f.1 f.2).index.classes = ws.index.classes ++
      (classesOfText f).map (ClassDecl.place ws.index.scopes.length ws.index.classes.length) :=
  ClassIndex.classes_addFile _ _ _

theorem classes_addFile_addFile (ws : Workspace) (hlen : ws.index.scopes.length = ws.files.length)
    (f g : String × String) :
    ((ws.addFile f.1 f.2).addFile g.1 g.2).index.classes = ws.index.classes ++
      (classesOfText f).map (ClassDecl.place ws.files.length ws.index.classes.length) ++
      (classesOfText g).map (ClassDecl.place (ws.files.length + 1)
        (ws.index.classes.length + (classesOfText f).length)) := by
  rw [classes_addFile, classes_addFile, List.length_append, List.length_map, ← hlen]
  simp [Workspace.addFile, ClassIndex.addFile]

theorem sound_empty : empty.Sound :=
  ⟨rfl, by simp [empty, ClassIndex.empty], by simp [ClassIndex.IsNested, empty, ClassIndex.empty]⟩

variable {ws ws' ws'' : Workspace}

theorem Sound.addFile (h : ws.Sound) (f : String × String) : (ws.addFile f.1 f.2).Sound where
  scopes_length := by simp [Workspace.addFile, ClassIndex.addFile, h.scopes_length]
  file_lt := by
    intro c hc
    have hlen : (ws.addFile f.1 f.2).files.length = ws.files.length + 1 := by
      simp [Workspace.addFile]
    rw [classes_addFile] at hc
    rcases List.mem_append.1 hc with hc | hc
    · exact hlen ▸ Nat.lt_succ_of_lt (h.file_lt c hc)
    · obtain ⟨d, _, rfl⟩ := List.mem_map.1 hc
      rw [hlen, ← h.scopes_length]
      exact Nat.lt_succ_self _
  nested := by
    intro c hc o ho
    rw [classes_addFile] at hc ⊢
    rw [List.length_append, List.length_map]
    rcases List.mem_append.1 hc with hc | hc
    · exact Nat.lt_add_right _ (h.nested c hc o ho)
    · obtain ⟨d, hd, rfl⟩ := List.mem_map.1 hc
      obtain ⟨o, hdo, rfl⟩ := Option.map_eq_some_iff.1 ho
      have := ClassIndex.isNested_classesOf _ _ d hd o hdo
      simp only [classesOfText]
      omega

theorem Sound.addFiles (h : ws.Sound) (l : List (String × String)) : (ws.addFiles l).Sound := by
  induction l generalizing ws with
  | nil => exact h
  | cons f l ih => exact ih (h.addFile f)

/-! ## Reordered workspaces -/

/-- Numbers under which a workspace holds the same files and classes as another one. -/
structure Reordering (ws ws' : Workspace) where
  file : Equiv.Perm Nat
  cls : Equiv.Perm Nat
  file_eq : ∀ f, ws'.files[file f]? = ws.files[f]?
  scope_eq : ∀ f, ws'.index.scopes[file f]? = ws.index.scopes[f]?
  class_eq : ∀ n, ws'.index.classes[cls n]? =
    (ws.index.classes[n]?).map (ClassDecl.renumber file cls)
  order : ∀ {m n : Nat} {c d : ClassDecl}, ws.index.classes[m]? = some c →
    ws.index.classes[n]? = some d → c.file = d.file → m < n → cls m < cls n
  file_ge : ∀ f, ws.files.length ≤ f → file f = f
  cls_ge : ∀ n, ws.index.classes.length ≤ n → cls n = n

namespace Reordering

variable (r : Reordering ws ws')

include r

theorem files_length : ws'.files.length = ws.files.length :=
  length_eq_of_getElem? (fun f => by rw [r.file_eq]) r.file_ge

theorem classes_length : ws'.index.classes.length = ws.index.classes.length :=
  length_eq_of_getElem? (fun n => by rw [r.class_eq, Option.map_eq_none_iff]) r.cls_ge

omit r

def refl (ws : Workspace) : Reordering ws ws where
  file := Equiv.refl Nat
  cls := Equiv.refl Nat
  file_eq _ := rfl
  scope_eq _ := rfl
  class_eq n := by
    have hid : ClassDecl.renumber (Equiv.refl Nat) (Equiv.refl Nat) = id := by
      funext c
      simp [ClassDecl.renumber]
    rw [hid, Option.map_id]
    rfl
  order _ _ _ h := h
  file_ge _ _ := rfl
  cls_ge _ _ := rfl

def trans (r : Reordering ws ws') (r' : Reordering ws' ws'') : Reordering ws ws'' where
  file := r.file.trans r'.file
  cls := r.cls.trans r'.cls
  file_eq f := by rw [Equiv.trans_apply, r'.file_eq, r.file_eq]
  scope_eq f := by rw [Equiv.trans_apply, r'.scope_eq, r.scope_eq]
  class_eq n := by
    rw [Equiv.trans_apply, r'.class_eq, r.class_eq, Option.map_map]
    congr 1
    funext c
    simp [ClassDecl.renumber, Function.comp_def]
  order {m n c d} hc hd hfile hlt := by
    have hc' := r.class_eq m
    have hd' := r.class_eq n
    rw [hc] at hc'
    rw [hd] at hd'
    exact r'.order hc' hd' (congrArg r.file hfile) (r.order hc hd hfile hlt)
  file_ge f hf := by
    rw [Equiv.trans_apply, r.file_ge f hf]
    exact r'.file_ge f (r.files_length ▸ hf)
  cls_ge n hn := by
    rw [Equiv.trans_apply, r.cls_ge n hn]
    exact r'.cls_ge n (r.classes_length ▸ hn)

/-- A class that is put elsewhere, when the new numbers put the classes around it there too. -/
theorem renumber_place {k k' b b' : Nat} {file cls : Nat → Nat} {c : ClassDecl} (hfile : file k = k')
    (hcls : ∀ o ∈ c.outer, cls (o + b) = o + b') :
    (c.place k b).renumber file cls = c.place k' b' := by
  have houter : (c.outer.map (· + b)).map cls = c.outer.map (· + b') := by
    rw [Option.map_map]
    exact Option.map_congr hcls
  simp only [ClassDecl.renumber, ClassDecl.place, hfile, houter]

/-- The same file is added to both. -/
def addFile (r : Reordering ws ws') (h : ws.Sound) (h' : ws'.Sound) (f : String × String) :
    Reordering (ws.addFile f.1 f.2) (ws'.addFile f.1 f.2) where
  file := r.file
  cls := r.cls
  file_eq n := by
    have := getElem?_append_renumbered (fun n => by rw [r.file_eq, Option.map_id]; rfl) r.file_ge
      [SourceFile.ofText f.1 f.2] n
    simpa [Workspace.addFile] using this
  scope_eq n := by
    have := getElem?_append_renumbered (fun n => by rw [r.scope_eq, Option.map_id]; rfl)
      (h.scopes_length ▸ r.file_ge) [FileScope.ofTree f.2 (SourceFile.ofText f.1 f.2).tree] n
    simpa [Workspace.addFile, ClassIndex.addFile] using this
  class_eq n := by
    have hplaced : (classesOfText f).map
        (ClassDecl.place ws'.index.scopes.length ws'.index.classes.length) =
          ((classesOfText f).map
            (ClassDecl.place ws.index.scopes.length ws.index.classes.length)).map
              (ClassDecl.renumber r.file r.cls) := by
      rw [List.map_map, h.scopes_length, h'.scopes_length, r.files_length, r.classes_length]
      refine List.map_congr_left fun c _ => (renumber_place ?_ fun o _ => ?_).symm
      · exact r.file_ge _ (Nat.le_refl _)
      · exact r.cls_ge _ (Nat.le_add_left _ _)
    rw [classes_addFile, classes_addFile, hplaced]
    exact getElem?_append_renumbered r.class_eq r.cls_ge _ n
  order {m n c d} hc hd hfile hlt := by
    rw [classes_addFile] at hc hd
    rcases Nat.lt_or_ge m ws.index.classes.length with hm | hm
    · rw [List.getElem?_append_left hm] at hc
      rcases Nat.lt_or_ge n ws.index.classes.length with hn | hn
      · rw [List.getElem?_append_left hn] at hd
        exact r.order hc hd hfile hlt
      · have hcm := r.class_eq m
        rw [hc] at hcm
        have hcm : r.cls m < ws'.index.classes.length := (List.getElem?_eq_some_iff.1 hcm).1
        rw [r.cls_ge n hn]
        exact Nat.lt_of_lt_of_le (r.classes_length ▸ hcm) hn
    · rwa [r.cls_ge m hm, r.cls_ge n (Nat.le_trans hm (Nat.le_of_lt hlt))]
  file_ge n hn := r.file_ge n (by simp [Workspace.addFile] at hn; omega)
  cls_ge n hn := r.cls_ge n (by rw [classes_addFile, List.length_append] at hn; omega)

section Swap

variable (f g : String × String) (m n : Nat) (ws : Workspace)

theorem map_renumber_before {ws : Workspace} (h : ws.Sound) :
    ws.index.classes.map (ClassDecl.renumber (blockSwap ws.files.length 1 1)
      (blockSwap ws.index.classes.length m n)) = ws.index.classes := by
  refine (List.map_congr_left fun c hc => ?_).trans (List.map_id _)
  have hfile : blockSwap ws.files.length 1 1 c.file = c.file := by
    rw [blockSwap_apply, if_pos (h.file_lt c hc)]
  have houter : c.outer.map (blockSwap ws.index.classes.length m n) = c.outer := by
    refine (Option.map_congr fun o ho => ?_).trans Option.map_id'
    rw [blockSwap_apply, if_pos (h.nested c hc o ho)]
  rw [ClassDecl.renumber, hfile, houter]
  rfl

theorem map_renumber_first : ((classesOfText f).map
      (ClassDecl.place ws.files.length ws.index.classes.length)).map
        (ClassDecl.renumber (blockSwap ws.files.length 1 1)
          (blockSwap ws.index.classes.length (classesOfText f).length n)) =
    (classesOfText f).map
      (ClassDecl.place (ws.files.length + 1) (ws.index.classes.length + n)) := by
  rw [List.map_map]
  refine List.map_congr_left fun c hc => renumber_place ?_ fun o ho => ?_
  · rw [blockSwap_apply]
    split_ifs <;> omega
  · have := ClassIndex.isNested_classesOf _ _ c hc o ho
    rw [← classesOfText] at this
    rw [blockSwap_apply]
    split_ifs <;> omega

theorem map_renumber_second : ((classesOfText g).map
      (ClassDecl.place (ws.files.length + 1) (ws.index.classes.length + m))).map
        (ClassDecl.renumber (blockSwap ws.files.length 1 1)
          (blockSwap ws.index.classes.length m (classesOfText g).length)) =
    (classesOfText g).map (ClassDecl.place ws.files.length ws.index.classes.length) := by
  rw [List.map_map]
  refine List.map_congr_left fun c hc => renumber_place ?_ fun o ho => ?_
  · rw [blockSwap_apply]
    split_ifs <;> omega
  · have := ClassIndex.isNested_classesOf _ _ c hc o ho
    rw [← classesOfText] at this
    rw [blockSwap_apply]
    split_ifs <;> omega

end Swap

/-- Two files are added in either order. -/
def swap (h : ws.Sound) (f g : String × String) :
    Reordering ((ws.addFile f.1 f.2).addFile g.1 g.2) ((ws.addFile g.1 g.2).addFile f.1 f.2) where
  file := blockSwap ws.files.length 1 1
  cls := blockSwap ws.index.classes.length (classesOfText f).length (classesOfText g).length
  file_eq n :=
    getElem?_blockSwap ws.files [SourceFile.ofText f.1 f.2] [SourceFile.ofText g.1 g.2] n
  scope_eq n := by
    rw [← h.scopes_length]
    exact getElem?_blockSwap ws.index.scopes [FileScope.ofTree f.2 (SourceFile.ofText f.1 f.2).tree]
      [FileScope.ofTree g.2 (SourceFile.ofText g.1 g.2).tree] n
  class_eq n := by
    have hbefore := map_renumber_before (classesOfText f).length (classesOfText g).length h
    have hfirst := map_renumber_first f (classesOfText g).length ws
    have hsecond := map_renumber_second g (classesOfText f).length ws
    rw [classes_addFile_addFile ws h.scopes_length, classes_addFile_addFile ws h.scopes_length,
      ← List.getElem?_map, List.map_append, List.map_append, hbefore, hfirst, hsecond]
    have hblocks := getElem?_blockSwap ws.index.classes
      ((classesOfText f).map (ClassDecl.place (ws.files.length + 1)
        (ws.index.classes.length + (classesOfText g).length)))
      ((classesOfText g).map (ClassDecl.place ws.files.length ws.index.classes.length)) n
    rwa [List.length_map, List.length_map] at hblocks
  order {m n c d} hc hd hfile hlt := by
    refine blockSwap_lt hlt fun ⟨hb, hm, hn⟩ => ?_
    -- a class of the first file and one of the second are not in one file
    rw [classes_addFile_addFile ws h.scopes_length] at hc hd
    rw [List.getElem?_append_left (by simpa using hm), List.getElem?_append_right hb] at hc
    rw [List.getElem?_append_right (by simpa using hn)] at hd
    obtain ⟨c, _, rfl⟩ := List.mem_map.1 (List.mem_of_getElem? hc)
    obtain ⟨d, _, rfl⟩ := List.mem_map.1 (List.mem_of_getElem? hd)
    simp [ClassDecl.place] at hfile
  file_ge n hn := by
    simp only [Workspace.addFile, List.length_append, List.length_singleton] at hn
    rw [blockSwap_apply]
    split_ifs <;> omega
  cls_ge n hn := by
    rw [classes_addFile_addFile ws h.scopes_length] at hn
    simp only [List.length_append, List.length_map] at hn
    rw [blockSwap_apply]
    split_ifs <;> omega

/-- Further files are added to both, in one order. -/
theorem addFiles (r : Reordering ws ws') (h : ws.Sound) (h' : ws'.Sound)
    (l : List (String × String)) : Nonempty (Reordering (ws.addFiles l) (ws'.addFiles l)) := by
  induction l generalizing ws ws' with
  | nil => exact ⟨r⟩
  | cons f l ih => exact ih (r.addFile h h' f) (h.addFile f) (h'.addFile f)

end Reordering

/-- Files in any order give the same classes under other numbers. -/
theorem exists_reordering {l l' : List (String × String)} (hperm : l.Perm l') (h : ws.Sound) :
    Nonempty (Reordering (ws.addFiles l) (ws.addFiles l')) := by
  induction hperm generalizing ws with
  | nil => exact ⟨.refl ws⟩
  | cons f _ ih => exact ih (h.addFile f)
  | swap f g l =>
    exact (Reordering.swap h g f).addFiles ((h.addFile g).addFile f) ((h.addFile f).addFile g) l
  | trans _ _ ih ih' =>
    obtain ⟨r⟩ := ih h
    obtain ⟨r'⟩ := ih' h
    exact ⟨r.trans r'⟩

/-! ## Files that do not get in each other's way -/

theorem addFiles_append_one (ws : Workspace) (l : List (String × String)) (f : String × String) :
    ws.addFiles (l ++ [f]) = (ws.addFiles l).addFile f.1 f.2 := by
  rw [addFiles, List.foldl_append]
  rfl

theorem path_ofText (path text : String) : (SourceFile.ofText path text).path = path := by
  unfold SourceFile.ofText
  split <;> rfl

theorem files_ofFiles (l : List (String × String)) :
    (ofFiles l).files = l.map fun f => SourceFile.ofText f.1 f.2 := by
  induction l using List.reverseRecOn with
  | nil => rfl
  | append_singleton l f ih =>
    rw [ofFiles] at ih ⊢
    rw [addFiles_append_one, addFile, ih, List.map_append]
    rfl

/-- A class of a workspace is one that its file declares. -/
theorem mem_declaredNames {l : List (String × String)} {c : ClassDecl}
    (hc : c ∈ (ofFiles l).index.classes) :
    ∃ f, l[c.file]? = some f ∧ c.sourceName ∈ declaredNames f := by
  induction l using List.reverseRecOn with
  | nil => simp [ofFiles, addFiles, empty, ClassIndex.empty] at hc
  | append_singleton l f ih =>
    rw [ofFiles, addFiles_append_one, classes_addFile] at hc
    rcases List.mem_append.1 hc with hc | hc
    · obtain ⟨g, hg, hname⟩ := ih hc
      exact ⟨g, by rw [List.getElem?_append_left (List.getElem?_eq_some_iff.1 hg).1, hg], hname⟩
    · obtain ⟨d, hd, rfl⟩ := List.mem_map.1 hc
      have hsound : (empty.addFiles l).Sound := sound_empty.addFiles l
      have hlen : (empty.addFiles l).index.scopes.length = l.length := by
        rw [hsound.scopes_length, ← ofFiles, files_ofFiles, List.length_map]
      refine ⟨f, by simp [ClassDecl.place, hlen], ?_⟩
      show d.sourceName ∈ (classesOfText f).map (·.sourceName)
      exact List.mem_map_of_mem hd

/-- Classes of one source name come from one file. -/
theorem file_eq_of_sourceName_eq {l : List (String × String)}
    (hnames : l.Pairwise fun f g => (declaredNames f).Disjoint (declaredNames g))
    {c d : ClassDecl} (hc : c ∈ (ofFiles l).index.classes) (hd : d ∈ (ofFiles l).index.classes)
    (hname : c.sourceName = d.sourceName) : c.file = d.file := by
  obtain ⟨f, hf, hcf⟩ := mem_declaredNames hc
  obtain ⟨g, hg, hdg⟩ := mem_declaredNames hd
  obtain ⟨hi, rfl⟩ := List.getElem?_eq_some_iff.1 hf
  obtain ⟨hj, rfl⟩ := List.getElem?_eq_some_iff.1 hg
  rcases Nat.lt_trichotomy c.file d.file with hlt | heq | hlt
  · exact absurd (hname ▸ hdg) (List.pairwise_iff_getElem.1 hnames _ _ hi hj hlt hcf)
  · exact heq
  · exact absurd hcf (List.pairwise_iff_getElem.1 hnames _ _ hj hi hlt (hname ▸ hdg))

/-- Files no two of which have the same path. -/
def DistinctPaths (ws : Workspace) : Prop :=
  ws.files.Pairwise fun f g => Path.same f.path g.path = false

theorem fileId?_eq_some_iff (hpaths : ws.DistinctPaths) {path : String} {i : FileId} :
    ws.fileId? path = some i ↔ ∃ f, ws.files[i]? = some f ∧ Path.same f.path path = true := by
  rw [fileId?, List.findIdx?_eq_some_iff_getElem]
  constructor
  · intro hx
    obtain ⟨hi, hpath, _⟩ := hx
    exact ⟨_, List.getElem?_eq_getElem hi, hpath⟩
  · intro hx
    obtain ⟨f, hf, hpath⟩ := hx
    obtain ⟨hi, rfl⟩ := List.getElem?_eq_some_iff.1 hf
    refine ⟨hi, hpath, fun j hj hpathj => ?_⟩
    have hne := List.pairwise_iff_getElem.1 hpaths j i (Nat.lt_trans hj hi) hi hj
    simp only [Path.same, beq_iff_eq] at hpath hpathj
    simp [Path.same, hpath, hpathj] at hne

/-- Reordered workspaces whose files do not get in each other's way differ in their numbers only. -/
def Reordering.renumbering (r : Reordering ws ws') (hpaths : ws.DistinctPaths)
    (hpaths' : ws'.DistinctPaths)
    (hnames : ∀ c ∈ ws.index.classes, ∀ d ∈ ws.index.classes, c.sourceName = d.sourceName →
      c.file = d.file) : Renumbering ws ws' where
  file := r.file
  cls := r.cls
  decl_eq n := by
    rw [r.class_eq, Option.map_map]
    rfl
  scope_eq := r.scope_eq
  order {m n c d} hc hd hsame hlt := by
    refine r.order hc hd (hsame.elim id fun hname => ?_) hlt
    exact hnames c (List.mem_of_getElem? hc) d (List.mem_of_getElem? hd) hname
  file_eq := r.file_eq
  class_eq c := by
    have h := r.class_eq c
    rw [List.getElem?_eq_getElem c.isLt, Option.map_some] at h
    exact (List.getElem?_eq_some_iff.1 h).2
  fileId?_eq path := by
    refine Option.ext fun i' => ?_
    rw [fileId?_eq_some_iff hpaths', Option.map_eq_some_iff]
    constructor
    · intro hx
      obtain ⟨f, hf, hpath⟩ := hx
      refine ⟨r.file.symm i', (fileId?_eq_some_iff hpaths).2 ⟨f, ?_, hpath⟩, by simp⟩
      rw [← r.file_eq, Equiv.apply_symm_apply, hf]
    · intro hx
      obtain ⟨i, hi, rfl⟩ := hx
      obtain ⟨f, hf, hpath⟩ := (fileId?_eq_some_iff hpaths).1 hi
      exact ⟨f, by rw [r.file_eq, hf], hpath⟩

/-- All that is asked about the classes of two workspaces has corresponding answers, and all that is
asked about their references has the same. -/
structure Renumbering.Agrees (r : Renumbering ws ws') : Prop where
  resolve : ∀ f type, ws'.index.resolve? (r.file f) type =
    (ws.index.resolve? f type).map r.classId
  typeDescriptor : ∀ f type, ws'.index.typeDescriptor (r.file f) type = ws.index.typeDescriptor f type
  methodDescriptor : ∀ m, ws'.index.methodDescriptor (r.methodId m) = ws.index.methodDescriptor m
  fieldDescriptor : ∀ f, ws'.index.fieldDescriptor (r.fieldId f) = ws.index.fieldDescriptor f
  supertypes : ∀ c, ws'.index.supertypes (r.classId c) = (ws.index.supertypes c).map r.classId
  findMethod : ∀ c name arity, ws'.index.findMethod? (r.classId c) name arity =
    (ws.index.findMethod? c name arity).map r.methodId
  findConstructor : ∀ c arity, ws'.index.findConstructor? (r.classId c) arity =
    (ws.index.findConstructor? c arity).map r.methodId
  findField : ∀ c name, ws'.index.findField? (r.classId c) name =
    (ws.index.findField? c name).map r.fieldId
  staticOwners : ∀ f name, ws'.index.staticOwners (r.file f) name =
    (ws.index.staticOwners f name).map r.classId
  isUnresolved : ∀ path offset, Query.isUnresolved ws' path offset = Query.isUnresolved ws path offset
  resolveReference : ∀ path offset,
    Query.resolveReference ws' path offset = Query.resolveReference ws path offset
  resolveTarget : ∀ path offset,
    Query.resolveTarget ws' path offset = Query.resolveTarget ws path offset
  completions : ∀ path offset, Query.completions ws' path offset = Query.completions ws path offset
  usesMember : ∀ path offset, Query.usesMember ws' path offset = Query.usesMember ws path offset
  diagnostics : ∀ path, Query.diagnostics ws' path = Query.diagnostics ws path

theorem Renumbering.agrees (r : Renumbering ws ws') : r.Agrees where
  resolve := r.resolve?_renumbered
  typeDescriptor := r.typeDescriptor_renumbered
  methodDescriptor := r.methodDescriptor_renumbered
  fieldDescriptor := r.fieldDescriptor_renumbered
  supertypes := r.supertypes_renumbered
  findMethod := r.findMethod?_renumbered
  findConstructor := r.findConstructor?_renumbered
  findField := r.findField?_renumbered
  staticOwners := r.staticOwners_renumbered
  isUnresolved path offset := by rw [Query.isUnresolved_eq r]
  resolveReference path offset := by rw [Query.resolveReference_eq r]
  resolveTarget path offset := by rw [Query.resolveTarget_eq r]
  completions path offset := by rw [Query.completions_eq r]
  usesMember path offset := by rw [Query.usesMember_eq r]
  diagnostics path := by rw [Query.diagnostics_eq r]

/-- The order in which files are added does not matter, when no two of them have the same path or
declare classes of the same name. -/
theorem exists_renumbering_of_perm {l l' : List (String × String)} (hperm : l.Perm l')
    (hpaths : l.Pairwise fun f g => Path.same f.1 g.1 = false)
    (hnames : l.Pairwise fun f g => (declaredNames f).Disjoint (declaredNames g)) :
    ∃ r : Renumbering (ofFiles l) (ofFiles l'), r.Agrees := by
  obtain ⟨r⟩ := exists_reordering hperm sound_empty
  have hdistinct (k : List (String × String)) (hk : l.Perm k) : (ofFiles k).DistinctPaths := by
    rw [DistinctPaths, files_ofFiles, List.pairwise_map]
    simp only [path_ofText]
    refine hk.pairwise hpaths fun {f g} h => ?_
    rw [Path.same, Bool.beq_comm]
    exact h
  refine ⟨r.renumbering (hdistinct l .rfl) (hdistinct l' hperm) ?_, Renumbering.agrees _⟩
  exact fun c hc d hd hname => file_eq_of_sourceName_eq hnames hc hd hname

def baseFile : String × String := ("A.java", "class A\x7b\x7d")

def derivedFile : String × String := ("B.java", "class B extends A\x7bA f(A a)\x7b\x7d\x7d")

theorem exists_renumbering_of_two :
    ∃ r : Renumbering (ofFiles [baseFile, derivedFile]) (ofFiles [derivedFile, baseFile]),
      r.Agrees := by
  have hbase : declaredNames baseFile = ["A"] := by decide +kernel
  have hderived : declaredNames derivedFile = ["B"] := by decide +kernel
  refine exists_renumbering_of_perm (.swap _ _ []) ?_ ?_
  · exact List.pairwise_pair.2 (by decide +kernel)
  · rw [List.pairwise_pair, hbase, hderived]
    simp

end Workspace

end InjectionPoints
