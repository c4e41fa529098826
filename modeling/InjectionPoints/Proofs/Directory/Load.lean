/-
What is loaded from a directory. The files below it are named by the ways that lead to them
(`mem_filesBelow_iff`), no two of them by the same components (`eq_of_mem_filesBelow`). So sorting
leaves one order only, that of the paths, whatever order the entries of directories are listed in,
and the workspace has each Java file that can be read, once (`load_reordered`).
-/
import InjectionPoints.Proofs.Directory.Trees
import InjectionPoints.Proofs.Renumbering.Files

namespace InjectionPoints

namespace FileTree

variable {t t' e d : FileTree} {path p q root : String}

/-! ## The files below a directory -/

theorem filesAmong_eq (path : String) (entries : List (String × FileTree)) :
    filesAmong path entries = entries.flatMap fun e => filesBelow (Path.join path e.1) e.2 := by
  induction entries with
  | nil => rfl
  | cons entry entries ih =>
    rw [List.flatMap_cons, ← ih]
    rfl

theorem mem_singleton_iff_of_not_isDirectory (h : ¬t.IsDirectory) : p ∈ [path] ↔
    ∃ names e, t.at? names = some e ∧ ¬e.IsDirectory ∧ p = Path.joins path names := by
  simp only [at?_eq_some_iff_of_not_isDirectory h, List.mem_singleton]
  constructor
  · rintro rfl
    exact ⟨[], t, ⟨rfl, rfl⟩, h, rfl⟩
  · intro hx
    obtain ⟨_, _, ⟨rfl, rfl⟩, _, hp⟩ := hx
    exact hp

/-- The paths below an entry are those of the ways to what is no directory. -/
theorem mem_filesBelow_iff (ht : t.WellFormed) : p ∈ filesBelow path t ↔
    ∃ names e, t.at? names = some e ∧ ¬e.IsDirectory ∧ p = Path.joins path names := by
  induction ht generalizing path with
  | file text => exact mem_singleton_iff_of_not_isDirectory (by simp [IsDirectory])
  | link target => exact mem_singleton_iff_of_not_isDirectory (by simp [IsDirectory])
  | @directory entries distinct named below ih =>
    show p ∈ filesAmong path entries ↔ _
    rw [filesAmong_eq, List.mem_flatMap]
    constructor
    · intro hx
      obtain ⟨entry, hentry, hp⟩ := hx
      obtain ⟨names, e, he, hfile, rfl⟩ := (ih entry hentry).1 hp
      refine ⟨entry.1 :: names, e, ?_, hfile, rfl⟩
      rw [at?_cons]
      show (entries.lookup entry.1).bind _ = _
      rw [(lookup_eq_some_iff distinct).2 hentry]
      exact he
    · intro hx
      obtain ⟨names, e, he, hfile, rfl⟩ := hx
      cases names with
      | nil =>
        cases he
        exact absurd ⟨entries, rfl⟩ hfile
      | cons name names =>
        rw [at?_cons, Option.bind_eq_some_iff] at he
        obtain ⟨e', he', he⟩ := he
        have hmem := (lookup_eq_some_iff distinct).1 he'
        exact ⟨(name, e'), hmem, (ih _ hmem).2 ⟨names, e, he, hfile, rfl⟩⟩

/-- Paths below an entry have different components. -/
theorem eq_of_mem_filesBelow (ht : t.WellFormed) (hpath : path ≠ "") (hp : p ∈ filesBelow path t)
    (hq : q ∈ filesBelow path t) (h : Path.same p q = true) : p = q := by
  obtain ⟨names, e, he, _, rfl⟩ := (mem_filesBelow_iff ht).1 hp
  obtain ⟨names', e', he', _, rfl⟩ := (mem_filesBelow_iff ht).1 hq
  rw [Path.joins_injective hpath (ht.at? he).2 (ht.at? he').2 (beq_iff_eq.1 h)]

theorem nodup_filesBelow (ht : t.WellFormed) (hpath : path ≠ "") : (filesBelow path t).Nodup := by
  induction ht generalizing path with
  | file text => exact List.nodup_singleton path
  | link target => exact List.nodup_singleton path
  | @directory entries distinct named below ih =>
    show (filesAmong path entries).Nodup
    rw [filesAmong_eq, List.nodup_flatMap]
    refine ⟨fun entry h => ih entry h (Path.join_ne_empty path (named entry h)), ?_⟩
    refine (List.pairwise_map.1 distinct).imp_of_mem fun {a b} ha hb hne p hpa hpb => hne ?_
    obtain ⟨names, e, he, _, rfl⟩ := (mem_filesBelow_iff (below a ha)).1 hpa
    obtain ⟨names', e', he', _, heq⟩ := (mem_filesBelow_iff (below b hb)).1 hpb
    have hnames := List.forall_mem_cons.2 ⟨named a ha, ((below a ha).at? he).2⟩
    have hnames' := List.forall_mem_cons.2 ⟨named b hb, ((below b hb).at? he').2⟩
    exact (List.cons.inj (Path.joins_injective hpath hnames hnames'
      (congrArg Path.components heq))).1

theorem Alike.mem_filesBelow_of_mem (h : t.Alike t') (hp : p ∈ filesBelow path t) :
    p ∈ filesBelow path t' := by
  obtain ⟨names, e, he, hfile, rfl⟩ := (mem_filesBelow_iff h.left).1 hp
  have hentry := h.at? names
  rw [he] at hentry
  generalize ht' : t'.at? names = e' at hentry
  cases hentry with
  | some hentry =>
    exact (mem_filesBelow_iff h.right).2 ⟨names, _, ht', hentry.isDirectory_iff.not.1 hfile, rfl⟩

/-- In another order, a directory has the same files below it. -/
theorem Alike.filesBelow_perm (h : t.Alike t') (hpath : path ≠ "") :
    (filesBelow path t').Perm (filesBelow path t) := by
  rw [List.perm_ext_iff_of_nodup (nodup_filesBelow h.right hpath) (nodup_filesBelow h.left hpath)]
  exact fun p => ⟨h.symm.mem_filesBelow_of_mem, h.mem_filesBelow_of_mem⟩

/-- A path leads to a directory. -/
def DirectoryAt (t : FileTree) (root : String) (d : FileTree) : Prop :=
  d.IsDirectory ∧ ∃ way, t.LeadsTo root way ∧ t.at? way.reverse = some d

theorem files_eq_ok_iff {paths : List String} :
    t.files root = .ok paths ↔ ∃ d, t.DirectoryAt root d ∧ paths = filesBelow root d := by
  unfold FileTree.files DirectoryAt
  simp only [← resolve_eq_ok_iff_leadsTo]
  cases t.resolve root with
  | error e => simp
  | ok way =>
    simp only [Except.ok.injEq, exists_eq_left']
    split
    · next entries h =>
      rw [h]
      constructor
      · intro hx
        cases hx
        exact ⟨_, ⟨⟨entries, rfl⟩, rfl⟩, rfl⟩
      · intro hx
        obtain ⟨d, ⟨_, hd⟩, rfl⟩ := hx
        cases hd
        rfl
    · next h =>
      simp only [reduceCtorEq, false_iff, not_exists, not_and]
      intro d hx
      obtain ⟨⟨entries, rfl⟩, hd⟩ := hx
      exact absurd hd (h entries)

theorem Alike.files_error (h : t.Alike t') {error : FileError} (he : t.files root = .error error) :
    t'.files root = .error error := by
  unfold FileTree.files at he ⊢
  rw [← h.resolve]
  cases hr : t.resolve root with
  | error e => rwa [hr] at he
  | ok way =>
    rw [hr] at he
    have hentry := h.at? way.reverse
    dsimp only at he ⊢
    generalize t.at? way.reverse = e, t'.at? way.reverse = e' at hentry he ⊢
    cases hentry with
    | none => exact he
    | some hd =>
      cases hd.reordered with
      | file text => exact he
      | link target => exact he
      | directory => cases he

theorem Alike.directoryAt (h : t.Alike t') (hd : t.DirectoryAt root d) :
    ∃ d', d.Alike d' ∧ t'.DirectoryAt root d' := by
  obtain ⟨hdir, way, hleads, hat⟩ := hd
  have hentry := h.at? way.reverse
  rw [hat] at hentry
  generalize ht' : t'.at? way.reverse = d' at hentry
  cases hentry with
  | some hentry =>
    rw [← resolve_eq_ok_iff_leadsTo, h.resolve, resolve_eq_ok_iff_leadsTo] at hleads
    exact ⟨_, hentry, hentry.isDirectory_iff.1 hdir, way, hleads, ht'⟩

/-- Below a directory names lead to a file as it is. -/
theorem DirectoryAt.holds (hd : t.DirectoryAt root d) (ht : t.WellFormed) {names : List String}
    {text : String} (h : d.at? names = some (file (some text))) :
    t.Holds (Path.joins root names) text := by
  obtain ⟨hdir, way, ⟨hroot, n, hn, hleads⟩, hat⟩ := hd
  have hentry : t.at? (way.reverse ++ names) = some (file (some text)) := by
    rw [at?_append, hat]
    exact h
  have hnames : ∀ name ∈ names, Path.IsName name := fun name hmem =>
    (ht.at? hentry).2 name (List.mem_append_right _ hmem)
  have hne : names ≠ [] := by
    rintro rfl
    obtain ⟨entries, rfl⟩ := hdir
    cases h
  refine ⟨names.reverse ++ way, ⟨Path.joins_ne_empty hroot hnames, n, hn, ?_⟩, by simpa using hentry⟩
  have hcomponents : t.Leads n [] (Path.components root) way := by
    rcases Path.steps_cases root with hsteps | hsteps
    · rwa [hsteps] at hleads
    · rw [hsteps] at hleads
      exact hleads.of_here
  rw [Path.steps_joins hroot hnames hne]
  exact hcomponents.append (leads_names hentry (by simp))

end FileTree

namespace Workspace

open FileTree

variable {t t' d d' : FileTree} {root path text : String} {paths : List String}

/-! ## The Java files in order -/

/-- The Java files below a directory, in the order of paths. -/
def javaFilesBelow (root : String) (d : FileTree) : List String :=
  ((filesBelow root d).filter fun path => Path.extension? path == some "java").mergeSort Path.le

theorem mem_javaFilesBelow_iff (hd : d.WellFormed) : path ∈ javaFilesBelow root d ↔
    ∃ names e, d.at? names = some e ∧ ¬e.IsDirectory ∧ path = Path.joins root names ∧
      Path.extension? path = some "java" := by
  rw [javaFilesBelow, List.mem_mergeSort, List.mem_filter, mem_filesBelow_iff hd]
  simp only [beq_iff_eq, ← exists_and_right, and_assoc]

theorem sorted_javaFilesBelow (root : String) (d : FileTree) :
    (javaFilesBelow root d).Pairwise fun p q => Path.le p q = true := by
  unfold javaFilesBelow
  exact @List.pairwise_mergeSort _ Path.le (fun _ _ _ => Path.le_trans) Path.le_total _

theorem mem_filesBelow_of_mem_javaFilesBelow (h : path ∈ javaFilesBelow root d) :
    path ∈ filesBelow root d :=
  (List.mem_filter.1 (List.mem_mergeSort.1 h)).1

theorem pairwise_javaFilesBelow (hd : d.WellFormed) (hroot : root ≠ "") :
    (javaFilesBelow root d).Pairwise Path.Before := by
  have hnodup : (javaFilesBelow root d).Nodup :=
    (List.mergeSort_perm _ _).nodup_iff.2 ((nodup_filesBelow hd hroot).filter _)
  refine ((sorted_javaFilesBelow root d).and hnodup).imp_of_mem fun {p q} hp hq hpq => ⟨hpq.1, ?_⟩
  by_contra hsame
  exact hpq.2 (eq_of_mem_filesBelow hd hroot (mem_filesBelow_of_mem_javaFilesBelow hp)
    (mem_filesBelow_of_mem_javaFilesBelow hq) (by simpa using hsame))

/-- Sorting leaves nothing of the order in which directories are listed. -/
theorem javaFilesBelow_eq (h : d.Alike d') (hroot : root ≠ "") :
    javaFilesBelow root d = javaFilesBelow root d' := by
  have hperm : (javaFilesBelow root d).Perm (javaFilesBelow root d') :=
    (List.mergeSort_perm _ _).trans
      (((h.filesBelow_perm hroot).symm.filter _).trans (List.mergeSort_perm _ _).symm)
  refine hperm.eq_of_pairwise (fun p q hp hq hpq hqp => ?_) (sorted_javaFilesBelow root d)
    (sorted_javaFilesBelow root d')
  exact eq_of_mem_filesBelow h.left hroot (mem_filesBelow_of_mem_javaFilesBelow hp)
    (mem_filesBelow_of_mem_javaFilesBelow (hperm.mem_iff.2 hq)) (Path.same_of_le hpq hqp)

/-! ## Reading them -/

/-- The files at some paths that can be read, with their texts. -/
def readable (t : FileTree) (paths : List String) : List (String × String) :=
  paths.filterMap fun path => (t.read path).toOption.map fun text => (path, text)

/-- What is reported about files that are there and cannot be read. -/
def unreadable (t : FileTree) (paths : List String) : List Event :=
  paths.flatMap fun path =>
    match t.read path with
    | .ok _ | .error .notFound => []
    | .error e => [.unreadableFile path e]

theorem foldl_addRead (t : FileTree) (paths : List String) (ws : Logged Workspace) :
    paths.foldl (addRead t) ws =
      ⟨ws.value.addFiles (readable t paths), ws.log ++ unreadable t paths⟩ := by
  induction paths generalizing ws with
  | nil => simp [readable, unreadable, addFiles]
  | cons path paths ih =>
    rw [List.foldl_cons, ih]
    unfold addRead readable unreadable
    rw [List.filterMap_cons, List.flatMap_cons]
    rcases t.read path with ⟨_ | _ | _ | _ | _⟩ | text <;> simp [Except.toOption, addFiles]

theorem load_of_directoryAt (h : t.DirectoryAt root d) : load t root =
    .ok ⟨ofFiles (readable t (javaFilesBelow root d)), unreadable t (javaFilesBelow root d)⟩ := by
  have hfiles := files_eq_ok_iff.2 ⟨d, h, rfl⟩
  unfold load javaFiles
  rw [hfiles]
  show Except.ok ((javaFilesBelow root d).foldl (addRead t) ⟨empty, []⟩) = _
  rw [foldl_addRead]
  rfl

theorem mem_readable_iff : (path, text) ∈ readable t paths ↔ path ∈ paths ∧ t.Holds path text := by
  rw [readable, List.mem_filterMap]
  constructor
  · intro hx
    obtain ⟨p, hp, hread⟩ := hx
    obtain ⟨text', htext, heq⟩ := Option.map_eq_some_iff.1 hread
    cases heq
    refine ⟨hp, read_eq_ok_iff.1 ?_⟩
    cases he : t.read path with
    | error e => simp [he, Except.toOption] at htext
    | ok text' => simpa [he, Except.toOption] using htext
  · intro hx
    obtain ⟨hp, hread⟩ := hx
    refine ⟨path, hp, ?_⟩
    rw [read_eq_ok_iff.2 hread]
    rfl

theorem pairwise_readable (h : paths.Pairwise Path.Before) :
    (readable t paths).Pairwise fun f g => Path.Before f.1 g.1 := by
  refine h.filterMap _ fun p q hpq f hf g hg => ?_
  obtain ⟨_, _, rfl⟩ := Option.map_eq_some_iff.1 hf
  obtain ⟨_, _, rfl⟩ := Option.map_eq_some_iff.1 hg
  exact hpq

theorem load_eq_of_alike (h : t.Alike t') (root : String) : load t' root = load t root := by
  cases hfiles : t.files root with
  | error e =>
    unfold load javaFiles
    rw [hfiles, h.files_error hfiles]
    rfl
  | ok paths =>
    obtain ⟨d, hd, _⟩ := files_eq_ok_iff.1 hfiles
    obtain ⟨d', halike, hd'⟩ := h.directoryAt hd
    have hroot : root ≠ "" := by
      obtain ⟨_, _, ⟨hroot, _⟩, _⟩ := hd
      exact hroot
    have hread : t'.read = t.read := funext fun path => (h.read path).symm
    rw [load_of_directoryAt hd', load_of_directoryAt hd, ← javaFilesBelow_eq halike hroot]
    unfold readable unreadable
    rw [hread]

/-- What is loaded from a directory is the same in whatever order the entries of directories are
listed. Its files are those below the directory that are called `.java` and have a text, a link being
followed to what it leads to, each of them once and in the order of paths; and every Java file with a
text that is no link is among them. -/
theorem load_reordered (t : FileTree) (root : String) (ht : t.WellFormed) :
    (∀ t', t.Reordered t' → load t' root = load t root) ∧
    ∀ d, t.DirectoryAt root d → ∃ files log, load t root = .ok ⟨ofFiles files, log⟩ ∧
      files.Pairwise (fun f g => Path.Before f.1 g.1) ∧
      (∀ path text, (path, text) ∈ files ↔ ∃ names e, d.at? names = some e ∧ ¬e.IsDirectory ∧
        path = Path.joins root names ∧ Path.extension? path = some "java" ∧ t.Holds path text) ∧
      ∀ names text, d.at? names = some (.file (some text)) →
        Path.extension? (Path.joins root names) = some "java" →
          (Path.joins root names, text) ∈ files := by
  refine ⟨fun t' h => load_eq_of_alike (ht.alike h) root, fun d hd => ?_⟩
  have hd' := hd
  obtain ⟨_, way, ⟨hroot, _⟩, hat⟩ := hd'
  have hwell : d.WellFormed := (ht.at? hat).1
  have hfiles (path text : String) :
      (path, text) ∈ readable t (javaFilesBelow root d) ↔ ∃ names e, d.at? names = some e ∧
        ¬e.IsDirectory ∧ path = Path.joins root names ∧ Path.extension? path = some "java" ∧
          t.Holds path text := by
    rw [mem_readable_iff, mem_javaFilesBelow_iff hwell]
    simp only [← exists_and_right, and_assoc]
  refine ⟨_, _, load_of_directoryAt hd, pairwise_readable (pairwise_javaFilesBelow hwell hroot), hfiles,
    fun names text h hjava => ?_⟩
  rw [hfiles]
  exact ⟨names, _, h, by simp [IsDirectory], rfl, hjava, hd.holds ht h⟩

/-! ## A directory with a link -/

def linkedEntries : List (String × FileTree) :=
  [("b", .directory [("B.java", .file (some "class B\x7b\x7d"))]), ("L.java", .link "b/B.java"),
    ("A.java", .file none)]

theorem wellFormed_linked : (FileTree.directory linkedEntries).WellFormed := by
  refine .directory (by decide) (by decide) ?_
  simp only [linkedEntries, List.forall_mem_cons]
  refine ⟨.directory (by decide) (by decide) ?_, .link _, .file _, by simp⟩
  simpa using WellFormed.file _

theorem directoryAt_linked :
    (FileTree.directory linkedEntries).DirectoryAt "." (.directory linkedEntries) := by
  refine ⟨⟨_, rfl⟩, [], resolve_eq_ok_iff_leadsTo.1 ?_, rfl⟩
  decide +kernel

/-- From behind, the link is listed before the file that it leads to. -/
theorem load_reordered_linked :
    (FileTree.directory linkedEntries).WellFormed ∧
      (FileTree.directory linkedEntries).Reordered (.directory linkedEntries.reverse) ∧
      (FileTree.directory linkedEntries).DirectoryAt "." (.directory linkedEntries) ∧
      load (.directory linkedEntries.reverse) "." = load (.directory linkedEntries) "." ∧
      ∃ files log, load (.directory linkedEntries) "." = .ok ⟨ofFiles files, log⟩ ∧
        ("./b/B.java", "class B\x7b\x7d") ∈ files ∧ ("./L.java", "class B\x7b\x7d") ∈ files := by
  have hreordered := wellFormed_linked.reordered_of_perm linkedEntries.reverse_perm.symm
  obtain ⟨horder, hload⟩ := load_reordered _ "." wellFormed_linked
  obtain ⟨files, log, he, _, hmem, hplain⟩ := hload _ directoryAt_linked
  refine ⟨wellFormed_linked, hreordered, directoryAt_linked, horder _ hreordered, files, log, he,
    hplain ["b", "B.java"] _ rfl (by decide +kernel), (hmem _ _).2 ⟨["L.java"], .link "b/B.java", rfl, ?_⟩⟩
  exact ⟨by simp [IsDirectory], rfl, by decide +kernel, read_eq_ok_iff.1 (by decide +kernel)⟩

end Workspace

end InjectionPoints
