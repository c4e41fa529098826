/-
The names of classes. A class is called by a word (`isWord_name`), and the names of the classes around it
and of its package stand in front, so its names begin and end with characters of words (`Worded`).
Looking a class up by one of its names reads every `/` and every `$` as a dot, which leads back to the
class exactly if neither is in its source name (`byName?_eq_some_iff`).
-/
import InjectionPoints.Proofs.Grammar.Identifiers
import InjectionPoints.Proofs.MethodPlaces
import InjectionPoints.Proofs.SelectorLiteral

namespace InjectionPoints

open Java Java.Grammar Text

/-! ## Simple names -/

theorem class_name_test : (treeConstructs.all fun c => !c.shape.any (Shape.may fun x =>
    !(!(Kind.typeDeclarations.contains c.kind && x.role == some .name) ||
      x.kind == .identifier))) = true := by
  decide +kernel

/-- A class has the name that its declaration gives. -/
theorem ClassDecl.exists_name_of_ofTree? {source : String} {file : FileId} {package : Option String}
    {outer : Option (Nat × ClassDecl)} {t : Tree} {c : ClassDecl}
    (h : ofTree? source file package outer t = some c) :
    ∃ n, t.child? .name = some n ∧ c.name = n.text source := by
  unfold ofTree? at h
  obtain ⟨n, hn, h⟩ := Option.bind_eq_some_iff.1 h
  obtain rfl := Option.some.inj h
  exact ⟨n, hn, rfl⟩

theorem Workspace.isWord_name (files : List (String × String)) {c : ClassDecl}
    (hc : c ∈ (ofFiles files).index.classes) : IsWord c.name := by
  obtain ⟨f, t, h⟩ := exists_isDeclaredBy files c hc
  obtain ⟨package, outer, hread⟩ := h.reads
  obtain ⟨n, hn, hname⟩ := ClassDecl.exists_name_of_ofTree? hread
  have ht := h.ofText?
  have hmem : n ∈ t.children := List.mem_of_find?_eq_some hn
  have hrole : n.field = some .name := by simpa using List.find?_some hn
  have hkind : n.kind = .identifier := by
    have hpasses := (Tree.isConstruct_of_ofText? ht h.below).child_passes
      (p := fun k x => !(Kind.typeDeclarations.contains k && x.role == some .name) ||
        x.kind == .identifier) class_name_test hmem
      (Tree.not_comment_of_role ht h.below hmem hrole)
    have hdeclares : t.kind ∈ Kind.typeDeclarations := List.contains_iff_mem.1 h.kind
    simpa [Tree.part, hrole, hdeclares] using hpasses
  rw [hname]
  refine Tree.isWord_of_name ht ?_ (by rw [hkind]; decide)
  exact Tree.mem_preorder_trans h.below (Tree.mem_preorder_of_mem_children hmem)

/-! ## Packages -/

/-- A text that begins with a character of a word. -/
def BeginsWord (cs : List Char) : Prop := ∃ c rest, cs = c :: rest ∧ isWordChar c = true

namespace FileScope

variable {source : String} {root : Tree}

theorem package_addImport (scope : FileScope) (source : String) (t : Tree) :
    (scope.addImport source t).package = scope.package := by
  unfold addImport
  split
  · rfl
  · dsimp only
    repeat' split
    all_goals rfl

theorem mem_of_nameNode? {t n : Tree} (h : nameNode? t = some n) :
    n ∈ t.children ∧ n.kind ∈ Tree.dottedKinds := by
  have hnamed : ∃ k ∈ Tree.dottedKinds, t.named? k = some n := by
    rcases (Option.orElse_eq_some _ _ _).1 h with h | ⟨-, h⟩
    · exact ⟨_, by decide, h⟩
    · exact ⟨_, by decide, h⟩
  obtain ⟨k, hk, hfound⟩ := hnamed
  have hkind : n.kind = k := by simpa using List.find?_some hfound
  exact ⟨(List.mem_filter.1 (List.mem_of_find?_eq_some hfound)).1, hkind ▸ hk⟩

/-- The package of a scope begins with a character of a word. -/
def HasWord (scope : FileScope) : Prop := ∀ p, scope.package = some p → BeginsWord p.toList

theorem hasWord_add (h : Tree.ofText? source = some root) {scope : FileScope} {t : Tree}
    (ht : t ∈ root.preorder) (hs : scope.HasWord) : (add source scope t).HasWord := by
  intro p hp
  unfold add at hp
  split at hp
  · obtain ⟨n, hname, rfl⟩ := Option.map_eq_some_iff.1 hp
    obtain ⟨hn, hk⟩ := mem_of_nameNode? hname
    exact Tree.exists_wordChar h
      (Tree.mem_preorder_trans ht (Tree.mem_preorder_of_mem_children hn)) hk
  · rw [package_addImport] at hp
    exact hs p hp
  · exact hs p hp

theorem hasWord_ofTree (h : Tree.ofText? source = some root) : (ofTree source root).HasWord := by
  have hempty : empty.HasWord := fun p hp => by simp [empty] at hp
  refine List.foldlRecOn root.namedChildren (add source) hempty fun scope hs t ht => ?_
  exact hasWord_add h (Tree.mem_preorder_of_mem_children (List.mem_filter.1 ht).1) hs

end FileScope

theorem Workspace.beginsWord_package (files : List (String × String)) {file : FileId} {package : String}
    (h : (ofFiles files).index.package? file = some package) : BeginsWord package.toList := by
  obtain ⟨-, hscopes, -⟩ := ofFiles_invariant files
  obtain ⟨scope, hscope, hp⟩ := Option.bind_eq_some_iff.1 h
  rw [ClassIndex.scope?, hscopes, List.getElem?_map, Option.map_eq_some_iff] at hscope
  obtain ⟨f, hf, rfl⟩ := hscope
  have hfile := List.mem_of_getElem? hf
  rw [ofFiles, files_addFiles, empty, List.nil_append] at hfile
  obtain ⟨⟨path, text⟩, -, rfl⟩ := List.mem_map.1 hfile
  rw [text_ofText] at hp
  unfold SourceFile.ofText at hp
  split at hp
  · next ht => exact FileScope.hasWord_ofTree ht _ hp
  · simp [FileScope.ofTree, Tree.program, Tree.namedChildren, FileScope.empty] at hp

/-! ## Full names -/

/-- A text that begins and ends with characters of words. -/
structure Worded (cs : List Char) : Prop where
  begins : BeginsWord cs
  ends : ∃ init c, cs = init ++ [c] ∧ isWordChar c = true

theorem Worded.of_isWord {s : String} (h : IsWord s) : Worded s.toList where
  begins := by
    obtain ⟨c, rest, hs⟩ := List.exists_cons_of_ne_nil h.1
    exact ⟨c, rest, hs, h.chars c (by simp [hs])⟩
  ends :=
    ⟨s.toList.dropLast, s.toList.getLast h.1, (List.dropLast_concat_getLast h.1).symm,
      h.chars _ (List.getLast_mem h.1)⟩

theorem Worded.append {cs ds : List Char} (h : BeginsWord cs) (hd : Worded ds) :
    Worded (cs ++ ds) where
  begins := by
    obtain ⟨c, rest, rfl, hc⟩ := h
    exact ⟨c, rest ++ ds, rfl, hc⟩
  ends := by
    obtain ⟨init, c, rfl, hc⟩ := hd.ends
    exact ⟨cs ++ init, c, by simp, hc⟩

theorem BeginsWord.append {cs : List Char} (h : BeginsWord cs) (ds : List Char) :
    BeginsWord (cs ++ ds) := by
  obtain ⟨c, rest, rfl, hc⟩ := h
  exact ⟨c, rest ++ ds, rfl, hc⟩

theorem internalChars_singleton {c : Char} (hc : isWordChar c = true) :
    Selector.internalChars [c] = [c] := by
  have hdot : c ≠ '.' := by
    rintro rfl
    exact absurd hc (by decide)
  simp [Selector.internalChars, hdot]

theorem Worded.internalChars {cs : List Char} (h : Worded cs) : Worded (Selector.internalChars cs) where
  begins := by
    obtain ⟨c, rest, rfl, hc⟩ := h.begins
    have hsplit : Selector.internalChars (c :: rest) =
        Selector.internalChars [c] ++ Selector.internalChars rest := rfl
    rw [hsplit, internalChars_singleton hc]
    exact ⟨c, _, rfl, hc⟩
  ends := by
    obtain ⟨init, c, rfl, hc⟩ := h.ends
    have hsplit : Selector.internalChars (init ++ [c]) =
        Selector.internalChars init ++ Selector.internalChars [c] := List.map_append
    exact ⟨_, c, by rw [hsplit, internalChars_singleton hc], hc⟩

/-- White space around it is taken off. -/
theorem Worded.trimChars_eq {before cs behind : List Char} (h : Worded cs)
    (hbefore : ∀ c ∈ before, isBlank c = true) (hbehind : ∀ c ∈ behind, isBlank c = true) :
    trimChars (before ++ cs ++ behind) = cs := by
  obtain ⟨c, rest, hcs, hc⟩ := h.begins
  obtain ⟨init, d, hds, hd⟩ := h.ends
  have hfront : (cs ++ behind).dropWhile isBlank = cs ++ behind :=
    dropWhile_isBlank_eq_self (by simp [hcs, isBlank_of_isWordChar hc])
  have hback : cs.reverse.dropWhile isBlank = cs.reverse :=
    dropWhile_isBlank_eq_self (by simp [hds, isBlank_of_isWordChar hd])
  rw [trimChars, List.append_assoc, List.dropWhile_append_of_pos hbefore, hfront, List.reverse_append,
    List.dropWhile_append_of_pos (by simpa using hbehind), hback, List.reverse_reverse]

namespace ClassIndex

/-- The separators of binary and internal names, read as those of source names. -/
def dotted (cs : List Char) : List Char := cs.map fun c => if c == '/' || c == '$' then '.' else c

theorem sourceForm_eq (name : String) :
    sourceForm name = String.ofList (dotted (trimChars name.toList)) := rfl

theorem dotted_append (cs ds : List Char) : dotted (cs ++ ds) = dotted cs ++ dotted ds :=
  List.map_append

/-- Internal names have slashes where binary names have dots. -/
theorem dotted_internalChars (cs : List Char) : dotted (Selector.internalChars cs) = dotted cs := by
  simp only [dotted, Selector.internalChars, List.map_map]
  refine List.map_congr_left fun c _ => ?_
  by_cases hc : c = '.' <;> simp [hc]

theorem dotted_eq_self_iff {cs : List Char} : dotted cs = cs ↔ ∀ c ∈ cs, c ≠ '/' ∧ c ≠ '$' := by
  have hone (c : Char) : (if c == '/' || c == '$' then '.' else c) = c ↔ c ≠ '/' ∧ c ≠ '$' := by
    by_cases hslash : c = '/'
    · simp [hslash]
    · by_cases hdollar : c = '$' <;> simp [hslash, hdollar]
  conv => lhs; rhs; rw [← List.map_id cs]
  rw [dotted, List.map_inj_left]
  simp only [id, hone]

variable {package? : FileId → Option String} {classes : List ClassDecl}

/-- Binary names are the source names with other separators. -/
theorem WellNamed.names (h : WellNamed package? classes) (hwords : ∀ c ∈ classes, IsWord c.name)
    (hpackages : ∀ file p, package? file = some p → BeginsWord p.toList) (n : Nat) {c : ClassDecl}
    (hc : classes[n]? = some c) :
    Worded c.sourceName.toList ∧ Worded c.binaryName.toList ∧
      dotted c.binaryName.toList = dotted c.sourceName.toList := by
  induction n using Nat.strongRecOn generalizing c with
  | ind n ih =>
    have hword : Worded c.name.toList := .of_isWord (hwords c (List.mem_of_getElem? hc))
    cases ho : c.outer with
    | none =>
      obtain ⟨hsource, hbinary⟩ := (h n c hc).top ho
      have hqualified : Worded (qualify (package? c.file) c.name).toList := by
        unfold qualify
        split
        · next p hp =>
          rw [String.toList_append, String.toList_append]
          exact .append ((hpackages _ p hp).append _) hword
        · exact hword
      rw [hsource, hbinary]
      exact ⟨hqualified, hqualified, rfl⟩
    | some o =>
      obtain ⟨hlt, around, haround, -, hsource, hbinary⟩ := (h n c hc).inner o ho
      obtain ⟨hs, hb, hsame⟩ := ih o hlt haround
      have hseparator : dotted "$".toList = dotted ".".toList := by decide
      rw [hsource, hbinary]
      simp only [String.toList_append, dotted_append, hsame, hseparator]
      exact ⟨.append (hs.begins.append _) hword, .append (hb.begins.append _) hword, trivial⟩

end ClassIndex

namespace Workspace

open ClassIndex

/-- The names of a class begin and end with characters of words and differ in separators only. -/
theorem worded_of_name (files : List (String × String)) (c : (ofFiles files).index.ClassId)
    {name : String} (hname : name ∈ [((ofFiles files).index.decl c).sourceName,
      ((ofFiles files).index.decl c).binaryName, ((ofFiles files).index.decl c).internalName]) :
    Worded name.toList ∧
      dotted name.toList = dotted ((ofFiles files).index.decl c).sourceName.toList := by
  obtain ⟨hnamed, -⟩ := ofFiles_invariant files
  have hwell : WellNamed (ofFiles files).index.package? (ofFiles files).index.classes :=
    fun n c hc => (hnamed n c hc).2
  obtain ⟨hsource, hbinary, hsame⟩ := hwell.names (fun c => isWord_name files)
    (fun _ _ => beginsWord_package files) c (List.getElem?_eq_getElem c.isLt)
  simp only [List.mem_cons, List.not_mem_nil, or_false] at hname
  rcases hname with rfl | rfl | rfl
  · exact ⟨hsource, rfl⟩
  · exact ⟨hbinary, hsame⟩
  · rw [ClassDecl.internalName, internalForm, String.toList_ofList, dotted_internalChars]
    exact ⟨hbinary.internalChars, hsame⟩

/-- Where source names are unique, a class is found under any of its names, with white space around it
or without, exactly if its source name has neither `/` nor `$`. -/
theorem byName?_eq_some_iff (files : List (String × String))
    (hunique : ∀ c d : (ofFiles files).index.ClassId,
      ((ofFiles files).index.decl c).sourceName = ((ofFiles files).index.decl d).sourceName → c = d)
    (c : (ofFiles files).index.ClassId) {name : String} {before behind : List Char}
    (hname : name ∈ [((ofFiles files).index.decl c).sourceName,
      ((ofFiles files).index.decl c).binaryName, ((ofFiles files).index.decl c).internalName])
    (hbefore : ∀ b ∈ before, isBlank b = true) (hbehind : ∀ b ∈ behind, isBlank b = true) :
    (ofFiles files).index.byName? (String.ofList (before ++ name.toList ++ behind)) = some c ↔
      ∀ s ∈ ((ofFiles files).index.decl c).sourceName.toList, s ≠ '/' ∧ s ≠ '$' := by
  obtain ⟨hworded, hdotted⟩ := worded_of_name files c hname
  have hform : sourceForm (String.ofList (before ++ name.toList ++ behind)) =
      String.ofList (dotted ((ofFiles files).index.decl c).sourceName.toList) := by
    rw [sourceForm_eq, String.toList_ofList, hworded.trimChars_eq hbefore hbehind, hdotted]
  rw [byName?, hform, bySourceName?_eq_some_iff, ← dotted_eq_self_iff]
  constructor
  · intro h
    have := congrArg String.toList h.1
    rw [String.toList_ofList] at this
    exact this.symm
  · intro h
    rw [h, String.ofList_toList]
    exact ⟨rfl, fun d hd => (hunique d c hd).le⟩

/-! ### Names with and without a dollar sign of their own -/

def nestedFiles : List (String × String) :=
  [("Outer.java", "package p; class Outer\x7bclass Inner\x7b\x7d\x7d")]

def innerId : (ofFiles nestedFiles).index.ClassId := ⟨1, by decide +kernel⟩

theorem byName?_inner :
    (∀ c d : (ofFiles nestedFiles).index.ClassId,
      ((ofFiles nestedFiles).index.decl c).sourceName =
        ((ofFiles nestedFiles).index.decl d).sourceName → c = d) ∧
      ((ofFiles nestedFiles).index.decl innerId).internalName = "p/Outer$Inner" ∧
      (ofFiles nestedFiles).index.byName? " p/Outer$Inner\n" = some innerId := by
  obtain ⟨hunique, hname, hsource⟩ :
      (∀ c d : (ofFiles nestedFiles).index.ClassId,
        ((ofFiles nestedFiles).index.decl c).sourceName =
          ((ofFiles nestedFiles).index.decl d).sourceName → c = d) ∧
        ((ofFiles nestedFiles).index.decl innerId).internalName = "p/Outer$Inner" ∧
        ((ofFiles nestedFiles).index.decl innerId).sourceName = "p.Outer.Inner" := by
    decide +kernel
  have hmem : "p/Outer$Inner" ∈ [((ofFiles nestedFiles).index.decl innerId).sourceName,
      ((ofFiles nestedFiles).index.decl innerId).binaryName,
      ((ofFiles nestedFiles).index.decl innerId).internalName] := by
    rw [hname]
    simp
  refine ⟨hunique, hname, ?_⟩
  have hplain : ∀ s ∈ ((ofFiles nestedFiles).index.decl innerId).sourceName.toList,
      s ≠ '/' ∧ s ≠ '$' := by simp [hsource]
  have hspace : ∀ b ∈ [' '], isBlank b = true := List.forall_mem_singleton.2 (by decide)
  have hfeed : ∀ b ∈ ['\n'], isBlank b = true := List.forall_mem_singleton.2 (by decide)
  exact (byName?_eq_some_iff nestedFiles hunique innerId hmem hspace hfeed).2 hplain

def dollarFiles : List (String × String) := [("Big.java", "class Big$Dog\x7b\x7d")]

def dollarId : (ofFiles dollarFiles).index.ClassId := ⟨0, by decide +kernel⟩

/-- The only class there is is not found under its binary name. -/
theorem not_byName?_dollar :
    (∀ c d : (ofFiles dollarFiles).index.ClassId,
      ((ofFiles dollarFiles).index.decl c).sourceName =
        ((ofFiles dollarFiles).index.decl d).sourceName → c = d) ∧
      ((ofFiles dollarFiles).index.decl dollarId).binaryName = "Big$Dog" ∧
      (ofFiles dollarFiles).index.byName? "Big$Dog" ≠ some dollarId := by
  decide +kernel

end Workspace

end InjectionPoints
