/-
Trees of files whose directories list their entries in another order (`Reordered`). What is found
at the end of a way does not depend on the order (`Reordered.at?`), so paths lead to the same
entries, through the same links, and to the same texts (`Reordered.read`).

Which text a path leads to is said without the search for it by `Leads`, one rule for each kind of
step; links are counted, and no more than `maxLinks` are followed (`read_eq_ok_iff`).
-/
import InjectionPoints.FileTree
import InjectionPoints.Proofs.Directory.Paths
import Mathlib.Data.Option.Basic

namespace InjectionPoints.FileTree

/-- The entries of each directory have different names, which are names. -/
inductive WellFormed : FileTree → Prop
  | file (text : Option String) : WellFormed (file text)
  | link (target : String) : WellFormed (link target)
  | directory {entries : List (String × FileTree)} (distinct : (entries.map Prod.fst).Nodup)
      (named : ∀ e ∈ entries, Path.IsName e.1) (below : ∀ e ∈ entries, WellFormed e.2) :
      WellFormed (directory entries)

/-- The same tree, with the entries of each directory in any order. -/
inductive Reordered : FileTree → FileTree → Prop
  | file (text : Option String) : Reordered (file text) (file text)
  | link (target : String) : Reordered (link target) (link target)
  | directory {entries entries' : List (String × FileTree)}
      (names : (entries.map Prod.fst).Perm (entries'.map Prod.fst))
      (below : ∀ name e e', (name, e) ∈ entries → (name, e') ∈ entries' → Reordered e e') :
      Reordered (directory entries) (directory entries')

/-- An entry is a directory. -/
def IsDirectory (t : FileTree) : Prop := ∃ entries, t = directory entries

variable {t t' e : FileTree} {entries entries' : List (String × FileTree)} {name path root : String}
  {names way : List String}

/-! ## Entries and their names -/

theorem lookup_eq_some_iff (distinct : (entries.map Prod.fst).Nodup) :
    entries.lookup name = some e ↔ (name, e) ∈ entries := by
  induction entries with
  | nil => simp
  | cons entry entries ih =>
    obtain ⟨name', e'⟩ := entry
    rw [List.map_cons, List.nodup_cons] at distinct
    by_cases h : name = name'
    · subst h
      rw [List.lookup_cons_self, List.mem_cons, Option.some.injEq, Prod.mk.injEq, eq_comm]
      refine ⟨fun he => .inl ⟨rfl, he⟩, fun hx => ?_⟩
      rcases hx with ⟨_, he⟩ | hmem
      · exact he
      · exact absurd (List.mem_map_of_mem hmem) distinct.1
    · have hne : (name == name') = false := beq_eq_false_iff_ne.2 h
      rw [List.lookup_cons, hne, ih distinct.2]
      simp [h]

theorem at?_nil (t : FileTree) : t.at? [] = some t := rfl

theorem at?_cons (t : FileTree) (name : String) (names : List String) :
    t.at? (name :: names) = (t.lookup? name).bind fun e => e.at? names := by
  have hnone (names : List String) :
      names.foldl (fun here name => here.bind (lookup? name)) (none : Option FileTree) = none := by
    induction names with
    | nil => rfl
    | cons name names ih => exact ih
  show names.foldl _ (t.lookup? name) = _
  cases t.lookup? name with
  | none => exact hnone names
  | some e => rfl

theorem at?_append (t : FileTree) (names names' : List String) :
    t.at? (names ++ names') = (t.at? names).bind fun e => e.at? names' := by
  induction names generalizing t with
  | nil => rfl
  | cons name names ih =>
    rw [List.cons_append, at?_cons, at?_cons, Option.bind_assoc]
    exact Option.bind_congr fun e _ => ih e

theorem at?_concat (t : FileTree) (way : List String) (name : String) :
    t.at? (name :: way).reverse = (t.at? way.reverse).bind (lookup? name) := by
  rw [List.reverse_cons, at?_append]
  refine Option.bind_congr fun e _ => ?_
  rw [at?_cons]
  cases e.lookup? name <;> rfl

/-- Entries are behind directories only. -/
theorem isDirectory_of_lookup? (h : t.lookup? name = some e) : t.IsDirectory := by
  cases t with
  | directory entries => exact ⟨entries, rfl⟩
  | file text => simp [lookup?] at h
  | link target => simp [lookup?] at h

theorem at?_eq_some_iff_of_not_isDirectory (h : ¬t.IsDirectory) {names : List String} :
    t.at? names = some e ↔ names = [] ∧ e = t := by
  cases names with
  | nil => simp [at?_nil, eq_comm]
  | cons name names =>
    rw [at?_cons]
    cases t with
    | directory entries => exact absurd ⟨entries, rfl⟩ h
    | file text => simp [lookup?]
    | link target => simp [lookup?]

theorem WellFormed.at? (h : t.WellFormed) (he : t.at? names = some e) :
    e.WellFormed ∧ ∀ name ∈ names, Path.IsName name := by
  induction names generalizing t with
  | nil =>
    obtain rfl : t = e := by simpa [at?_nil] using he
    exact ⟨h, by simp⟩
  | cons name names ih =>
    rw [at?_cons, Option.bind_eq_some_iff] at he
    obtain ⟨e', he', he⟩ := he
    cases h with
    | file text => simp [lookup?] at he'
    | link target => simp [lookup?] at he'
    | directory distinct named below =>
      have hmem := (lookup_eq_some_iff distinct).1 he'
      obtain ⟨hwell, hnames⟩ := ih (below _ hmem) he
      exact ⟨hwell, List.forall_mem_cons.2 ⟨named _ hmem, hnames⟩⟩

/-! ## Other orders -/

theorem WellFormed.reordered_self (h : t.WellFormed) : t.Reordered t := by
  induction h with
  | file text => exact .file text
  | link target => exact .link target
  | directory distinct named below ih =>
    refine .directory (.refl _) fun name e e' he he' => ?_
    have heq : e = e' := by
      rw [← lookup_eq_some_iff distinct] at he he'
      exact Option.some.inj (he.symm.trans he')
    subst heq
    exact ih _ he

theorem WellFormed.reordered_of_perm (h : (FileTree.directory entries).WellFormed)
    (hp : entries.Perm entries') :
    (FileTree.directory entries).Reordered (FileTree.directory entries') := by
  refine .directory (hp.map _) fun name e e' he he' => ?_
  cases h with
  | directory distinct named below =>
    have heq : e = e' := by
      rw [← hp.mem_iff] at he'
      rw [← lookup_eq_some_iff distinct] at he he'
      exact Option.some.inj (he.symm.trans he')
    subst heq
    exact (below _ he).reordered_self

theorem Reordered.symm (h : t.Reordered t') : t'.Reordered t := by
  induction h with
  | file text => exact .file text
  | link target => exact .link target
  | directory names below ih => exact .directory names.symm fun name e e' he he' => ih name e' e he' he

theorem Reordered.wellFormed (h : t.Reordered t') (ht : t.WellFormed) : t'.WellFormed := by
  induction h with
  | file text => exact .file text
  | link target => exact .link target
  | @directory entries entries' hnames hbelow ih =>
    cases ht with
    | directory distinct named below =>
      have hentry (entry : String × FileTree) (hmem : entry ∈ entries') :
          ∃ e, (entry.1, e) ∈ entries := by
        have hname := hnames.symm.subset (List.mem_map_of_mem (f := Prod.fst) hmem)
        obtain ⟨⟨name, e⟩, he, rfl⟩ := List.mem_map.1 hname
        exact ⟨e, he⟩
      refine .directory (hnames.nodup_iff.1 distinct) (fun entry hmem => ?_) fun entry hmem => ?_
      · obtain ⟨e, he⟩ := hentry entry hmem
        exact named (entry.1, e) he
      · obtain ⟨e, he⟩ := hentry entry hmem
        exact ih _ _ _ he hmem (below _ he)

/-- Two well-formed trees that differ in the order of entries only. -/
structure Alike (t t' : FileTree) : Prop where
  left : t.WellFormed
  right : t'.WellFormed
  reordered : t.Reordered t'

theorem WellFormed.alike (ht : t.WellFormed) (h : t.Reordered t') : t.Alike t' :=
  ⟨ht, h.wellFormed ht, h⟩

theorem Alike.symm (h : t.Alike t') : t'.Alike t := ⟨h.right, h.left, h.reordered.symm⟩

theorem Alike.isDirectory_iff (h : t.Alike t') : t.IsDirectory ↔ t'.IsDirectory := by
  cases h.reordered <;> simp [IsDirectory]

theorem Alike.lookup? (h : t.Alike t') (name : String) :
    Option.Rel Alike (t.lookup? name) (t'.lookup? name) := by
  obtain ⟨hl, hr, h⟩ := h
  cases h with
  | file text => exact .none
  | link target => exact .none
  | @directory entries entries' hnames hbelow =>
    cases hl with
    | directory distinct named below =>
    cases hr with
    | directory distinct' named' below' =>
      show Option.Rel Alike (entries.lookup name) (entries'.lookup name)
      cases he : entries.lookup name with
      | none =>
        cases he' : entries'.lookup name with
        | none => exact .none
        | some e' =>
          have hname := List.mem_map_of_mem (f := Prod.fst) ((lookup_eq_some_iff distinct').1 he')
          obtain ⟨⟨name, e⟩, hmem, rfl⟩ := List.mem_map.1 (hnames.symm.subset hname)
          rw [(lookup_eq_some_iff distinct).2 hmem] at he
          cases he
      | some e =>
        have hmem := (lookup_eq_some_iff distinct).1 he
        have hname := List.mem_map_of_mem (f := Prod.fst) hmem
        obtain ⟨⟨name', e'⟩, hmem', heq⟩ := List.mem_map.1 (hnames.subset hname)
        obtain rfl : name' = name := heq
        rw [(lookup_eq_some_iff distinct').2 hmem']
        exact .some ⟨below _ hmem, below' _ hmem', hbelow _ _ _ hmem hmem'⟩

theorem Alike.at? (h : t.Alike t') (names : List String) :
    Option.Rel Alike (t.at? names) (t'.at? names) := by
  induction names generalizing t t' with
  | nil => exact .some h
  | cons name names ih =>
    rw [at?_cons, at?_cons]
    have hentry := h.lookup? name
    generalize t.lookup? name = e, t'.lookup? name = e' at hentry ⊢
    cases hentry with
    | none => exact .none
    | some he => exact ih he

theorem Alike.step (h : t.Alike t') (way : List String) (c : Path.Component) :
    t.step way c = t'.step way c := by
  unfold FileTree.step
  have hhere := h.at? way.reverse
  generalize t.at? way.reverse = here, t'.at? way.reverse = here' at hhere ⊢
  cases hhere with
  | none => rfl
  | some hhere =>
    have hlookup := hhere.lookup?
    cases hhere.reordered with
    | file text => rfl
    | link target => rfl
    | @directory entries entries' =>
      cases c with
      | root => rfl
      | here => rfl
      | up => rfl
      | name name =>
        have hentry : Option.Rel Alike (entries.lookup name) (entries'.lookup name) := hlookup name
        dsimp only
        generalize entries.lookup name = e, entries'.lookup name = e' at hentry ⊢
        cases hentry with
        | none => rfl
        | some he => cases he.reordered <;> rfl

theorem Alike.walk (h : t.Alike t') (way : List String) (path : List Path.Component) :
    t.walk way path = t'.walk way path := by
  induction path generalizing way with
  | nil => rfl
  | cons c cs ih =>
    rw [FileTree.walk, FileTree.walk, h.step]
    simp only [ih]

theorem Alike.follow (h : t.Alike t') (links : Nat) (way : List String)
    (path : List Path.Component) : t.follow links way path = t'.follow links way path := by
  induction links generalizing way path with
  | zero =>
    unfold FileTree.follow
    rw [h.walk]
  | succ links ih =>
    unfold FileTree.follow
    rw [h.walk]
    rcases t'.walk way path with e | ⟨way, _ | ⟨target, rest⟩⟩
    · rfl
    · rfl
    · exact ih way _

theorem Alike.resolve (h : t.Alike t') (path : String) : t.resolve path = t'.resolve path := by
  unfold FileTree.resolve
  rw [h.follow]

/-- What is read does not depend on the order of entries. -/
theorem Alike.read (h : t.Alike t') (path : String) : t.read path = t'.read path := by
  unfold FileTree.read
  rw [h.resolve]
  cases t'.resolve path with
  | error e => rfl
  | ok way =>
    have hentry := h.at? way.reverse
    dsimp only
    generalize t.at? way.reverse = e, t'.at? way.reverse = e' at hentry ⊢
    cases hentry with
    | none => rfl
    | some he => cases he.reordered <;> rfl

/-! ## Where paths lead -/

/-- A step from the directory at the end of `way` that is no link. -/
inductive Arrives (t : FileTree) (way : List String) : Path.Component → List String → Prop
  | here {entries : List (String × FileTree)} (inside : t.at? way.reverse = some (directory entries)) :
      Arrives t way .here way
  | up {entries : List (String × FileTree)} (inside : t.at? way.reverse = some (directory entries)) :
      Arrives t way .up way.tail
  | entry {name : String} {e : FileTree} (found : t.at? (name :: way).reverse = some e)
      (plain : ∀ target, e ≠ link target) : Arrives t way (.name name) (name :: way)

/-- From the directory at the end of `way` a path leads to the end of another way, through `n`
links; the target of a link is followed from the directory that holds the link. -/
inductive Leads (t : FileTree) : Nat → List String → List Path.Component → List String → Prop
  | done (way : List String) : Leads t 0 way [] way
  | step {n : Nat} {c : Path.Component} {cs : List Path.Component} {way way' goal : List String}
      (arrives : t.Arrives way c way') (rest : Leads t n way' cs goal) : Leads t n way (c :: cs) goal
  | link {n : Nat} {name target : String} {cs : List Path.Component} {way goal : List String}
      (found : t.at? (name :: way).reverse = some (link target))
      (rest : Leads t n way (Path.steps target ++ cs) goal) : Leads t (n + 1) way (.name name :: cs) goal

variable {c : Path.Component} {cs ds : List Path.Component} {way' goal : List String} {target : String}
  {n : Nat}

theorem exists_inside (h : t.at? (name :: way).reverse = some e) :
    ∃ entries, t.at? way.reverse = some (directory entries) ∧ entries.lookup name = some e := by
  rw [at?_concat, Option.bind_eq_some_iff] at h
  obtain ⟨d, hd, he⟩ := h
  obtain ⟨entries, rfl⟩ := isDirectory_of_lookup? he
  exact ⟨entries, hd, he⟩

theorem step_eq_ok_none_iff : t.step way c = .ok (way', none) ↔ t.Arrives way c way' := by
  constructor
  · intro h
    unfold FileTree.step at h
    split at h
    · next entries hinside =>
      cases c with
      | root => cases h
      | here =>
        cases h
        exact .here hinside
      | up =>
        cases h
        exact .up hinside
      | name name =>
        dsimp only at h
        split at h
        · cases h
        · cases h
        · next e hplain he =>
          cases h
          refine .entry (e := e) ?_ hplain
          rw [at?_concat, hinside]
          exact he
    · cases h
  · intro h
    unfold FileTree.step
    cases h with
    | here hinside => rw [hinside]
    | up hinside => rw [hinside]
    | @entry name e hfound hplain =>
      obtain ⟨entries, hinside, he⟩ := exists_inside hfound
      rw [hinside]
      dsimp only
      rw [he]
      cases e with
      | link target => exact absurd rfl (hplain target)
      | file text => rfl
      | directory entries => rfl

theorem step_eq_ok_some_iff : t.step way c = .ok (way', some target) ↔
    way' = way ∧ ∃ name, c = .name name ∧ t.at? (name :: way).reverse = some (link target) := by
  constructor
  · intro h
    unfold FileTree.step at h
    split at h
    · next entries hinside =>
      cases c with
      | root => cases h
      | here => cases h
      | up => cases h
      | name name =>
        dsimp only at h
        split at h
        · cases h
        · next he =>
          cases h
          refine ⟨rfl, name, rfl, ?_⟩
          rw [at?_concat, hinside]
          exact he
        · cases h
    · cases h
  · intro hx
    obtain ⟨rfl, name, rfl, hfound⟩ := hx
    obtain ⟨entries, hinside, he⟩ := exists_inside hfound
    unfold FileTree.step
    rw [hinside]
    dsimp only
    rw [he]

theorem Leads.append {m : Nat} (h : t.Leads n way cs way') (h' : t.Leads m way' ds goal) :
    t.Leads (n + m) way (cs ++ ds) goal := by
  induction h with
  | done way => simpa using h'
  | step arrives _ ih => exact .step arrives (ih h')
  | @link n name target cs way goal found _ ih =>
    rw [Nat.add_right_comm]
    refine .link found ?_
    show t.Leads (n + m) way (Path.steps target ++ (cs ++ ds)) _
    rw [← List.append_assoc]
    exact ih h'

/-- Names of entries lead to what is at the end of them, unless that is a link. -/
theorem leads_names (h : t.at? (way.reverse ++ names) = some e) (plain : ∀ target, e ≠ link target) :
    t.Leads 0 way (names.map .name) (names.reverse ++ way) := by
  induction names generalizing way with
  | nil => exact .done way
  | cons name names ih =>
    have hway : way.reverse ++ name :: names = (name :: way).reverse ++ names := by simp
    rw [hway] at h
    obtain ⟨e', he', he⟩ := Option.bind_eq_some_iff.1 ((at?_append _ _ _).symm.trans h)
    rw [List.reverse_cons, List.append_assoc]
    refine .step (.entry he' fun target hlink => ?_) (ih h)
    -- behind a link there is nothing but the link
    subst hlink
    have hnot : ¬(link target).IsDirectory := by simp [IsDirectory]
    obtain ⟨_, rfl⟩ := (at?_eq_some_iff_of_not_isDirectory hnot).1 he
    exact plain target rfl

/-- A path that ends by asking for a directory leads where it leads without. -/
theorem Leads.of_here (h : t.Leads n way (cs ++ [.here]) goal) : t.Leads n way cs goal := by
  generalize hds : cs ++ [.here] = ds at h
  induction h generalizing cs with
  | done way => simp at hds
  | step arrives rest ih =>
    cases cs with
    | nil =>
      obtain ⟨rfl, rfl⟩ := List.cons.inj hds
      cases arrives
      exact rest
    | cons c cs =>
      obtain ⟨rfl, htail⟩ := List.cons.inj hds
      exact .step arrives (ih htail)
  | link found rest ih =>
    cases cs with
    | nil => cases hds
    | cons c cs =>
      obtain ⟨rfl, rfl⟩ := List.cons.inj hds
      exact .link found (ih (by simp))

/-- A walk that is over has led through no link. -/
theorem leads_of_walk (h : t.walk way cs = .ok (way', none)) : t.Leads 0 way cs way' := by
  induction cs generalizing way with
  | nil =>
    cases h
    exact .done _
  | cons c cs ih =>
    unfold FileTree.walk at h
    split at h
    · cases h
    · next hstep => exact .step (step_eq_ok_none_iff.1 hstep) (ih h)
    · cases h

/-- A walk that stops at a link leads on by the target of the link. -/
theorem leads_of_walk_link {rest : List Path.Component}
    (h : t.walk way cs = .ok (way', some (target, rest)))
    (hrest : t.Leads n way' (Path.steps target ++ rest) goal) : t.Leads (n + 1) way cs goal := by
  induction cs generalizing way with
  | nil => cases h
  | cons c cs ih =>
    unfold FileTree.walk at h
    split at h
    · cases h
    · next hstep => exact .step (step_eq_ok_none_iff.1 hstep) (ih h)
    · next hstep =>
      cases h
      obtain ⟨rfl, name, rfl, hfound⟩ := step_eq_ok_some_iff.1 hstep
      exact .link hfound hrest

theorem leads_of_follow {links : Nat} (h : t.follow links way cs = .ok goal) :
    ∃ n, n ≤ links ∧ t.Leads n way cs goal := by
  induction links generalizing way cs with
  | zero =>
    unfold FileTree.follow at h
    split at h
    · cases h
    · next hwalk =>
      cases h
      exact ⟨0, Nat.le_refl _, leads_of_walk hwalk⟩
    · cases h
  | succ links ih =>
    unfold FileTree.follow at h
    split at h
    · cases h
    · next hwalk =>
      cases h
      exact ⟨0, Nat.zero_le _, leads_of_walk hwalk⟩
    · next hwalk =>
      obtain ⟨n, hn, hleads⟩ := ih h
      exact ⟨n + 1, by omega, leads_of_walk_link hwalk hleads⟩

theorem follow_cons (t : FileTree) (links : Nat) (way : List String) (c : Path.Component)
    (cs : List Path.Component) : t.follow links way (c :: cs) =
      match t.step way c with
      | .error e => .error e
      | .ok (way, none) => t.follow links way cs
      | .ok (way, some target) =>
        match links with
        | 0 => .error .tooManyLinks
        | links + 1 => t.follow links way (Path.steps target ++ cs) := by
  rw [FileTree.follow.eq_def, FileTree.walk]
  rcases t.step way c with e | ⟨way, _ | target⟩
  · rfl
  · exact (FileTree.follow.eq_def t links way cs).symm
  · rfl

theorem follow_of_leads (h : t.Leads n way cs goal) {links : Nat} (hn : n ≤ links) :
    t.follow links way cs = .ok goal := by
  induction h generalizing links with
  | done way => unfold FileTree.follow; rfl
  | step arrives _ ih =>
    rw [follow_cons, step_eq_ok_none_iff.2 arrives]
    exact ih hn
  | link found _ ih =>
    rw [follow_cons, step_eq_ok_some_iff.2 ⟨rfl, _, rfl, found⟩]
    obtain ⟨links, rfl⟩ : ∃ m, links = m + 1 := ⟨links - 1, by omega⟩
    exact ih (by omega)

theorem follow_eq_ok_iff {links : Nat} :
    t.follow links way cs = .ok goal ↔ ∃ n, n ≤ links ∧ t.Leads n way cs goal :=
  ⟨leads_of_follow, fun ⟨_, hn, h⟩ => follow_of_leads h hn⟩

/-- The root of a tree is the directory from which a path leads to an entry. -/
def LeadsTo (t : FileTree) (path : String) (way : List String) : Prop :=
  path ≠ "" ∧ ∃ n, n ≤ maxLinks ∧ t.Leads n [] (Path.steps path) way

theorem resolve_eq_ok_iff_leadsTo : t.resolve path = .ok way ↔ t.LeadsTo path way := by
  unfold FileTree.resolve LeadsTo
  rw [← follow_eq_ok_iff]
  by_cases h : path = ""
  · simp [h]
  · simp [h]

/-- A path leads to a file with a text. -/
def Holds (t : FileTree) (path text : String) : Prop :=
  ∃ way, t.LeadsTo path way ∧ t.at? way.reverse = some (file (some text))

theorem read_eq_ok_iff {text : String} : t.read path = .ok text ↔ t.Holds path text := by
  unfold FileTree.read Holds
  simp only [← resolve_eq_ok_iff_leadsTo]
  cases t.resolve path with
  | error e => simp
  | ok way =>
    simp only [Except.ok.injEq, exists_eq_left']
    split <;> simp_all

end InjectionPoints.FileTree
