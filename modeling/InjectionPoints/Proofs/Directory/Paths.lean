/-
Paths below a directory. A name behind a directory is one more component (`components_join`), so
the paths that names lead to differ when the names do (`joins_injective`); and paths are ordered
totally, those of the same components apart (`le_total`, `le_trans`, `same_of_le`).
-/
import InjectionPoints.Path
import Mathlib.Data.List.Induction

namespace InjectionPoints.Path

/-! ## The order -/

theorem Component.le_total (a b : Component) : (a.le b || b.le a) = true := by
  cases a <;> cases b <;> simp [Component.le, Component.rank, String.le_total]

theorem Component.le_trans {a b c : Component} (hab : a.le b = true) (hbc : b.le c = true) :
    a.le c = true := by
  cases a <;> cases b <;> cases c <;> simp_all [Component.le, Component.rank]
  exact String.le_trans hab hbc

theorem Component.le_antisymm {a b : Component} (hab : a.le b = true) (hba : b.le a = true) :
    a = b := by
  cases a <;> cases b <;> simp_all [Component.le, Component.rank]
  exact String.le_antisymm hab hba

theorem componentsLe_total (as bs : List Component) :
    (componentsLe as bs || componentsLe bs as) = true := by
  induction as generalizing bs with
  | nil => simp [componentsLe]
  | cons a as ih =>
    cases bs with
    | nil => simp [componentsLe]
    | cons b bs =>
      by_cases h : a = b
      · simpa [componentsLe, h] using ih bs
      · simpa [componentsLe, h, Ne.symm h] using Component.le_total a b

theorem componentsLe_antisymm {as bs : List Component} (hab : componentsLe as bs = true)
    (hba : componentsLe bs as = true) : as = bs := by
  induction as generalizing bs with
  | nil =>
    cases bs with
    | nil => rfl
    | cons b bs => simp [componentsLe] at hba
  | cons a as ih =>
    cases bs with
    | nil => simp [componentsLe] at hab
    | cons b bs =>
      by_cases h : a = b
      · subst h
        simp only [componentsLe, if_true] at hab hba
        rw [ih hab hba]
      · simp only [componentsLe, h, Ne.symm h, if_false] at hab hba
        exact absurd (Component.le_antisymm hab hba) h

theorem componentsLe_trans {as bs cs : List Component} (hab : componentsLe as bs = true)
    (hbc : componentsLe bs cs = true) : componentsLe as cs = true := by
  induction as generalizing bs cs with
  | nil => simp [componentsLe]
  | cons a as ih =>
    cases bs with
    | nil => simp [componentsLe] at hab
    | cons b bs =>
      cases cs with
      | nil => simp [componentsLe] at hbc
      | cons c cs =>
        by_cases h₁ : a = b
        · subst h₁
          by_cases h₂ : a = c
          · subst h₂
            simp only [componentsLe, if_true] at hab hbc ⊢
            exact ih hab hbc
          · simpa only [componentsLe, h₂, if_false] using hbc
        · simp only [componentsLe, h₁, if_false] at hab
          by_cases h₂ : b = c
          · subst h₂
            simpa only [componentsLe, h₁, if_false] using hab
          · simp only [componentsLe, h₂, if_false] at hbc
            have h₃ : a ≠ c := by
              rintro rfl
              exact h₁ (Component.le_antisymm hab hbc)
            simpa only [componentsLe, h₃, if_false] using Component.le_trans hab hbc

theorem le_total (p q : String) : (le p q || le q p) = true := componentsLe_total _ _

theorem le_trans {p q r : String} (hpq : le p q = true) (hqr : le q r = true) : le p r = true :=
  componentsLe_trans hpq hqr

theorem same_of_le {p q : String} (hpq : le p q = true) (hqp : le q p = true) :
    same p q = true := by
  simpa [same] using componentsLe_antisymm hpq hqp

/-- A path comes before another one. -/
def Before (p q : String) : Prop := le p q = true ∧ same p q = false

/-! ## Names behind a directory -/

/-- A text is the name of an entry of a directory. -/
structure IsName (name : String) : Prop where
  ne_nil : name.toList ≠ []
  ne_here : name.toList ≠ ['.']
  ne_up : name.toList ≠ ['.', '.']
  no_separator : '/' ∉ name.toList

instance (name : String) : Decidable (IsName name) :=
  decidable_of_iff (name.toList ≠ [] ∧ name.toList ≠ ['.'] ∧ name.toList ≠ ['.', '.'] ∧
    '/' ∉ name.toList) ⟨fun h => ⟨h.1, h.2.1, h.2.2.1, h.2.2.2⟩,
      fun h => ⟨h.ne_nil, h.ne_here, h.ne_up, h.no_separator⟩⟩

/-- The path of names behind one another below a directory. -/
def joins (directory : String) (names : List String) : String := names.foldl join directory

theorem pieces_ne_nil (cs : List Char) : pieces cs ≠ [] := by
  cases cs with
  | nil => simp [pieces]
  | cons c cs =>
    rw [pieces]
    split
    · simp
    · split <;> simp

theorem pieces_separator (as bs : List Char) : pieces (as ++ '/' :: bs) = pieces as ++ pieces bs := by
  induction as with
  | nil => simp [pieces]
  | cons a as ih =>
    rw [List.cons_append, pieces, pieces, ih]
    split
    · rfl
    · cases h : pieces as with
      | nil => exact absurd h (pieces_ne_nil as)
      | cons p ps => rfl

theorem pieces_of_not_mem {cs : List Char} (h : '/' ∉ cs) : pieces cs = [cs] := by
  induction cs with
  | nil => rfl
  | cons c cs ih =>
    rw [List.mem_cons, not_or] at h
    rw [pieces, if_neg (Ne.symm h.1), ih h.2]

theorem component?_of_isName {name : String} (h : IsName name) :
    component? name.toList = some (.name name) := by
  simp [component?, h.ne_nil, h.ne_here, h.ne_up]

/-- What the piece at the beginning of a path is, when it is not all of the path or not empty. -/
def leading (piece : List Char) : List Component :=
  if piece = [] then [.root] else if piece = ['.'] then [.here] else (component? piece).toList

theorem components_of_pieces {path : String} {first : List Char} {rest : List (List Char)}
    (h : pieces path.toList = first :: rest) (hne : first ≠ [] ∨ rest ≠ []) :
    components path = leading first ++ rest.filterMap component? := by
  rw [components, h]
  rcases hne with hne | hne <;> simp [leading, hne]

theorem pieces_eq_nil_iff {cs : List Char} : pieces cs = [[]] ↔ cs = [] := by
  cases cs with
  | nil => simp [pieces]
  | cons c cs =>
    simp only [pieces, reduceCtorEq, iff_false]
    split
    · simp [pieces_ne_nil]
    · split <;> simp

theorem pieces_join (directory : String) {name : String} (hn : IsName name) :
    ∃ as, (pieces directory.toList = as ∨ pieces directory.toList = as ++ [[]] ∧ as ≠ []) ∧
      pieces (join directory name).toList = as ++ [name.toList] := by
  have hname := pieces_of_not_mem hn.no_separator
  unfold join
  split
  · next h =>
    -- the separator at the end is the one before the name
    obtain ⟨before, hd⟩ := List.getLast?_eq_some_iff.1 h
    refine ⟨pieces before, .inr ⟨?_, pieces_ne_nil before⟩, ?_⟩
    · rw [hd, pieces_separator]
      rfl
    · rw [String.toList_append, hd, List.append_assoc, List.singleton_append, pieces_separator, hname]
  · refine ⟨pieces directory.toList, .inl rfl, ?_⟩
    rw [String.toList_append, String.toList_append, List.append_assoc]
    show pieces (directory.toList ++ '/' :: name.toList) = _
    rw [pieces_separator, hname]

/-- A name behind a directory is one more component. -/
theorem components_join {directory name : String} (hd : directory ≠ "") (hn : IsName name) :
    components (join directory name) = components directory ++ [.name name] := by
  have hname := component?_of_isName hn
  obtain ⟨as, hdirectory, hjoin⟩ := pieces_join directory hn
  have hne : as ≠ [] := by
    rcases hdirectory with hdirectory | ⟨_, hne⟩
    · exact hdirectory ▸ pieces_ne_nil _
    · exact hne
  obtain ⟨first, rest, rfl⟩ := List.exists_cons_of_ne_nil hne
  rw [components_of_pieces hjoin (.inr (by simp))]
  rcases hdirectory with hdirectory | ⟨hdirectory, _⟩
  · have hfirst : first ≠ [] ∨ rest ≠ [] := by
      by_contra hx
      rw [not_or, not_not, not_not] at hx
      obtain ⟨rfl, rfl⟩ := hx
      exact hd (String.toList_injective (pieces_eq_nil_iff.1 hdirectory))
    rw [components_of_pieces hdirectory hfirst]
    simp [hname]
  · rw [components_of_pieces hdirectory (.inr (by simp))]
    have hnothing : component? [] = none := rfl
    simp [hname, hnothing]

theorem steps_join {directory name : String} (hd : directory ≠ "") (hn : IsName name) :
    steps (join directory name) = components directory ++ [.name name] := by
  obtain ⟨as, _, hjoin⟩ := pieces_join directory hn
  rw [← components_join hd hn, steps, hjoin, List.getLast?_concat]
  split
  · next h => exact absurd (Option.some.inj h) hn.ne_nil
  · next h => exact absurd (Option.some.inj h) hn.ne_here
  · rfl

theorem join_ne_empty (directory : String) {name : String} (hn : IsName name) :
    join directory name ≠ "" := by
  intro h
  have hempty : (join directory name).toList = [] := by rw [h]; rfl
  unfold join at hempty
  split at hempty <;> simp [hn.ne_nil] at hempty

/-- The steps of a path are its components, and a last one that asks for a directory. -/
theorem steps_cases (path : String) :
    steps path = components path ∨ steps path = components path ++ [.here] := by
  unfold steps
  split <;> simp

theorem components_joins {directory : String} {names : List String} (hd : directory ≠ "")
    (hn : ∀ name ∈ names, IsName name) :
    components (joins directory names) = components directory ++ names.map .name := by
  induction names generalizing directory with
  | nil => simp [joins]
  | cons name names ih =>
    rw [List.forall_mem_cons] at hn
    show components (joins (join directory name) names) = _
    rw [ih (join_ne_empty directory hn.1) hn.2, components_join hd hn.1]
    simp

theorem joins_concat (directory : String) (names : List String) (name : String) :
    joins directory (names ++ [name]) = join (joins directory names) name := by
  simp [joins]

theorem joins_ne_empty {directory : String} {names : List String} (hd : directory ≠ "")
    (hn : ∀ name ∈ names, IsName name) : joins directory names ≠ "" := by
  induction names using List.reverseRecOn with
  | nil => exact hd
  | append_singleton names name _ =>
    rw [joins_concat]
    exact join_ne_empty _ (hn name (by simp))

/-- Names are followed one after another. -/
theorem steps_joins {directory : String} {names : List String} (hd : directory ≠ "")
    (hn : ∀ name ∈ names, IsName name) (hne : names ≠ []) :
    steps (joins directory names) = components directory ++ names.map .name := by
  induction names using List.reverseRecOn with
  | nil => exact absurd rfl hne
  | append_singleton names name _ =>
    have hn' : ∀ n ∈ names, IsName n := fun n h => hn n (by simp [h])
    rw [joins_concat, steps_join (joins_ne_empty hd hn') (hn name (by simp)),
      components_joins hd hn']
    simp

/-- Different names lead to different paths. -/
theorem joins_injective {directory : String} {names names' : List String} (hd : directory ≠ "")
    (hn : ∀ name ∈ names, IsName name) (hn' : ∀ name ∈ names', IsName name)
    (h : components (joins directory names) = components (joins directory names')) :
    names = names' := by
  rw [components_joins hd hn, components_joins hd hn', List.append_cancel_left_eq] at h
  exact (List.map_inj_right fun _ _ => Component.name.inj).1 h

end InjectionPoints.Path
