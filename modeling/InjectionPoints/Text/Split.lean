/-
Cutting a list in two at an element: at the first one that passes a test, or at the last one.
The element itself belongs to neither part. `cutFirst_eq_some_iff` and `cutLast_eq_some_iff` say
exactly which cut is made, `cutFirst_eq_none_iff` and `cutLast_eq_none_iff` when there is none.
-/
namespace InjectionPoints.Text

variable {α : Type}

/-- What stands before and behind the first element that passes `p`. -/
def cutFirst (p : α → Bool) : List α → Option (List α × List α)
  | [] => none
  | a :: l => if p a then some ([], l) else (cutFirst p l).map fun (x, y) => (a :: x, y)

/-- What stands before and behind the last element that passes `p`. -/
def cutLast (p : α → Bool) : List α → Option (List α × List α)
  | [] => none
  | a :: l =>
    match cutLast p l with
    | some (x, y) => some (a :: x, y)
    | none => if p a then some ([], l) else none

theorem cutFirst_eq_none_iff {p : α → Bool} {l : List α} :
    cutFirst p l = none ↔ ∀ a ∈ l, p a = false := by
  induction l with
  | nil => simp [cutFirst]
  | cons a l ih => by_cases h : p a = true <;> simp [cutFirst, h, ih]

theorem cutFirst_eq_some_iff {p : α → Bool} {l x y : List α} :
    cutFirst p l = some (x, y) ↔
      ∃ a, l = x ++ a :: y ∧ p a = true ∧ ∀ b ∈ x, p b = false := by
  induction l generalizing x with
  | nil => simp [cutFirst]
  | cons a l ih =>
    by_cases h : p a = true
    · constructor
      · intro e
        simp only [cutFirst, h, if_true, Option.some.injEq, Prod.mk.injEq] at e
        exact ⟨a, by simp [← e.1, ← e.2], h, by simp [← e.1]⟩
      · intro hx
        obtain ⟨b, e, hb, hx⟩ := hx
        cases x with
        | nil => simp_all [cutFirst]
        | cons c x =>
          simp only [List.cons_append, List.cons.injEq] at e
          have := hx c (by simp)
          simp_all
    · constructor
      · intro e
        simp only [cutFirst, h, Bool.false_eq_true, if_false, Option.map_eq_some_iff] at e
        obtain ⟨⟨u, v⟩, e, e'⟩ := e
        simp only [Prod.mk.injEq] at e'
        obtain ⟨rfl, rfl⟩ := e'
        obtain ⟨b, rfl, hb, hu⟩ := ih.1 e
        exact ⟨b, by simp, hb, by simpa [h] using hu⟩
      · intro hx
        obtain ⟨b, e, hb, hx⟩ := hx
        cases x with
        | nil => simp_all
        | cons c x =>
          simp only [List.cons_append, List.cons.injEq] at e
          obtain ⟨rfl, rfl⟩ := e
          have : cutFirst p (x ++ b :: y) = some (x, y) :=
            ih.2 ⟨b, rfl, hb, fun d hd => hx d (by simp [hd])⟩
          simp [cutFirst, h, this]

theorem cutLast_eq_none_iff {p : α → Bool} {l : List α} :
    cutLast p l = none ↔ ∀ a ∈ l, p a = false := by
  induction l with
  | nil => simp [cutLast]
  | cons a l ih =>
    cases e : cutLast p l with
    | some r =>
      have : ¬ ∀ b ∈ l, p b = false := fun h => by simp [ih.2 h] at e
      simp only [cutLast, e, List.mem_cons, forall_eq_or_imp, reduceCtorEq, false_iff, not_and]
      exact fun _ => this
    | none => by_cases h : p a = true <;> simp_all [cutLast]

theorem cutLast_eq_some_iff {p : α → Bool} {l x y : List α} :
    cutLast p l = some (x, y) ↔
      ∃ a, l = x ++ a :: y ∧ p a = true ∧ ∀ b ∈ y, p b = false := by
  induction l generalizing x y with
  | nil => simp [cutLast]
  | cons a l ih =>
    cases e : cutLast p l with
    | some r =>
      obtain ⟨u, v⟩ := r
      have hl := ih.1 e
      simp only [cutLast, e, Option.some.injEq, Prod.mk.injEq]
      constructor
      · intro hx
        obtain ⟨rfl, rfl⟩ := hx
        obtain ⟨b, rfl, hb, hv⟩ := hl
        exact ⟨b, by simp, hb, hv⟩
      · intro hx
        obtain ⟨b, eq, hb, hy⟩ := hx
        cases x with
        | nil =>
          simp only [List.nil_append, List.cons.injEq] at eq
          obtain ⟨rfl, rfl⟩ := eq
          rw [cutLast_eq_none_iff.2 hy] at e
          simp at e
        | cons c x =>
          simp only [List.cons_append, List.cons.injEq] at eq
          obtain ⟨rfl, rfl⟩ := eq
          have := ih.2 ⟨b, rfl, hb, hy⟩
          simp_all
    | none =>
      have hl := cutLast_eq_none_iff.1 e
      constructor
      · intro eq
        by_cases h : p a = true
        · simp only [cutLast, e, h, if_true, Option.some.injEq, Prod.mk.injEq] at eq
          obtain ⟨rfl, rfl⟩ := eq
          exact ⟨a, by simp, h, hl⟩
        · simp [cutLast, e, h] at eq
      · intro hx
        obtain ⟨b, eq, hb, hy⟩ := hx
        cases x with
        | nil =>
          simp only [List.nil_append, List.cons.injEq] at eq
          obtain ⟨rfl, rfl⟩ := eq
          simp [cutLast, e, hb]
        | cons c x =>
          simp only [List.cons_append, List.cons.injEq] at eq
          obtain ⟨rfl, rfl⟩ := eq
          have := hl b (by simp)
          simp_all

/-- The elements in front that pass a test are all of `l` if `l'` begins with none that passes. -/
theorem takeWhile_append_eq {p : α → Bool} {l l' : List α} (hl : ∀ a ∈ l, p a = true)
    (hl' : ∀ a ∈ l'.head?, p a = false) : (l ++ l').takeWhile p = l := by
  rw [List.takeWhile_append_of_pos hl]
  cases l' with
  | nil => simp
  | cons a l' => rw [List.takeWhile_cons_of_neg (by simp [hl' a rfl]), List.append_nil]

end InjectionPoints.Text
