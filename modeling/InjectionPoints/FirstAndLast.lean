/-
The first and the last of a list: the positions of the first and of the last element that passes a
test, and the first element for each value of a key.
-/
namespace InjectionPoints

variable {α β : Type}

/-- The first element for each key, in order; keys in `seen` have had theirs. -/
def firstsBy [BEq β] (key : α → β) (seen : List β) : List α → List α
  | [] => []
  | a :: l =>
    if seen.contains (key a) then firstsBy key seen l
    else a :: firstsBy key (key a :: seen) l

/-- The position of the last element that passes a test. -/
def findLast? (p : α → Bool) : (l : List α) → Option (Fin l.length)
  | [] => none
  | a :: l =>
    match findLast? p l with
    | some i => some i.succ
    | none => if p a then some ⟨0, by simp⟩ else none

/-- The position of the first element that passes a test. -/
def findFirst? (p : α → Bool) : (l : List α) → Option (Fin l.length)
  | [] => none
  | a :: l => if p a then some ⟨0, by simp⟩ else (findFirst? p l).map Fin.succ

theorem firstsBy_sublist [BEq β] (key : α → β) (seen : List β) (l : List α) :
    (firstsBy key seen l).Sublist l := by
  induction l generalizing seen with
  | nil => simp [firstsBy]
  | cons a l ih =>
    simp only [firstsBy]
    split
    · exact (ih _).trans (List.sublist_cons_self _ _)
    · exact (ih _).cons_cons _

theorem mem_map_firstsBy [BEq β] [LawfulBEq β] (key : α → β) (seen : List β) (l : List α) {b : β} :
    b ∈ (firstsBy key seen l).map key ↔ b ∈ l.map key ∧ b ∉ seen := by
  induction l generalizing seen with
  | nil => simp [firstsBy]
  | cons a l ih =>
    simp only [firstsBy, List.contains_iff_mem]
    split
    · next h =>
      rw [ih, List.map_cons, List.mem_cons]
      constructor
      · exact fun ⟨hb, hs⟩ => ⟨.inr hb, hs⟩
      · intro hx
        obtain ⟨rfl | hb, hs⟩ := hx
        · exact absurd h hs
        · exact ⟨hb, hs⟩
    · next h =>
      rw [List.map_cons, List.mem_cons, ih, List.map_cons, List.mem_cons, List.mem_cons, not_or]
      by_cases e : b = key a
      · simp [e, h]
      · simp [e]

/-- Each key stands where its first element stood. -/
theorem firstsBy_pairwise [BEq β] [LawfulBEq β] (key : α → β) (seen : List β) (l : List α) :
    ((firstsBy key seen l).map key).Pairwise fun a b =>
      (l.map key).idxOf a < (l.map key).idxOf b := by
  induction l generalizing seen with
  | nil => simp [firstsBy]
  | cons a l ih =>
    -- Behind the head every key that is left differs from that of the head.
    have shift : ∀ seen : List β, key a ∈ seen → ((firstsBy key seen l).map key).Pairwise fun b c =>
        (key a :: l.map key).idxOf b < (key a :: l.map key).idxOf c := by
      intro seen h
      refine (ih seen).imp_of_mem fun {b c} hb hc hlt => ?_
      have hne : ∀ d, d ∈ (firstsBy key seen l).map key → (key a == d) = false := fun d hd => by
        rw [beq_eq_false_iff_ne]
        rintro rfl
        exact ((mem_map_firstsBy key seen l).1 hd).2 h
      rw [List.idxOf_cons, List.idxOf_cons, hne b hb, hne c hc]
      exact Nat.succ_lt_succ hlt
    simp only [firstsBy, List.contains_iff_mem]
    split
    · next h => exact shift seen h
    · next h =>
      simp only [List.map_cons, List.pairwise_cons]
      refine ⟨fun b hb => ?_, shift _ (by simp)⟩
      have hne : (key a == b) = false := by
        rw [beq_eq_false_iff_ne]
        rintro rfl
        exact ((mem_map_firstsBy key _ l).1 hb).2 (by simp)
      rw [List.idxOf_cons_self, List.idxOf_cons, hne]
      exact Nat.succ_pos _

theorem nodup_map_firstsBy [BEq β] [LawfulBEq β] (key : α → β) (seen : List β) (l : List α) :
    ((firstsBy key seen l).map key).Nodup :=
  (firstsBy_pairwise key seen l).imp fun h e => absurd h (by simp [e])

theorem findLast?_eq_some_iff {p : α → Bool} {l : List α} {i : Fin l.length} :
    findLast? p l = some i ↔
      p (l.get i) = true ∧ ∀ j : Fin l.length, i < j → p (l.get j) = false := by
  induction l with
  | nil => exact i.elim0
  | cons a l ih =>
    simp only [findLast?]
    cases h : findLast? p l with
    | some k =>
      obtain ⟨hk, hlast⟩ := ih.1 h
      constructor
      · intro e
        simp only [Option.some.injEq] at e
        subst e
        refine ⟨by simpa using hk, fun j hj => ?_⟩
        cases j using Fin.cases with
        | zero => exact absurd hj (by simp)
        | succ j => simpa using hlast j (by simpa using hj)
      · intro hx
        obtain ⟨hi, hmax⟩ := hx
        cases i using Fin.cases with
        | zero => have := hmax k.succ (by simp); simp_all
        | succ i =>
          have : findLast? p l = some i :=
            ih.2 ⟨by simpa using hi, fun j hj => by simpa using hmax j.succ (by simpa using hj)⟩
          rw [h] at this
          simp only [Option.some.injEq] at this
          rw [this]
    | none =>
      have hnone : ∀ j : Fin l.length, p (l.get j) = false := by
        intro j
        cases hp : p (l.get j) with
        | false => rfl
        | true =>
          exfalso
          clear ih i
          induction l with
          | nil => exact j.elim0
          | cons b l ih =>
            simp only [findLast?] at h
            cases h' : findLast? p l with
            | some k => simp [h'] at h
            | none =>
              simp only [h'] at h
              cases j using Fin.cases with
              | zero => simp_all
              | succ j => exact ih h' j (by simpa using hp)
      constructor
      · intro e
        by_cases ha : p a = true
        · simp only [ha, if_true, Option.some.injEq] at e
          subst e
          refine ⟨ha, fun j hj => ?_⟩
          cases j using Fin.cases with
          | zero => exact absurd hj (by simp)
          | succ j => simpa using hnone j
        · simp [ha] at e
      · intro hx
        obtain ⟨hi, -⟩ := hx
        cases i using Fin.cases with
        | zero => simp_all
        | succ i => have := hnone i; simp_all

end InjectionPoints
