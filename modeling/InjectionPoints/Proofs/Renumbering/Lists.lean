/-
Searches and walks over lists that hold the same things under other numbers. A search for the first
or the last of some things finds the same one as long as these keep their order
(`findFirst?_renumbered`, `findLast?_renumbered`); a breadth-first walk does not see numbers at all
(`breadthFirst_map`).
-/
import Mathlib.Data.Fin.Basic
import Mathlib.Data.List.Basic
import Mathlib.Order.Fin.Basic
import InjectionPoints.BreadthFirst
import InjectionPoints.FirstAndLast

namespace InjectionPoints

variable {α β : Type}

/-! ## First and last -/

theorem forall_cons_eq_false_iff {p : α → Bool} {a : α} {l : List α} :
    (∀ i : Fin (a :: l).length, p ((a :: l).get i) = false) ↔
      p a = false ∧ ∀ i : Fin l.length, p (l.get i) = false :=
  Fin.forall_fin_succ

theorem findFirst?_eq_none_iff {p : α → Bool} {l : List α} :
    findFirst? p l = none ↔ ∀ i : Fin l.length, p (l.get i) = false := by
  induction l with
  | nil => exact ⟨fun _ i => i.elim0, fun _ => rfl⟩
  | cons a l ih =>
    rw [findFirst?, forall_cons_eq_false_iff]
    cases ha : p a with
    | true => simp
    | false => simpa using ih

theorem findFirst?_eq_some_iff {p : α → Bool} {l : List α} {i : Fin l.length} :
    findFirst? p l = some i ↔
      p (l.get i) = true ∧ ∀ j : Fin l.length, j < i → p (l.get j) = false := by
  induction l with
  | nil => exact i.elim0
  | cons a l ih =>
    rw [findFirst?]
    cases ha : p a with
    | true =>
      constructor
      · intro e
        simp only [if_true, Option.some.injEq] at e
        subst e
        exact ⟨ha, fun j hj => absurd hj (by simp)⟩
      · intro hx
        obtain ⟨_, hmin⟩ := hx
        cases i using Fin.cases with
        | zero => rfl
        | succ i => simpa [ha] using hmin ⟨0, by simp⟩ (Fin.succ_pos i)
    | false =>
      cases i using Fin.cases with
      | zero => simp [ha, Fin.succ_ne_zero]
      | succ i =>
        rw [if_neg Bool.false_ne_true, Option.map_eq_some_iff]
        constructor
        · intro hx
          obtain ⟨k, hk, e⟩ := hx
          obtain rfl := Fin.succ_injective _ e
          obtain ⟨hp, hmin⟩ := ih.1 hk
          refine ⟨by simpa using hp, fun j hj => ?_⟩
          cases j using Fin.cases with
          | zero => simpa using ha
          | succ j => simpa using hmin j (by simpa using hj)
        · intro hx
          obtain ⟨hp, hmin⟩ := hx
          exact ⟨i, ih.2 ⟨by simpa using hp, fun j hj => by simpa using hmin j.succ (by simpa using hj)⟩, rfl⟩

theorem findLast?_eq_none_iff {p : α → Bool} {l : List α} :
    findLast? p l = none ↔ ∀ i : Fin l.length, p (l.get i) = false := by
  induction l with
  | nil => exact ⟨fun _ i => i.elim0, fun _ => rfl⟩
  | cons a l ih =>
    rw [findLast?, forall_cons_eq_false_iff]
    cases h : findLast? p l with
    | some k =>
      have hk : p (l.get k) = true := (findLast?_eq_some_iff.1 h).1
      simp only [reduceCtorEq, false_iff, not_and]
      intro _ hall
      rw [hall k] at hk
      exact Bool.false_ne_true hk
    | none => simpa using fun _ => ih.1 h

/-! ## Lists that hold the same in another order -/

section Renumbered

variable {l : List α} {l' : List β} {p : α → Bool} {p' : β → Bool} {σ : Fin l.length → Fin l'.length}

/-- The last hit stays the last one when the hits keep their order. -/
theorem findLast?_renumbered (hsur : Function.Surjective σ)
    (hp : ∀ i, p' (l'.get (σ i)) = p (l.get i))
    (hmono : ∀ i j, p (l.get i) = true → p (l.get j) = true → i < j → σ i < σ j) :
    findLast? p' l' = (findLast? p l).map σ := by
  cases h : findLast? p l with
  | none =>
    rw [findLast?_eq_none_iff] at h
    refine findLast?_eq_none_iff.2 fun i' => ?_
    obtain ⟨i, rfl⟩ := hsur i'
    rw [hp, h]
  | some i =>
    obtain ⟨hi, hlast⟩ := findLast?_eq_some_iff.1 h
    refine findLast?_eq_some_iff.2 ⟨by rw [hp, hi], fun j' hj => ?_⟩
    obtain ⟨j, rfl⟩ := hsur j'
    rw [hp, ← Bool.not_eq_true]
    intro hpj
    rcases lt_trichotomy i j with hij | rfl | hij
    · rw [hlast j hij] at hpj
      exact Bool.false_ne_true hpj
    · exact lt_irrefl _ hj
    · exact lt_asymm hj (hmono j i hpj hi hij)

/-- The first hit stays the first one when the hits keep their order. -/
theorem findFirst?_renumbered (hsur : Function.Surjective σ)
    (hp : ∀ i, p' (l'.get (σ i)) = p (l.get i))
    (hmono : ∀ i j, p (l.get i) = true → p (l.get j) = true → i < j → σ i < σ j) :
    findFirst? p' l' = (findFirst? p l).map σ := by
  cases h : findFirst? p l with
  | none =>
    rw [findFirst?_eq_none_iff] at h
    refine findFirst?_eq_none_iff.2 fun i' => ?_
    obtain ⟨i, rfl⟩ := hsur i'
    rw [hp, h]
  | some i =>
    obtain ⟨hi, hfirst⟩ := findFirst?_eq_some_iff.1 h
    refine findFirst?_eq_some_iff.2 ⟨by rw [hp, hi], fun j' hj => ?_⟩
    obtain ⟨j, rfl⟩ := hsur j'
    rw [hp, ← Bool.not_eq_true]
    intro hpj
    rcases lt_trichotomy j i with hij | rfl | hij
    · rw [hfirst j hij] at hpj
      exact Bool.false_ne_true hpj
    · exact lt_irrefl _ hj
    · exact lt_asymm hj (hmono i j hi hpj hij)

end Renumbered

/-- Two lists that agree but for what `f` forgets. -/
theorem getElem_of_map_eq {f : α → β} {l l' : List α} (h : l'.map f = l.map f) {i : Nat}
    (hi' : i < l'.length) (hi : i < l.length) : f l'[i] = f l[i] := by
  have h := congrArg (·[i]?) h
  simpa [hi, hi'] using h

/-! ## Walks -/

/-- What is first for its key stays first when keys that differ still do. -/
theorem firstsBy_map {κ κ' : Type} [BEq κ] [LawfulBEq κ] [BEq κ'] [LawfulBEq κ'] {f : α → β}
    {key : α → κ} {key' : β → κ'} {g : κ → κ'} (hg : Function.Injective g)
    (hkey : ∀ a, key' (f a) = g (key a)) (seen : List κ) (l : List α) :
    firstsBy key' (seen.map g) (l.map f) = (firstsBy key seen l).map f := by
  induction l generalizing seen with
  | nil => rfl
  | cons a l ih =>
    have hseen : (seen.map g).contains (g (key a)) = seen.contains (key a) := by
      rw [Bool.eq_iff_iff, List.contains_iff_mem, List.contains_iff_mem,
        List.mem_map_of_injective hg]
    rw [List.map_cons, firstsBy, firstsBy, hkey, hseen, ih, ← List.map_cons, ih]
    split <;> rfl

theorem eraseReps_map [BEq α] [LawfulBEq α] [BEq β] [LawfulBEq β] {f : α → β}
    (hf : Function.Injective f) (l : List α) : (l.map f).eraseReps = l.eraseReps.map f := by
  have hbeq (a b : α) : (f a == f b) = (a == b) := by
    rw [Bool.eq_iff_iff, beq_iff_eq, beq_iff_eq, hf.eq_iff]
  have hloop (l : List α) (a : α) (acc : List α) :
      List.eraseRepsBy.loop (· == ·) (f a) (l.map f) (acc.map f) =
        (List.eraseRepsBy.loop (· == ·) a l acc).map f := by
    induction l generalizing a acc with
    | nil => simp [List.eraseRepsBy.loop]
    | cons b l ih =>
      rw [List.map_cons, List.eraseRepsBy.loop, List.eraseRepsBy.loop, hbeq]
      cases a == b with
      | true => exact ih a acc
      | false => exact ih b (a :: acc)
  cases l with
  | nil => rfl
  | cons a l => exact hloop l a []

/-- The walk from renumbered starts is the renumbered walk. -/
theorem breadthFirst_map [BEq α] [LawfulBEq α] [BEq β] [LawfulBEq β] {f : α → β}
    (hf : Function.Injective f) {next : α → List α} {next' : β → List β}
    (hnext : ∀ a, next' (f a) = (next a).map f) (fuel : Nat) (queue seen : List α) :
    breadthFirst next' fuel (queue.map f) (seen.map f) =
      (breadthFirst next fuel queue seen).map f := by
  fun_induction breadthFirst next fuel queue seen with
  | case1 queue seen => simp [breadthFirst]
  | case2 fuel seen => simp [breadthFirst]
  | case3 fuel a queue seen h ih =>
    have h' : (seen.map f).contains (f a) = true := by
      rw [List.contains_iff_mem] at h ⊢
      exact List.mem_map_of_mem h
    rw [List.map_cons, breadthFirst, if_pos h', ih]
  | case4 fuel a queue seen h ih =>
    have h' : ¬(seen.map f).contains (f a) = true := by
      rw [List.contains_iff_mem] at h ⊢
      exact fun hin => h ((List.mem_map_of_injective hf).1 hin)
    rw [List.map_cons, breadthFirst, if_neg h', hnext, ← List.map_append, ← List.map_cons, ih]

end InjectionPoints
