/-
Which candidates are kept when overloads are ranked. Each argument is passed as the type of one
parameter (`takenAs?`) and fits it by itself, and the total is the sum of these fits
(`applicability_eq_some_iff`). Kept are the candidates with the best total
(`bestOverloads_eq`), so none that another one dominates, and only candidates that take all types as
they are if there is one of fixed arity that does (`bestOverloads_ranking`).
-/
import Mathlib.Algebra.GroupWithZero.Nat
import Mathlib.Algebra.Order.BigOperators.Group.List
import Mathlib.Algebra.Order.Group.Nat
import InjectionPoints.Proofs.Overloads.Conversions

namespace InjectionPoints

/-! ## Lists -/

section Lists

variable {α β : Type}

theorem mapM_eq_some_iff {f : α → Option β} {l : List α} {r : List β} :
    l.mapM f = some r ↔ List.Forall₂ (fun a b => f a = some b) l r := by
  induction l generalizing r with
  | nil => simp [eq_comm]
  | cons a l ih =>
    simp only [List.mapM_cons, List.forall₂_cons_left_iff, Option.bind_eq_bind, Option.pure_def,
      Option.bind_eq_some_iff, ih, Option.some.injEq]
    constructor
    · rintro ⟨b, hb, r, hr, rfl⟩
      exact ⟨b, r, hb, hr, rfl⟩
    · rintro ⟨b, r, hb, hr, rfl⟩
      exact ⟨b, hb, r, hr, rfl⟩

theorem mapM_isSome_iff {f : α → Option β} {l : List α} :
    (l.mapM f).isSome ↔ ∀ a ∈ l, (f a).isSome := by
  induction l with
  | nil => simp
  | cons a l ih =>
    rw [List.mapM_cons, List.forall_mem_cons, ← ih]
    cases f a <;> cases l.mapM f <;> simp

theorem exists_of_forall₂ {R : α → β → Prop} {l : List α} {r : List β} (h : List.Forall₂ R l r)
    {a : α} (ha : a ∈ l) : ∃ b ∈ r, R a b := by
  induction h with
  | nil => simp at ha
  | cons hab _ ih =>
    rcases List.mem_cons.1 ha with rfl | ha
    · exact ⟨_, by simp, hab⟩
    · obtain ⟨b, hb, h⟩ := ih ha
      exact ⟨b, by simp [hb], h⟩

theorem sum_lt_sum_of_forall₂ {xs ys : List Nat} (hle : List.Forall₂ (· ≤ ·) xs ys)
    (hne : xs ≠ ys) : xs.sum < ys.sum := by
  induction hle with
  | nil => exact absurd rfl hne
  | @cons x y xs ys hxy hle ih =>
    rw [List.sum_cons, List.sum_cons]
    by_cases hhead : x = y
    · have htail := ih fun e => hne (by rw [hhead, e])
      omega
    · have htail := hle.sum_le_sum
      omega

/-- Numbers with a bound that sum up to as much as possible are all at the bound. -/
theorem eq_of_bound_le_sum {bound : Nat} {xs : List Nat} (hle : ∀ x ∈ xs, x ≤ bound)
    (hsum : xs.length * bound ≤ xs.sum) : ∀ x ∈ xs, x = bound := by
  induction xs with
  | nil => simp
  | cons x xs ih =>
    rw [List.forall_mem_cons] at hle ⊢
    have htail : xs.sum ≤ xs.length * bound := by
      simpa using List.sum_le_card_nsmul xs bound hle.2
    rw [List.length_cons, List.sum_cons, Nat.succ_mul] at hsum
    have hx := hle.1
    exact ⟨by omega, ih hle.2 (by omega)⟩

end Lists

namespace ClassIndex

open ArgumentType

variable (ix : ClassIndex)

/-- The type as which a method takes the argument at a position, if its parameters reach so far.
Behind the parameters for one argument each it is that of an element of the last one; the last
parameter itself when it has one argument, and this fits. -/
def takenAs? (m : ix.MethodId) (arity position : Nat) (arg : ArgumentType) : Option String :=
  let params := ix.parameterDescriptors m
  if position < fixedCount (ix.method m) then params[position]?
  else params.getLast?.map fun array =>
    if arity = params.length ∧ (ix.fit arg array).isSome then array else elementOf array

/-- One candidate takes every argument at least as well as another one, and one of them better. -/
def Dominates (args : List ArgumentType) (better worse : ix.MethodId) : Prop :=
  ∃ ys xs : List Nat, ix.fits better args = some ys ∧ ix.fits worse args = some xs ∧
    List.Forall₂ (· ≤ ·) xs ys ∧ ∃ (i x y : Nat), xs[i]? = some x ∧ ys[i]? = some y ∧ x < y

variable {ix} {m : ix.MethodId} {args : List ArgumentType} {candidates : List ix.MethodId}

/-! ## Totals -/

theorem fitAt_eq_bind (m : ix.MethodId) (arity position : Nat) (arg : ArgumentType) :
    ix.fitAt (ix.parameterDescriptors m) (fixedCount (ix.method m)) arity position arg =
      (ix.takenAs? m arity position arg).bind (ix.fit arg) := by
  unfold fitAt takenAs?
  split
  · rfl
  · rw [Option.bind_map]
    refine Option.bind_congr fun array _ => ?_
    by_cases harity : arity = (ix.parameterDescriptors m).length
    · cases hfit : ix.fit arg array <;> simp [harity, hfit]
    · simp [harity]

/-- The fits of a call are those of its arguments one by one. -/
theorem fits_eq_some_iff {fits : List Nat} :
    ix.fits m args = some fits ↔ List.Forall₂ (fun a n =>
      (ix.takenAs? m args.length a.2 a.1).bind (ix.fit a.1) = some n) args.zipIdx fits := by
  simp only [ClassIndex.fits, mapM_eq_some_iff, fitAt_eq_bind]

theorem applicability_eq_some_iff {total : Nat} :
    ix.applicability m args = some total ↔ ∃ fits, ix.fits m args = some fits ∧ fits.sum = total := by
  simp only [applicability, Option.map_eq_some_iff, List.sum_eq_foldl]

/-- A method takes arguments that it takes one by one. -/
theorem applicability_isSome_iff : (ix.applicability m args).isSome ↔ ∀ i arg, args[i]? = some arg →
    ((ix.takenAs? m args.length i arg).bind (ix.fit arg)).isSome := by
  simp only [applicability, Option.isSome_map, ClassIndex.fits, mapM_isSome_iff, fitAt_eq_bind,
    Prod.forall, List.mk_mem_zipIdx_iff_getElem?]
  exact forall_comm

theorem length_parameterDescriptors (m : ix.MethodId) :
    (ix.parameterDescriptors m).length = (ix.method m).params.length := by
  rw [parameterDescriptors, List.length_map]

/-- With as many arguments as parameters each one has a parameter of its own, also the last one of a
method of variable arity if it fits the whole array. -/
theorem takenAs?_of_getElem? {arity i : Nat} {arg : ArgumentType} {param : String}
    (harity : arity = (ix.parameterDescriptors m).length)
    (hi : (ix.parameterDescriptors m)[i]? = some param)
    (h : (ix.method m).varargs = false ∨ (ix.fit arg param).isSome) :
    ix.takenAs? m arity i arg = some param := by
  have hlt := (List.getElem?_eq_some_iff.1 hi).1
  have hlength := length_parameterDescriptors m
  unfold takenAs?
  split
  · exact hi
  · next hlast =>
    unfold fixedCount at hlast
    split at hlast
    · next hvarargs =>
      have hfits : (ix.fit arg param).isSome := h.resolve_left (by simp [hvarargs])
      obtain rfl : i = (ix.parameterDescriptors m).length - 1 := by omega
      simp only [List.getLast?_eq_getElem?, hi, Option.map_some, if_pos (And.intro harity hfits)]
    · omega

/-! ## The best -/

variable (ix) in
/-- The totals of the candidates that take the arguments. -/
def totals (candidates : List ix.MethodId) (args : List ArgumentType) : List Nat :=
  candidates.filterMap fun m => ix.applicability m args

theorem mem_totals_iff {total : Nat} :
    total ∈ ix.totals candidates args ↔ ∃ m ∈ candidates, ix.applicability m args = some total := by
  rw [totals, List.mem_filterMap]

/-- The candidates with the best total are kept, or all, if none takes the arguments. -/
theorem bestOverloads_eq (candidates : List ix.MethodId) (args : List ArgumentType) :
    ix.bestOverloads candidates args =
      match (ix.totals candidates args).max? with
      | none => candidates
      | some best => candidates.filter fun m => ix.applicability m args == some best := by
  unfold bestOverloads
  split
  · next hfew =>
    -- A single candidate has the best total, if any.
    match candidates with
    | [] => rfl
    | [m] => cases h : ix.applicability m args <;> simp [totals, h]
    | _ :: _ :: _ => exact absurd hfew (by simp)
  · have htotals : (candidates.filterMap fun m =>
        (ix.applicability m args).map fun score => (m, score)).map Prod.snd =
          ix.totals candidates args := by
      rw [List.map_filterMap]
      exact List.filterMap_congr fun m _ => by simp [Function.comp_def]
    simp only [htotals]
    cases (ix.totals candidates args).max? with
    | none => rfl
    | some best =>
      simp only
      rw [List.filter_filterMap, List.map_filterMap, ← List.filterMap_eq_filter]
      refine List.filterMap_congr fun m _ => ?_
      cases h : ix.applicability m args with
      | none => simp [Option.guard, h]
      | some total => by_cases htotal : total = best <;> simp [Option.guard, h, htotal]

theorem max?_totals_eq_none_iff :
    (ix.totals candidates args).max? = none ↔ ∀ m ∈ candidates, ix.applicability m args = none := by
  rw [List.max?_eq_none_iff, List.eq_nil_iff_forall_not_mem]
  simp only [mem_totals_iff, not_exists, not_and, Option.eq_none_iff_forall_ne_some]
  exact forall_comm.trans (forall_congr' fun m => forall_comm)

/-- If some candidate takes the arguments, those are kept that have a total no other one exceeds. -/
theorem mem_bestOverloads_iff (h : ∃ n ∈ candidates, (ix.applicability n args).isSome) :
    m ∈ ix.bestOverloads candidates args ↔ m ∈ candidates ∧ ∃ total,
      ix.applicability m args = some total ∧
        ∀ n ∈ candidates, ∀ other, ix.applicability n args = some other → other ≤ total := by
  obtain ⟨n, hn, hsome⟩ := h
  rw [bestOverloads_eq]
  cases hmax : (ix.totals candidates args).max? with
  | none => simp [max?_totals_eq_none_iff.1 hmax n hn] at hsome
  | some best =>
    obtain ⟨hbest, hle⟩ := List.max?_eq_some_iff.1 hmax
    obtain ⟨b, hb, hbtotal⟩ := mem_totals_iff.1 hbest
    simp only [List.mem_filter, beq_iff_eq]
    refine and_congr_right fun hm => ⟨fun htotal => ⟨best, htotal, fun n hn other hother =>
      hle other (mem_totals_iff.2 ⟨n, hn, hother⟩)⟩, ?_⟩
    rintro ⟨total, htotal, hge⟩
    have h1 := hge b hb best hbtotal
    have h2 := hle total (mem_totals_iff.2 ⟨m, hm, htotal⟩)
    rw [htotal, Nat.le_antisymm h2 h1]

theorem bestOverloads_sublist (candidates : List ix.MethodId) (args : List ArgumentType) :
    (ix.bestOverloads candidates args).Sublist candidates := by
  rw [bestOverloads_eq]
  split
  · exact List.Sublist.refl _
  · exact List.filter_sublist

theorem bestOverloads_eq_nil_iff : ix.bestOverloads candidates args = [] ↔ candidates = [] := by
  constructor
  · intro hnil
    rw [bestOverloads_eq] at hnil
    cases hmax : (ix.totals candidates args).max? with
    | none => simpa only [hmax] using hnil
    | some best =>
      obtain ⟨m, hm, htotal⟩ := mem_totals_iff.1 (List.max?_eq_some_iff.1 hmax).1
      simp only [hmax, List.filter_eq_nil_iff, beq_iff_eq] at hnil
      exact absurd htotal (hnil m hm)
  · rintro rfl
    exact List.sublist_nil.1 (bestOverloads_sublist [] args)

/-- All candidates are kept when none takes the arguments, or all take them equally well. -/
theorem bestOverloads_eq_self_iff : ix.bestOverloads candidates args = candidates ↔
    (∀ m ∈ candidates, ix.applicability m args = none) ∨
      ∃ total, ∀ m ∈ candidates, ix.applicability m args = some total := by
  rw [bestOverloads_eq]
  cases hmax : (ix.totals candidates args).max? with
  | none => exact ⟨fun _ => .inl (max?_totals_eq_none_iff.1 hmax), fun _ => rfl⟩
  | some best =>
    obtain ⟨b, hb, hbtotal⟩ := mem_totals_iff.1 (List.max?_eq_some_iff.1 hmax).1
    simp only [List.filter_eq_self, beq_iff_eq]
    constructor
    · exact fun hall => .inr ⟨best, hall⟩
    · rintro (hnone | ⟨total, hall⟩)
      · simp [hnone b hb] at hbtotal
      · have htotal : total = best := Option.some.inj ((hall b hb).symm.trans hbtotal)
        exact htotal ▸ hall

/-! ## Dominance -/

/-- A candidate that is dominated has a smaller total. -/
theorem Dominates.applicability_lt {n : ix.MethodId} (h : ix.Dominates args n m) :
    ∃ total other, ix.applicability m args = some total ∧
      ix.applicability n args = some other ∧ total < other := by
  obtain ⟨ys, xs, hys, hxs, hle, i, x, y, hx, hy, hlt⟩ := h
  have hne : xs ≠ ys := by
    rintro rfl
    rw [hx] at hy
    exact absurd (Option.some.inj hy) (by omega)
  exact ⟨xs.sum, ys.sum, applicability_eq_some_iff.2 ⟨xs, hxs, rfl⟩,
    applicability_eq_some_iff.2 ⟨ys, hys, rfl⟩, sum_lt_sum_of_forall₂ hle hne⟩

theorem not_dominates_of_mem (hm : m ∈ ix.bestOverloads candidates args) {n : ix.MethodId}
    (hn : n ∈ candidates) : ¬ix.Dominates args n m := by
  intro h
  obtain ⟨total, other, htotal, hother, hlt⟩ := h.applicability_lt
  obtain ⟨-, best, hbest, hge⟩ :=
    (mem_bestOverloads_iff ⟨n, hn, Option.isSome_iff_exists.2 ⟨other, hother⟩⟩).1 hm
  obtain rfl : total = best := Option.some.inj (htotal.symm.trans hbest)
  exact absurd (hge n hn other hother) (by omega)

/-! ## Types as they are -/

theorem fit_le_three {arg : ArgumentType} {param : String} {n : Nat}
    (h : ix.fit arg param = some n) : n ≤ 3 := by
  cases arg with
  | unknown =>
    obtain rfl : 0 = n := Option.some.inj h
    omega
  | null =>
    simp only [fit] at h
    split at h
    · simp at h
    · obtain rfl : 1 = n := Option.some.inj h
      omega
  | known type => exact knownFit_le_three h

theorem length_eq_of_fits {fits : List Nat} (h : ix.fits m args = some fits) :
    fits.length = args.length := by
  rw [← (fits_eq_some_iff.1 h).length_eq, List.length_zipIdx]

theorem le_three_of_fits {fits : List Nat} (h : ix.fits m args = some fits) : ∀ n ∈ fits, n ≤ 3 := by
  intro n hn
  have hflip := (fits_eq_some_iff.1 h).flip
  obtain ⟨a, -, ha⟩ := exists_of_forall₂ hflip hn
  obtain ⟨param, -, hfit⟩ := Option.bind_eq_some_iff.1 ha
  exact fit_le_three hfit

variable {types : List String}

/-- A method of fixed arity with exactly these parameters has the best total that there is. -/
theorem applicability_of_parameterDescriptors (hfixed : (ix.method m).varargs = false)
    (hparams : ix.parameterDescriptors m = types) :
    ix.applicability m (types.map .known) = some (types.length * 3) := by
  refine applicability_eq_some_iff.2 ⟨(types.map ArgumentType.known).zipIdx.map fun _ => 3, ?_, ?_⟩
  · rw [fits_eq_some_iff, List.forall₂_map_right_iff, List.forall₂_same]
    rintro ⟨arg, i⟩ hmem
    rw [List.mk_mem_zipIdx_iff_getElem?, List.getElem?_map, Option.map_eq_some_iff] at hmem
    obtain ⟨type, hi, rfl⟩ := hmem
    have htaken : ix.takenAs? m (types.map ArgumentType.known).length i (.known type) = some type :=
      takenAs?_of_getElem? (by rw [hparams, List.length_map]) (by rw [hparams, hi]) (.inl hfixed)
    rw [htaken, Option.bind_some]
    exact knownFit_same type
  · simp

/-- With the best total that there is all arguments are taken as what they are. -/
theorem takenAs?_of_applicability {total : Nat}
    (h : ix.applicability m (types.map .known) = some total) (hge : types.length * 3 ≤ total)
    {i : Nat} {type : String} (hi : types[i]? = some type) :
    ix.takenAs? m types.length i (.known type) = some type := by
  obtain ⟨fits, hfits, hsum⟩ := applicability_eq_some_iff.1 h
  have hthree := eq_of_bound_le_sum (le_three_of_fits hfits)
    (by rwa [length_eq_of_fits hfits, List.length_map, hsum])
  have hmem : (.known type, i) ∈ (types.map ArgumentType.known).zipIdx := by
    rw [List.mk_mem_zipIdx_iff_getElem?, List.getElem?_map, hi, Option.map_some]
  obtain ⟨n, hn, hfit⟩ := exists_of_forall₂ (fits_eq_some_iff.1 hfits) hmem
  obtain ⟨param, hparam, hfit⟩ := Option.bind_eq_some_iff.1 hfit
  rw [hthree n hn] at hfit
  rw [List.length_map] at hparam
  rw [hparam, knownFit_eq_three_iff.1 hfit]

/-- What is kept of the candidates. It is some of them in their order, and all of them exactly when
none takes the arguments or all have the same total. Otherwise each takes the arguments. None is
dominated. If the types of all arguments are known and are those of the parameters of some candidate
of fixed arity, each takes every argument as what it is. -/
theorem bestOverloads_ranking (candidates : List ix.MethodId) (args : List ArgumentType) :
    (ix.bestOverloads candidates args = [] ↔ candidates = []) ∧
    (ix.bestOverloads candidates args).Sublist candidates ∧
    (ix.bestOverloads candidates args = candidates ↔
      (∀ m ∈ candidates, ix.applicability m args = none) ∨
        ∃ total, ∀ m ∈ candidates, ix.applicability m args = some total) ∧
    (ix.bestOverloads candidates args ≠ candidates →
      ∀ m ∈ ix.bestOverloads candidates args, (ix.applicability m args).isSome) ∧
    (∀ m ∈ ix.bestOverloads candidates args, ∀ n ∈ candidates, ¬ix.Dominates args n m) ∧
    ∀ types : List String, args = types.map .known →
      (∃ m ∈ candidates, (ix.method m).varargs = false ∧ ix.parameterDescriptors m = types) →
        ∀ m ∈ ix.bestOverloads candidates args, ∀ i type, types[i]? = some type →
          ix.takenAs? m args.length i (.known type) = some type := by
  refine ⟨bestOverloads_eq_nil_iff, bestOverloads_sublist candidates args,
    bestOverloads_eq_self_iff, fun hne m hm => ?_, fun m hm n hn => not_dominates_of_mem hm hn, ?_⟩
  · have hsome : ∃ n ∈ candidates, (ix.applicability n args).isSome := by
      by_contra hnone
      refine hne (bestOverloads_eq_self_iff.2 (.inl fun n hn => ?_))
      rw [← Option.not_isSome_iff_eq_none]
      exact fun h => hnone ⟨n, hn, h⟩
    obtain ⟨-, total, htotal, -⟩ := (mem_bestOverloads_iff hsome).1 hm
    rw [htotal, Option.isSome_some]
  · rintro types rfl ⟨n, hn, hfixed, hparams⟩ m hm i type hi
    have hexact := applicability_of_parameterDescriptors hfixed hparams
    obtain ⟨-, total, htotal, hge⟩ :=
      (mem_bestOverloads_iff ⟨n, hn, by rw [hexact, Option.isSome_some]⟩).1 hm
    rw [List.length_map]
    exact takenAs?_of_applicability htotal (hge n hn _ hexact) hi

end ClassIndex

end InjectionPoints
