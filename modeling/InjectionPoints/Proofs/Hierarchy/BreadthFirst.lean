/-
Breadth-first order. A walk that comes to its end lists its start and then what its own elements lead
to, each thing where it is met first (`IsWalk`). From this alone follows the order of the list: things
stand as the things that led to them, and what one thing leads to keeps its order
(`IsWalk.before_iff`); and from that, nothing stands before what is nearer to the start
(`IsWalk.distance_le`). A walk does come to its end, as each visit uses up what the visited
thing leads to (`unseen_visit`, `Underway.breadthFirst`).
-/
import Mathlib.Algebra.GroupWithZero.Nat
import Mathlib.Data.List.Basic
import Mathlib.Data.Nat.Find
import InjectionPoints.BreadthFirst
import InjectionPoints.FirstAndLast

namespace InjectionPoints

variable {α : Type}

/-! ## Steps -/

/-- What can be reached from the start in a number of steps. -/
inductive InSteps (next : α → List α) (start : α) : Nat → α → Prop
  | start : InSteps next start 0 start
  | step {n : Nat} {a b : α} : InSteps next start n a → b ∈ next a → InSteps next start (n + 1) b

/-- The least number of steps from the start. -/
def IsDistance (next : α → List α) (start : α) (n : Nat) (a : α) : Prop :=
  InSteps next start n a ∧ ∀ k, InSteps next start k a → n ≤ k

theorem exists_isDistance {next : α → List α} {start a : α} (h : ∃ n, InSteps next start n a) :
    ∃ n, IsDistance next start n a := by
  classical
  exact ⟨Nat.find h, Nat.find_spec h, fun _ hk => Nat.find_min' h hk⟩

/-- The first in a list that leads to `a`. -/
def discoverer? [BEq α] (next : α → List α) (l : List α) (a : α) : Option α :=
  l.find? fun p => (next p).contains a

/-! ## Order in lists -/

section Order

variable [BEq α] [LawfulBEq α] {l : List α} {a b : α}

theorem rel_of_idxOf_lt {R : α → α → Prop} (h : l.Pairwise R) (ha : a ∈ l) (hb : b ∈ l)
    (hlt : l.idxOf a < l.idxOf b) : R a b := by
  have hr := List.pairwise_iff_getElem.1 h _ _ (List.idxOf_lt_length_iff.2 ha)
    (List.idxOf_lt_length_iff.2 hb) hlt
  rwa [List.getElem_idxOf, List.getElem_idxOf] at hr

theorem pairwise_idxOf (h : l.Nodup) : l.Pairwise fun a b => l.idxOf a < l.idxOf b := by
  rw [List.pairwise_iff_getElem]
  intro i j hi hj hij
  rwa [h.idxOf_getElem i hi, h.idxOf_getElem j hj]

theorem mem_firstsBy_id : a ∈ firstsBy id [] l ↔ a ∈ l := by
  have h := mem_map_firstsBy id [] l (b := a)
  simpa using h

theorem nodup_firstsBy_id (l : List α) : (firstsBy id [] l).Nodup := by
  simpa using nodup_map_firstsBy id [] l

/-- Only a new element comes to those that are first. -/
theorem firstsBy_concat (seen l : List α) (a : α) : firstsBy id seen (l ++ [a]) =
    if a ∈ seen ∨ a ∈ l then firstsBy id seen l else firstsBy id seen l ++ [a] := by
  induction l generalizing seen with
  | nil => by_cases ha : a ∈ seen <;> simp [firstsBy, ha]
  | cons b l ih =>
    rw [List.cons_append, firstsBy, firstsBy, ih, ih]
    by_cases hb : b ∈ seen
    · have hab : a ∈ seen ∨ a ∈ l ↔ a ∈ seen ∨ a ∈ b :: l := by
        rw [List.mem_cons]
        constructor
        · exact fun h => h.imp_right .inr
        · rintro (h | rfl | h)
          · exact .inl h
          · exact .inl hb
          · exact .inr h
      simp only [List.contains_iff_mem, id_eq, hb, if_true, hab]
    · have hab : a ∈ b :: seen ∨ a ∈ l ↔ a ∈ seen ∨ a ∈ b :: l := by
        simp only [List.mem_cons]
        exact or_right_comm.trans (or_comm.trans (by rw [or_comm (a := a ∈ seen)]))
      simp only [List.contains_iff_mem, id_eq, hb, if_false, hab]
      split <;> rfl

/-- Being first keeps the order. -/
theorem idxOf_firstsBy_lt_iff (ha : a ∈ l) (hb : b ∈ l) :
    (firstsBy id [] l).idxOf a < (firstsBy id [] l).idxOf b ↔ l.idxOf a < l.idxOf b := by
  have hpair : (firstsBy id [] l).Pairwise fun a b => l.idxOf a < l.idxOf b := by
    simpa using firstsBy_pairwise id [] l
  have hfirst {a b : α} (ha : a ∈ l) (hb : b ∈ l)
      (hlt : (firstsBy id [] l).idxOf a < (firstsBy id [] l).idxOf b) : l.idxOf a < l.idxOf b :=
    rel_of_idxOf_lt (R := fun a b => l.idxOf a < l.idxOf b) hpair (mem_firstsBy_id.2 ha)
      (mem_firstsBy_id.2 hb) hlt
  refine ⟨hfirst ha hb, fun hlt => ?_⟩
  by_contra hnot
  rcases Nat.lt_or_eq_of_le (Nat.le_of_not_lt hnot) with hgt | heq
  · exact Nat.lt_asymm hlt (hfirst hb ha hgt)
  · rw [(List.idxOf_inj (mem_firstsBy_id.2 hb)).1 heq] at hlt
    exact Nat.lt_irrefl _ hlt

end Order

/-! ## Discoverers -/

section Discoverer

variable [BEq α] [LawfulBEq α] {next : α → List α} {l : List α} {a b p q : α}

theorem of_discoverer? (h : discoverer? next l a = some p) : p ∈ l ∧ a ∈ next p :=
  ⟨List.mem_of_find?_eq_some h, by simpa using List.find?_some h⟩

theorem exists_discoverer? (hq : q ∈ l) (ha : a ∈ next q) : ∃ p, discoverer? next l a = some p :=
  Option.isSome_iff_exists.1 (List.find?_isSome.2 ⟨q, hq, List.contains_iff_mem.2 ha⟩)

theorem discoverer?_cons (p : α) (l : List α) (a : α) : discoverer? next (p :: l) a =
    if a ∈ next p then some p else discoverer? next l a := by
  rw [discoverer?, List.find?_cons, discoverer?]
  by_cases h : a ∈ next p <;> simp [h]

/-- Nothing before the discoverer leads to what it discovers. -/
theorem idxOf_discoverer_le (h : discoverer? next l a = some p) (ha : a ∈ next q) :
    l.idxOf p ≤ l.idxOf q := by
  induction l with
  | nil => simp [discoverer?] at h
  | cons r l ih =>
    rw [discoverer?_cons] at h
    split at h
    · rw [Option.some.inj h, List.idxOf_cons_self]
      exact Nat.zero_le _
    · next hr =>
      have hqr : q ≠ r := fun e => hr (e ▸ ha)
      rw [List.idxOf_cons_ne _ hqr.symm]
      rcases eq_or_ne p r with rfl | hpr
      · rw [List.idxOf_cons_self]
        exact Nat.zero_le _
      · rw [List.idxOf_cons_ne _ hpr.symm]
        exact Nat.succ_le_succ (ih h)

/-- What is discovered is met in the order of the discoverers, and in the order in which the same
discoverer leads to it. -/
theorem idxOf_flatMap_lt_iff (hp : discoverer? next l a = some p)
    (hq : discoverer? next l b = some q) :
    (l.flatMap next).idxOf a < (l.flatMap next).idxOf b ↔
      l.idxOf p < l.idxOf q ∨ p = q ∧ (next p).idxOf a < (next p).idxOf b := by
  induction l with
  | nil => simp [discoverer?] at hp
  | cons r l ih =>
    rw [discoverer?_cons] at hp hq
    rw [List.flatMap_cons]
    by_cases har : a ∈ next r
    · rw [if_pos har, Option.some.injEq] at hp
      subst hp
      have hlt := List.idxOf_lt_length_iff.2 har
      by_cases hbr : b ∈ next r
      · rw [if_pos hbr, Option.some.injEq] at hq
        subst hq
        rw [List.idxOf_append_of_mem har, List.idxOf_append_of_mem hbr]
        simp
      · rw [if_neg hbr] at hq
        have hne : r ≠ q := by
          rintro rfl
          exact hbr (of_discoverer? hq).2
        rw [List.idxOf_append_of_mem har, List.idxOf_append_of_notMem hbr, List.idxOf_cons_self,
          List.idxOf_cons_ne _ hne]
        exact iff_of_true (by omega) (.inl (Nat.succ_pos _))
    · rw [if_neg har] at hp
      have hne : r ≠ p := by
        rintro rfl
        exact har (of_discoverer? hp).2
      rw [List.idxOf_append_of_notMem har, List.idxOf_cons_ne _ hne]
      by_cases hbr : b ∈ next r
      · rw [if_pos hbr, Option.some.injEq] at hq
        subst hq
        have hlt := List.idxOf_lt_length_iff.2 hbr
        rw [List.idxOf_append_of_mem hbr, List.idxOf_cons_self]
        refine iff_of_false (by omega) ?_
        rintro (h | ⟨rfl, -⟩)
        · exact absurd h (Nat.not_lt_zero _)
        · exact hne rfl
      · rw [if_neg hbr] at hq
        have hne' : r ≠ q := by
          rintro rfl
          exact hbr (of_discoverer? hq).2
        rw [List.idxOf_append_of_notMem hbr, List.idxOf_cons_ne _ hne', Nat.add_lt_add_iff_left,
          ih hp hq, Nat.succ_lt_succ_iff]

end Discoverer

/-! ## Walks that came to their end -/

/-- The list of a whole walk: the start, and what the elements of the list lead to, where it is met
first; all of it can be reached. -/
structure IsWalk [BEq α] (next : α → List α) (start : α) (l : List α) : Prop where
  met : firstsBy id [] (start :: l.flatMap next) = l
  reached : ∀ a ∈ l, ∃ n, InSteps next start n a

namespace IsWalk

variable [BEq α] [LawfulBEq α] {next : α → List α} {start : α} {l : List α} {a b p q : α}

theorem nodup (h : IsWalk next start l) : l.Nodup := by
  rw [← h.met]
  exact nodup_firstsBy_id _

theorem head? (h : IsWalk next start l) : l.head? = some start := by
  rw [← h.met]
  simp [firstsBy]

theorem idxOf_start (h : IsWalk next start l) : l.idxOf start = 0 := by
  obtain ⟨l', rfl⟩ := List.head?_eq_some_iff.1 h.head?
  exact List.idxOf_cons_self

theorem idxOf_eq_zero_iff (h : IsWalk next start l) (ha : a ∈ l) : l.idxOf a = 0 ↔ a = start := by
  rw [← h.idxOf_start]
  exact List.idxOf_inj ha

theorem mem_iff_met (h : IsWalk next start l) :
    a ∈ l ↔ a = start ∨ ∃ p ∈ l, a ∈ next p := by
  conv_lhs => rw [← h.met]
  rw [mem_firstsBy_id, List.mem_cons, List.mem_flatMap]

/-- A walk lists exactly what can be reached. -/
theorem mem_iff (h : IsWalk next start l) : a ∈ l ↔ ∃ n, InSteps next start n a := by
  refine ⟨h.reached a, ?_⟩
  rintro ⟨n, hn⟩
  induction hn with
  | start => exact h.mem_iff_met.2 (.inl rfl)
  | step _ hb ih => exact h.mem_iff_met.2 (.inr ⟨_, ih, hb⟩)

theorem exists_discoverer (h : IsWalk next start l) (ha : a ∈ l) (hne : a ≠ start) :
    ∃ p, discoverer? next l a = some p := by
  obtain ⟨p, hp, hap⟩ := (h.mem_iff_met.1 ha).resolve_left hne
  exact exists_discoverer? hp hap

theorem mem_of_discoverer? (h : IsWalk next start l) (hp : discoverer? next l a = some p) :
    a ∈ l :=
  h.mem_iff_met.2 (.inr ⟨p, of_discoverer? hp⟩)

/-- What is discovered stands in the order of the discoverers, and in the order in which the same
discoverer leads to it. -/
theorem before_iff (h : IsWalk next start l) (ha : a ≠ start) (hb : b ≠ start)
    (hp : discoverer? next l a = some p) (hq : discoverer? next l b = some q) :
    l.idxOf a < l.idxOf b ↔
      l.idxOf p < l.idxOf q ∨ p = q ∧ (next p).idxOf a < (next p).idxOf b := by
  have hmet {c r : α} (hr : discoverer? next l c = some r) : c ∈ start :: l.flatMap next :=
    List.mem_cons_of_mem _ (List.mem_flatMap.2 ⟨r, of_discoverer? hr⟩)
  rw [← idxOf_flatMap_lt_iff hp hq]
  conv_lhs => rw [← h.met]
  rw [idxOf_firstsBy_lt_iff (hmet hp) (hmet hq), List.idxOf_cons_ne _ ha.symm,
    List.idxOf_cons_ne _ hb.symm, Nat.succ_lt_succ_iff]

/-- Otherwise all that can be reached would stand before `a`. -/
theorem discoverer_before (h : IsWalk next start l) (ha : a ≠ start)
    (hp : discoverer? next l a = some p) : l.idxOf p < l.idxOf a := by
  by_contra hnot
  have hbefore : ∀ n b, InSteps next start n b → l.idxOf b < l.idxOf a := by
    intro n b hb
    induction hb with
    | start =>
      rw [h.idxOf_start]
      exact Nat.pos_of_ne_zero fun e => ha ((h.idxOf_eq_zero_iff (h.mem_of_discoverer? hp)).1 e)
    | @step n c b hc hbc ih =>
      by_cases hb : b = start
      · rw [hb, h.idxOf_start]
        omega
      · obtain ⟨q, hq⟩ := exists_discoverer? (h.mem_iff.2 ⟨n, hc⟩) hbc
        have hle := idxOf_discoverer_le hq hbc
        exact (h.before_iff hb ha hq hp).2 (.inl (by omega))
  obtain ⟨n, hn⟩ := h.reached a (h.mem_of_discoverer? hp)
  exact Nat.lt_irrefl _ (hbefore n a hn)

/-- What stands before `b` can be reached in no more steps. -/
theorem reached_before (h : IsWalk next start l) {n : Nat} (hn : InSteps next start n b)
    (ha : a ∈ l) (hle : l.idxOf a ≤ l.idxOf b) : ∃ k ≤ n, InSteps next start k a := by
  induction n generalizing a b with
  | zero =>
    cases hn with
    | start =>
      rw [h.idxOf_start, Nat.le_zero, h.idxOf_eq_zero_iff ha] at hle
      exact ⟨0, Nat.le_refl 0, hle ▸ .start⟩
  | succ n ih =>
    by_cases hstart : a = start
    · exact ⟨0, Nat.zero_le _, hstart ▸ .start⟩
    cases hn with
    | @step _ c _ hc hbc =>
      have hpos : l.idxOf a ≠ 0 := fun e => hstart ((h.idxOf_eq_zero_iff ha).1 e)
      have hb : b ≠ start := by
        rintro rfl
        rw [h.idxOf_start] at hle
        omega
      obtain ⟨p, hp⟩ := h.exists_discoverer ha hstart
      obtain ⟨q, hq⟩ := exists_discoverer? (h.mem_iff.2 ⟨n, hc⟩) hbc
      -- the discoverer of `a` stands no later than that of `b`, so no later than `c`
      have hpq : ¬l.idxOf q < l.idxOf p := fun hlt =>
        Nat.not_lt.2 hle ((h.before_iff hb hstart hq hp).2 (.inl hlt))
      have hqc := idxOf_discoverer_le hq hbc
      obtain ⟨k, hk, hpk⟩ := ih hc (of_discoverer? hp).1 (by omega)
      exact ⟨k + 1, Nat.succ_le_succ hk, .step hpk (of_discoverer? hp).2⟩

/-- Nothing stands before what is nearer to the start. -/
theorem distance_le (h : IsWalk next start l) {m n : Nat} (hm : IsDistance next start m a)
    (hn : IsDistance next start n b) (hle : l.idxOf a ≤ l.idxOf b) : m ≤ n := by
  obtain ⟨k, hk, hak⟩ := h.reached_before hn.1 (h.mem_iff.2 ⟨m, hm.1⟩) hle
  exact Nat.le_trans (hm.2 k hak) hk

end IsWalk

/-! ## Walks come to their end -/

section Underway

variable [BEq α] {next : α → List α} {start a : α} {all queue seen : List α}

/-- Between two visits: what was met and looked at, and what is still in the queue, is the start and
what the visited things lead to; all of it can be reached. -/
structure Underway (next : α → List α) (start : α) (queue seen : List α) : Prop where
  met : ∃ past, past ++ queue = start :: seen.reverse.flatMap next ∧
    firstsBy id [] past = seen.reverse
  reached : ∀ a, a ∈ queue ∨ a ∈ seen → ∃ n, InSteps next start n a

theorem Underway.initial (next : α → List α) (start : α) : Underway next start [start] [] where
  met := ⟨[], rfl, rfl⟩
  reached a ha := by
    obtain rfl : a = start := by simpa using ha
    exact ⟨0, .start⟩

theorem Underway.isWalk (h : Underway next start [] seen) : IsWalk next start seen.reverse where
  met := by
    obtain ⟨past, hpast, hfirst⟩ := h.met
    rw [← hpast, List.append_nil, hfirst]
  reached a ha := h.reached a (.inr (List.mem_reverse.1 ha))

/-- How much the things that are not yet visited lead to. -/
def unseen (next : α → List α) (seen all : List α) : Nat :=
  (all.map fun a => if seen.contains a then 0 else (next a).length).sum

theorem unseen_nil (next : α → List α) (all : List α) :
    unseen next [] all = (all.map fun a => (next a).length).sum := by
  simp [unseen]

variable [LawfulBEq α]

theorem unseen_cons_le (next : α → List α) (a : α) (seen all : List α) :
    unseen next (a :: seen) all ≤ unseen next seen all := by
  induction all with
  | nil => exact Nat.le_refl _
  | cons b all ih =>
    simp only [unseen, List.map_cons, List.sum_cons, List.contains_iff_mem, List.mem_cons] at ih ⊢
    refine Nat.add_le_add ?_ ih
    by_cases hb : b ∈ seen
    · simp [hb]
    · by_cases hab : b = a <;> simp [hb, hab]

/-- A visit uses up what the visited thing leads to. -/
theorem unseen_visit (next : α → List α) (ha : a ∈ all) (hseen : a ∉ seen) :
    unseen next (a :: seen) all + (next a).length ≤ unseen next seen all := by
  induction all with
  | nil => simp at ha
  | cons b all ih =>
    have hrest := unseen_cons_le next a seen all
    simp only [unseen, List.map_cons, List.sum_cons, List.contains_iff_mem] at ih hrest ⊢
    by_cases hab : b = a
    · subst hab
      simp only [List.mem_cons_self, if_true, if_neg hseen]
      omega
    · have hmem : b ∈ a :: seen ↔ b ∈ seen := by simp [hab]
      have := ih ((List.mem_cons.1 ha).resolve_left (Ne.symm hab))
      simp only [hmem]
      omega

theorem Underway.skip (h : Underway next start (a :: queue) seen) (ha : a ∈ seen) :
    Underway next start queue seen where
  met := by
    obtain ⟨past, hpast, hfirst⟩ := h.met
    have hin : a ∈ past := by
      rw [← mem_firstsBy_id, hfirst]
      exact List.mem_reverse.2 ha
    refine ⟨past ++ [a], by rw [List.append_assoc]; exact hpast, ?_⟩
    rw [firstsBy_concat, if_pos (.inr hin), hfirst]
  reached b hb := h.reached b (hb.imp_left (List.mem_cons_of_mem a))

theorem Underway.visit (h : Underway next start (a :: queue) seen) (ha : a ∉ seen) :
    Underway next start (queue ++ next a) (a :: seen) where
  met := by
    obtain ⟨past, hpast, hfirst⟩ := h.met
    have hnew : ¬(a ∈ [] ∨ a ∈ past) := by
      rw [← mem_firstsBy_id (l := past), hfirst]
      simpa using ha
    refine ⟨past ++ [a], ?_, ?_⟩
    · rw [List.reverse_cons, List.flatMap_append, ← List.cons_append, ← hpast]
      simp
    · rw [firstsBy_concat, if_neg hnew, hfirst, List.reverse_cons]
  reached b hb := by
    obtain ⟨n, hn⟩ := h.reached a (.inl List.mem_cons_self)
    rcases hb with hb | hb
    · rcases List.mem_append.1 hb with hb | hb
      · exact h.reached b (.inl (List.mem_cons_of_mem a hb))
      · exact ⟨n + 1, .step hn hb⟩
    · rcases List.mem_cons.1 hb with rfl | hb
      · exact ⟨n, hn⟩
      · exact h.reached b (.inr hb)

/-- With fuel for the queue and for all that is not yet visited the walk comes to its end. -/
theorem Underway.breadthFirst (h : Underway next start queue seen) (hall : ∀ a, a ∈ all)
    {fuel : Nat} (hfuel : queue.length + unseen next seen all ≤ fuel) :
    IsWalk next start (breadthFirst next fuel queue seen) := by
  fun_induction InjectionPoints.breadthFirst next fuel queue seen with
  | case1 queue seen =>
    obtain rfl : queue = [] := List.length_eq_zero_iff.1 (by omega)
    exact h.isWalk
  | case2 fuel seen => exact h.isWalk
  | case3 fuel a queue seen ha ih =>
    refine ih (h.skip (List.contains_iff_mem.1 ha)) ?_
    rw [List.length_cons] at hfuel
    omega
  | case4 fuel a queue seen ha ih =>
    have hseen : a ∉ seen := fun hin => ha (List.contains_iff_mem.2 hin)
    have husedUp := unseen_visit next (hall a) hseen
    refine ih (h.visit hseen) ?_
    rw [List.length_cons] at hfuel
    rw [List.length_append]
    omega

/-- More fuel changes nothing. -/
theorem breadthFirst_of_le (hall : ∀ a, a ∈ all) {fuel more : Nat}
    (hfuel : queue.length + unseen next seen all ≤ fuel) (hmore : fuel ≤ more) :
    breadthFirst next more queue seen = breadthFirst next fuel queue seen := by
  fun_induction breadthFirst next fuel queue seen generalizing more with
  | case1 queue seen =>
    obtain rfl : queue = [] := List.length_eq_zero_iff.1 (by omega)
    cases more <;> rfl
  | case2 fuel seen => cases more <;> rfl
  | case3 fuel a queue seen ha ih =>
    obtain ⟨more, rfl⟩ : ∃ n, more = n + 1 := ⟨more - 1, by omega⟩
    rw [List.length_cons] at hfuel
    rw [breadthFirst, if_pos ha]
    exact ih (by omega) (by omega)
  | case4 fuel a queue seen ha ih =>
    obtain ⟨more, rfl⟩ : ∃ n, more = n + 1 := ⟨more - 1, by omega⟩
    have hseen : a ∉ seen := fun hin => ha (List.contains_iff_mem.2 hin)
    have husedUp := unseen_visit next (hall a) hseen
    rw [List.length_cons] at hfuel
    rw [breadthFirst, if_neg ha]
    refine ih ?_ (by omega)
    rw [List.length_append]
    omega

end Underway

end InjectionPoints
