/-
Overloads when types of arguments are not known. For every number of arguments that a method accepts
it has a parameter for each of them (`isSome_parameterAt?`). An argument of unknown type fits it and
adds nothing to the total (`applicability_set_unknown`), so what takes the arguments still takes them
when less is known. Which candidates are best depends on the totals of the other arguments: one that
was the best need not stay so (`best_displaced`).
-/
import InjectionPoints.Proofs.MethodPlaces
import InjectionPoints.Proofs.Overloads.Ranking

namespace InjectionPoints

theorem sum_set_zero (xs : List Nat) (i : Nat) : (xs.set i 0).sum = (xs.eraseIdx i).sum := by
  induction xs generalizing i with
  | nil => rfl
  | cons x xs ih =>
    cases i with
    | zero => simp
    | succ i => simp [ih]

/-- A method of variable arity has a parameter that takes the arguments. -/
theorem Workspace.params_ne_nil (files : List (String × String))
    {m : (ofFiles files).index.MethodId} (hv : ((ofFiles files).index.method m).varargs = true) :
    ((ofFiles files).index.method m).params ≠ [] := by
  obtain ⟨declaration, _, _, _, _, package, outer, hreads⟩ := exists_classAt files m.owner
  obtain ⟨implicitly, hmethods, hfixed⟩ := ClassDecl.methods_of_ofTree? hreads
  have hmem : (ofFiles files).index.method m ∈ ((ofFiles files).index.decl m.owner).methods :=
    List.getElem_mem m.slot.isLt
  rw [hmethods] at hmem
  rcases List.mem_append.1 hmem with hmem | hmem
  · obtain ⟨⟨p, d⟩, hp, hd⟩ := List.mem_map.1 hmem
    obtain ⟨_, _, hread⟩ := MethodDecl.of_mem_readAt hp
    rw [← hd] at hv ⊢
    exact MethodDecl.params_ne_nil_of_ofTree? hread hv
  · rw [(hfixed _ hmem).2] at hv
    exact absurd hv (by simp)

namespace ClassIndex

variable (ix : ClassIndex)

/-- The parameter that is looked up for the argument at a position: its own, or the last one, which
takes all that is behind the parameters for one argument each. -/
def parameterAt? (m : ix.MethodId) (position : Nat) : Option String :=
  if position < fixedCount (ix.method m) then (ix.parameterDescriptors m)[position]?
  else (ix.parameterDescriptors m).getLast?

variable {ix} {m : ix.MethodId} {args : List ArgumentType}

/-! ## Parameters -/

/-- Whether there is a parameter for an argument does not depend on its type. -/
theorem isSome_takenAs? (m : ix.MethodId) (arity position : Nat) (arg : ArgumentType) :
    (ix.takenAs? m arity position arg).isSome = (ix.parameterAt? m position).isSome := by
  unfold takenAs? parameterAt?
  split
  · rfl
  · rw [Option.isSome_map]

theorem isSome_parameterAt? {arity position : Nat}
    (hlast : (ix.method m).varargs = true → (ix.method m).params ≠ [])
    (h : (ix.method m).acceptsArity arity = true) (hp : position < arity) :
    (ix.parameterAt? m position).isSome := by
  have hlength := length_parameterDescriptors m
  unfold parameterAt? fixedCount
  cases hv : (ix.method m).varargs with
  | false =>
    -- there are as many parameters as arguments
    have harity : (ix.method m).params.length = arity := by
      simpa [MethodDecl.acceptsArity, hv] using h
    simp only [Bool.false_eq_true, if_false]
    rw [if_pos (by omega), Option.isSome_iff_ne_none, Ne, List.getElem?_eq_none_iff]
    omega
  | true =>
    have hne := List.length_pos_iff.2 (hlast hv)
    simp only [if_true]
    split
    · rw [Option.isSome_iff_ne_none, Ne, List.getElem?_eq_none_iff]
      omega
    · rw [List.getLast?_isSome, ← List.length_pos_iff]
      omega

/-! ## Totals -/

/-- The fits of a call, position by position. -/
theorem fits_eq_some_iff_getElem {fits : List Nat} :
    ix.fits m args = some fits ↔ args.length = fits.length ∧
      ∀ i (hi : i < args.length) (hj : i < fits.length),
        (ix.takenAs? m args.length i args[i]).bind (ix.fit args[i]) = some fits[i] := by
  rw [fits_eq_some_iff, List.forall₂_iff_get]
  simp

/-- An argument of unknown type fits wherever there is a parameter for it, and adds nothing. -/
theorem fit_unknown {arity position : Nat} (h : (ix.parameterAt? m position).isSome) :
    (ix.takenAs? m arity position .unknown).bind (ix.fit .unknown) = some 0 := by
  rw [← isSome_takenAs? m arity position .unknown] at h
  obtain ⟨param, hparam⟩ := Option.isSome_iff_exists.1 h
  rw [hparam]
  rfl

/-- When the type of one argument is not known any more, the other ones fit as before. -/
theorem fits_set_unknown {fits : List Nat} (h : ix.fits m args = some fits) (i : Nat) :
    ix.fits m (args.set i .unknown) = some (fits.set i 0) := by
  obtain ⟨hlength, hfits⟩ := fits_eq_some_iff_getElem.1 h
  refine fits_eq_some_iff_getElem.2 ⟨by simpa using hlength, fun j hj hj' => ?_⟩
  rw [List.length_set] at hj hj'
  have hfit := hfits j hj hj'
  rw [List.length_set]
  by_cases hij : i = j
  · subst hij
    rw [List.getElem_set_self, List.getElem_set_self]
    obtain ⟨param, hparam, _⟩ := Option.bind_eq_some_iff.1 hfit
    refine fit_unknown ?_
    rw [← isSome_takenAs? m args.length i args[i], hparam, Option.isSome_some]
  · rw [List.getElem_set_ne hij, List.getElem_set_ne hij]
    exact hfit

theorem applicability_set_unknown {fits : List Nat} (h : ix.fits m args = some fits) (i : Nat) :
    ix.applicability m (args.set i .unknown) = some (fits.eraseIdx i).sum :=
  applicability_eq_some_iff.2 ⟨_, fits_set_unknown h i, sum_set_zero fits i⟩

theorem applicability_set_unknown_le {total : Nat} (h : ix.applicability m args = some total)
    (i : Nat) : ∃ other ≤ total, ix.applicability m (args.set i .unknown) = some other := by
  obtain ⟨fits, hfits, rfl⟩ := applicability_eq_some_iff.1 h
  refine ⟨_, ?_, applicability_set_unknown hfits i⟩
  exact (fits.eraseIdx_sublist i).sum_le_sum fun _ _ => Nat.zero_le _

/-- Where nothing is known there is nothing to rank by. -/
theorem applicability_unknowns
    (h : ∀ position < args.length, (ix.parameterAt? m position).isSome) :
    ix.applicability m (args.map fun _ => .unknown) = some 0 := by
  refine applicability_eq_some_iff.2 ⟨args.map fun _ => 0, ?_, by simp⟩
  refine fits_eq_some_iff_getElem.2 ⟨by simp, fun i hi _ => ?_⟩
  rw [List.length_map] at hi
  rw [List.getElem_map, List.getElem_map]
  exact fit_unknown (h i hi)

/-- For every number of arguments that a method accepts it has a parameter for each of them, and
takes arguments of which nothing is known, with the total 0. Where it takes the arguments it also
does so with less known of them, with no greater total; so the candidates that take the arguments
become more. Among these it is kept exactly if no other one takes the remaining arguments with a
greater total. If nothing is known all candidates are kept. -/
theorem unknown_widens (files : List (String × String))
    (m : (Workspace.ofFiles files).index.MethodId) (args : List ArgumentType)
    (h : ((Workspace.ofFiles files).index.method m).acceptsArity args.length = true) :
    let ix := (Workspace.ofFiles files).index
    (∀ position < args.length, (ix.parameterAt? m position).isSome) ∧
      ix.applicability m (args.map fun _ => .unknown) = some 0 ∧
      (∀ i total, ix.applicability m args = some total →
        ∃ other ≤ total, ix.applicability m (args.set i .unknown) = some other) ∧
      ∀ candidates : List ix.MethodId,
        (∀ i, (candidates.filter fun n => (ix.applicability n args).isSome).Sublist
          (candidates.filter fun n => (ix.applicability n (args.set i .unknown)).isSome)) ∧
        (m ∈ candidates → ∀ i fits, ix.fits m args = some fits →
          (m ∈ ix.bestOverloads candidates (args.set i .unknown) ↔
            ∀ n ∈ candidates, ∀ other,
              ix.applicability n (args.set i .unknown) = some other →
                other ≤ (fits.eraseIdx i).sum)) ∧
        ((∀ n ∈ candidates, (ix.method n).acceptsArity args.length = true) →
          ix.bestOverloads candidates (args.map fun _ => .unknown) = candidates) := by
  intro ix
  have hparameters : ∀ n : ix.MethodId, (ix.method n).acceptsArity args.length = true →
      ∀ position < args.length, (ix.parameterAt? n position).isSome := fun n hn position hp =>
    isSome_parameterAt? (Workspace.params_ne_nil files) hn hp
  refine ⟨hparameters m h, applicability_unknowns (hparameters m h),
    fun i total htotal => applicability_set_unknown_le htotal i, fun candidates => ⟨?_, ?_, ?_⟩⟩
  · intro i
    refine List.monotone_filter_right candidates fun n hn => ?_
    obtain ⟨total, htotal⟩ := Option.isSome_iff_exists.1 hn
    obtain ⟨other, _, hother⟩ := applicability_set_unknown_le htotal i
    rw [hother, Option.isSome_some]
  · intro hm i fits hfits
    have htotal := applicability_set_unknown hfits i
    rw [mem_bestOverloads_iff ⟨m, hm, by rw [htotal, Option.isSome_some]⟩]
    constructor
    · rintro ⟨_, total, hm', hge⟩
      rwa [Option.some.inj (htotal.symm.trans hm')]
    · exact fun hge => ⟨hm, _, htotal, hge⟩
  · intro hall
    exact bestOverloads_eq_self_iff.2
      (.inr ⟨0, fun n hn => applicability_unknowns (hparameters n (hall n hn))⟩)

/-- A class with a method that takes any number of strings behind a number. -/
def spreadFiles : List (String × String) :=
  [("A.java", "class A\x7bvoid f(int a,String... b)\x7b\x7d\x7d")]

theorem spreadFiles_run :
    ∃ (h : 0 < (Workspace.ofFiles spreadFiles).index.classes.length)
      (hf : 0 < ((Workspace.ofFiles spreadFiles).index.decl ⟨0, h⟩).methods.length),
      let f : (Workspace.ofFiles spreadFiles).index.MethodId := ⟨⟨0, h⟩, ⟨0, hf⟩⟩
      ((Workspace.ofFiles spreadFiles).index.method f).acceptsArity 1 = true ∧
        ((Workspace.ofFiles spreadFiles).index.method f).acceptsArity 3 = true ∧
        (Workspace.ofFiles spreadFiles).index.applicability f
          [.known "I", .null, .known "Ljava/lang/String;"] = some 7 := by
  decide +kernel

/-- Strings of which nothing is known, none of them or two. -/
theorem unknown_widens_spread :
    ∃ f : (Workspace.ofFiles spreadFiles).index.MethodId,
      ((Workspace.ofFiles spreadFiles).index.method f).acceptsArity 1 = true ∧
        ((Workspace.ofFiles spreadFiles).index.method f).acceptsArity 3 = true ∧
        (Workspace.ofFiles spreadFiles).index.applicability f [.unknown] = some 0 ∧
        ∃ other ≤ 7, (Workspace.ofFiles spreadFiles).index.applicability f
          [.known "I", .null, .unknown] = some other := by
  obtain ⟨h, hf, hone, hthree, htotal⟩ := spreadFiles_run
  refine ⟨⟨⟨0, h⟩, ⟨0, hf⟩⟩, hone, hthree, ?_, ?_⟩
  · exact (unknown_widens spreadFiles _ [.known "I"] hone).2.1
  · exact (unknown_widens spreadFiles _ [.known "I", .null, .known "Ljava/lang/String;"]
      hthree).2.2.1 2 7 htotal

/-! ## What was the best -/

/-- A class with a method that is better for the first argument, and one that is better for the
second. -/
def crossedFiles : List (String × String) :=
  [("A.java",
    "class A\x7bvoid f(int a,Object b)\x7b\x7dvoid f(long a,String b)\x7b\x7d\x7d")]

theorem crossedFiles_run :
    ∃ (h : 0 < (Workspace.ofFiles crossedFiles).index.classes.length)
      (hi : 0 < ((Workspace.ofFiles crossedFiles).index.decl ⟨0, h⟩).methods.length)
      (hs : 1 < ((Workspace.ofFiles crossedFiles).index.decl ⟨0, h⟩).methods.length),
      let ix := (Workspace.ofFiles crossedFiles).index
      let number : ix.MethodId := ⟨⟨0, h⟩, ⟨0, hi⟩⟩
      let string : ix.MethodId := ⟨⟨0, h⟩, ⟨1, hs⟩⟩
      (∀ m ∈ [number, string], (ix.method m).acceptsArity 2 = true) ∧
        ix.bestOverloads [number, string] [.known "I", .known "Ljava/lang/String;"] = [string] ∧
        (ix.applicability string [.known "I", .known "Ljava/lang/String;"]).isSome ∧
        ix.bestOverloads [number, string] [.known "I", .unknown] = [number] ∧ number ≠ string := by
  decide +kernel

/-- A candidate that was the best is not kept when the type of an argument is not known that made it
the best. -/
theorem best_displaced :
    ¬∀ (files : List (String × String)) (candidates : List (Workspace.ofFiles files).index.MethodId)
      (args : List ArgumentType) (i : Nat),
      (∀ m ∈ candidates,
        ((Workspace.ofFiles files).index.method m).acceptsArity args.length = true) →
        ∀ m ∈ (Workspace.ofFiles files).index.bestOverloads candidates args,
          ((Workspace.ofFiles files).index.applicability m args).isSome →
            m ∈ (Workspace.ofFiles files).index.bestOverloads candidates (args.set i .unknown) := by
  intro hall
  obtain ⟨h, hi, hs, harity, hbest, htakes, hother, hne⟩ := crossedFiles_run
  have hkept := hall crossedFiles [⟨⟨0, h⟩, ⟨0, hi⟩⟩, ⟨⟨0, h⟩, ⟨1, hs⟩⟩]
    [.known "I", .known "Ljava/lang/String;"] 1 harity ⟨⟨0, h⟩, ⟨1, hs⟩⟩
    (by rw [hbest]; exact List.mem_cons_self) htakes
  rw [show [ArgumentType.known "I", .known "Ljava/lang/String;"].set 1 .unknown =
    [.known "I", .unknown] from rfl, hother] at hkept
  exact hne (List.mem_singleton.1 hkept).symm

end ClassIndex

end InjectionPoints
