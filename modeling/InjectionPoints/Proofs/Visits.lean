/-
What a walk gathers, and which places it visits for that. Below its start a walk leaves out a lambda
or a class body with all that is in it, and nothing else (`walked_eq_unpruned`). `collectM` is the
same walk for a function with effects. It has the effects of a loop over the places that are left,
which ends with the first find if only the first is wanted (`collectM_eq`); so a function that notes
where it is called tells the visits (`collect_visits`).
-/
import InjectionPoints.Proofs.SeparateCode

namespace InjectionPoints

open Java

/-! ## The walk with effects -/

namespace Walk

section Effects

variable {m : Type → Type} [Monad m] {α : Type}

mutual

/-- Gathers what `find` finds on a walk from a node on. -/
def collectBelowM (firstOnly : Bool) (find : Place → m (Option α)) (above : List (Tree × Nat)) :
    Tree → m (List α)
  | .node k f s cs => do
    match ← find ⟨.node k f s cs, above⟩ with
    | some a =>
      if firstOnly then return [a]
      else (a :: ·) <$> collectAmongM firstOnly find (.node k f s cs) above 0 cs
    | none => collectAmongM firstOnly find (.node k f s cs) above 0 cs

/-- Gathers what `find` finds on a walk through the children of `t` from position `i` on. -/
def collectAmongM (firstOnly : Bool) (find : Place → m (Option α)) (t : Tree)
    (above : List (Tree × Nat)) (i : Nat) : List Tree → m (List α)
  | [] => return []
  | c :: cs => do
    if isSeparate c.kind then collectAmongM firstOnly find t above (i + 1) cs
    else
      match ← collectBelowM firstOnly find ((t, i) :: above) c with
      | [] => collectAmongM firstOnly find t above (i + 1) cs
      | a :: found =>
        if firstOnly then return a :: found
        else (a :: found ++ ·) <$> collectAmongM firstOnly find t above (i + 1) cs

end

/-- Gathers what `find` finds in a list of places, one after the other. -/
def gatherM (firstOnly : Bool) (find : Place → m (Option α)) : List Place → m (List α)
  | [] => return []
  | q :: qs => do
    match ← find q with
    | some a => if firstOnly then return [a] else (a :: ·) <$> gatherM firstOnly find qs
    | none => gatherM firstOnly find qs

variable {firstOnly : Bool} {find : Place → m (Option α)}

theorem gatherM_append [LawfulMonad m] (l l' : List Place) :
    gatherM firstOnly find (l ++ l') = (do
      match ← gatherM firstOnly find l with
      | [] => gatherM firstOnly find l'
      | a :: found =>
        if firstOnly then return a :: found
        else (a :: found ++ ·) <$> gatherM firstOnly find l') := by
  induction l with
  | nil => simp [gatherM]
  | cons q l ih =>
    simp only [List.cons_append, gatherM, ih, bind_assoc]
    refine bind_congr fun found => ?_
    cases found with
    | none => rfl
    | some a =>
      cases firstOnly with
      | true => simp
      | false =>
        simp only [Bool.false_eq_true, if_false, map_bind, bind_map_left]
        refine bind_congr fun rest => ?_
        cases rest <;> simp

mutual

theorem collectBelowM_eq [LawfulMonad m] (above : List (Tree × Nat)) (t : Tree) :
    collectBelowM firstOnly find above t = gatherM firstOnly find (below above t) := by
  match t with
  | .node k f s cs =>
    simp only [collectBelowM, below, gatherM, collectAmongM_eq (.node k f s cs) above 0 cs]

theorem collectAmongM_eq [LawfulMonad m] (t : Tree) (above : List (Tree × Nat)) (i : Nat)
    (cs : List Tree) :
    collectAmongM firstOnly find t above i cs = gatherM firstOnly find (among t above i cs) := by
  match cs with
  | [] => simp only [collectAmongM, among, gatherM]
  | c :: cs =>
    simp only [collectAmongM, among, collectAmongM_eq t above (i + 1) cs]
    cases isSeparate c.kind with
    | true => simp
    | false =>
      simp only [Bool.false_eq_true, if_false, gatherM_append,
        collectBelowM_eq ((t, i) :: above) c]

end

end Effects

end Walk

/-- The walk of `collect`, for a function with effects. -/
def collectM {m : Type → Type} [Monad m] {α : Type} (firstOnly : Bool)
    (find : Place → m (Option α)) (p : Place) : m (List α) :=
  Walk.collectBelowM firstOnly find p.above p.node

theorem collectM_eq {m : Type → Type} [Monad m] [LawfulMonad m] {α : Type} (firstOnly : Bool)
    (find : Place → m (Option α)) (p : Place) :
    collectM firstOnly find p = Walk.gatherM firstOnly find (unpruned p) := by
  rw [collectM, Walk.collectBelowM_eq, ← walked_eq_unpruned, walked]

/-! ## The visits -/

variable {α : Type}

/-- Looks at a place, and notes that it did. -/
def noting (find : Place → Option α) (q : Place) : StateM (List Place) (Option α) := do
  modify (· ++ [q])
  return find q

theorem run_noting_bind {β : Type} (find : Place → Option α) (q : Place)
    (f : Option α → StateM (List Place) β) (seen : List Place) :
    (noting find q >>= f).run seen = (f (find q)).run (seen ++ [q]) := rfl

/-- Who gathers all looks at all, one after the other. -/
theorem gatherM_noting_all (find : Place → Option α) (l seen : List Place) :
    (Walk.gatherM false (noting find) l).run seen = (l.filterMap find, seen ++ l) := by
  induction l generalizing seen with
  | nil => rw [List.append_nil]; rfl
  | cons q l ih =>
    rw [Walk.gatherM, run_noting_bind, List.filterMap_cons, List.append_cons seen q l]
    cases find q with
    | none => exact ih (seen ++ [q])
    | some a =>
      simp only [Bool.false_eq_true, if_false]
      rw [StateT.run_map, ih]
      rfl

/-- Who gathers one looks no further than where it is. -/
theorem gatherM_noting_first (find : Place → Option α) (l seen : List Place) :
    (Walk.gatherM true (noting find) l).run seen =
      ((l.filterMap find).take 1,
        seen ++ l.take (l.findIdx (fun q => (find q).isSome) + 1)) := by
  induction l generalizing seen with
  | nil => rw [List.take_nil, List.append_nil]; rfl
  | cons q l ih =>
    rw [Walk.gatherM, run_noting_bind, List.filterMap_cons, List.findIdx_cons, List.take_succ_cons,
      List.append_cons seen q (List.take _ l)]
    cases find q with
    | none => exact ih (seen ++ [q])
    | some a =>
      change ([a], seen ++ [q]) = _
      simp

theorem gatherM_pure {m : Type → Type} [Monad m] [LawfulMonad m] (firstOnly : Bool)
    (find : Place → Option α) (l : List Place) :
    Walk.gatherM firstOnly (fun q => (pure (find q) : m (Option α))) l =
      pure (if firstOnly then (l.filterMap find).take 1 else l.filterMap find) := by
  induction l with
  | nil => simp [Walk.gatherM]
  | cons q l ih =>
    rw [Walk.gatherM, pure_bind, ih, List.filterMap_cons]
    cases find q <;> cases firstOnly <;> simp

/-- `collectM` is the walk of `collect`: without effects it gathers the same. -/
theorem collectM_pure {m : Type → Type} [Monad m] [LawfulMonad m] (firstOnly : Bool)
    (find : Place → Option α) (p : Place) :
    collectM firstOnly (fun q => (pure (find q) : m (Option α))) p =
      pure (collect firstOnly find p) := by
  rw [collectM_eq, gatherM_pure, ← walked_eq_unpruned]
  cases firstOnly with
  | false => rw [if_neg Bool.false_ne_true, collect_all]
  | true => rw [if_pos rfl, collect_first, collect_all]

/-- A walk gathers what is found in the places that are not pruned, in the order of the text, or the
first of that. When all is wanted it visits these places one after the other; when only the first is
wanted it ends with the first visit that finds something. -/
theorem collect_visits (find : Place → Option α) (p : Place) :
    collect false find p = (unpruned p).filterMap find ∧
      collect true find p = ((unpruned p).filterMap find).take 1 ∧
      (∀ firstOnly,
        (collectM firstOnly (fun q => (pure (find q) : Id (Option α))) p).run =
          collect firstOnly find p) ∧
      (collectM false (noting find) p).run [] = (collect false find p, unpruned p) ∧
      (collectM true (noting find) p).run [] =
        (collect true find p,
          (unpruned p).take ((unpruned p).findIdx (fun q => (find q).isSome) + 1)) := by
  have hall : collect false find p = (unpruned p).filterMap find := by
    rw [collect_all, walked_eq_unpruned]
  have hfirst : collect true find p = ((unpruned p).filterMap find).take 1 := by
    rw [collect_first, hall]
  refine ⟨hall, hfirst, fun firstOnly => ?_, ?_, ?_⟩
  · rw [collectM_pure, Id.run_pure]
  · rw [collectM_eq, gatherM_noting_all, hall, List.nil_append]
  · rw [collectM_eq, gatherM_noting_first, hfirst, List.nil_append]

end InjectionPoints
