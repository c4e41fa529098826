/-
Walks through a method body. Lambdas and class bodies become methods of their own, so a walk leaves
them out wherever they are met below its start. `walked` lists the places of a walk; `collect` makes
the walk and gathers what a function finds, all of it (`collect_all`) or the first find only
(`collect_first`).
-/
import InjectionPoints.Java.Place

namespace InjectionPoints

open Java

/-- Whether what is inside a node of this kind becomes a method of its own. -/
def isSeparate (k : Kind) : Bool := k == .lambdaExpression || k == .classBody

namespace Walk

mutual

/-- The places of a walk from a node on. -/
def below (above : List (Tree × Nat)) : Tree → List Place
  | .node k f s cs => ⟨.node k f s cs, above⟩ :: among (.node k f s cs) above 0 cs

/-- The places of a walk through the children of `t` from position `i` on. -/
def among (t : Tree) (above : List (Tree × Nat)) (i : Nat) : List Tree → List Place
  | [] => []
  | c :: cs =>
    (if isSeparate c.kind then [] else below ((t, i) :: above) c) ++ among t above (i + 1) cs

end

variable {α : Type}

mutual

/-- Gathers what `find` finds on a walk from a node on. -/
def collectBelow (firstOnly : Bool) (find : Place → Option α) (above : List (Tree × Nat)) :
    Tree → List α
  | .node k f s cs =>
    match find ⟨.node k f s cs, above⟩ with
    | some a =>
      if firstOnly then [a] else a :: collectAmong firstOnly find (.node k f s cs) above 0 cs
    | none => collectAmong firstOnly find (.node k f s cs) above 0 cs

/-- Gathers what `find` finds on a walk through the children of `t` from position `i` on. -/
def collectAmong (firstOnly : Bool) (find : Place → Option α) (t : Tree)
    (above : List (Tree × Nat)) (i : Nat) : List Tree → List α
  | [] => []
  | c :: cs =>
    if isSeparate c.kind then collectAmong firstOnly find t above (i + 1) cs
    else
      match collectBelow firstOnly find ((t, i) :: above) c with
      | [] => collectAmong firstOnly find t above (i + 1) cs
      | a :: found =>
        if firstOnly then a :: found
        else a :: found ++ collectAmong firstOnly find t above (i + 1) cs

end

mutual

theorem collectBelow_all (find : Place → Option α) (above : List (Tree × Nat)) (t : Tree) :
    collectBelow false find above t = (below above t).filterMap find := by
  match t with
  | .node k f s cs =>
    simp only [collectBelow, below, List.filterMap_cons]
    cases find ⟨.node k f s cs, above⟩ <;>
      simp [collectAmong_all find (.node k f s cs) above 0 cs]

theorem collectAmong_all (find : Place → Option α) (t : Tree) (above : List (Tree × Nat)) (i : Nat)
    (cs : List Tree) :
    collectAmong false find t above i cs = (among t above i cs).filterMap find := by
  match cs with
  | [] => simp [collectAmong, among]
  | c :: cs =>
    have hc := collectBelow_all find ((t, i) :: above) c
    have hcs := collectAmong_all find t above (i + 1) cs
    simp only [collectAmong, among, hcs]
    split
    · simp
    · rw [List.filterMap_append, ← hc]
      cases collectBelow false find ((t, i) :: above) c <;> simp

end

mutual

theorem collectBelow_first (find : Place → Option α) (above : List (Tree × Nat)) (t : Tree) :
    collectBelow true find above t = ((below above t).filterMap find).take 1 := by
  match t with
  | .node k f s cs =>
    simp only [collectBelow, below, List.filterMap_cons]
    cases find ⟨.node k f s cs, above⟩ <;>
      simp [collectAmong_first find (.node k f s cs) above 0 cs]

theorem collectAmong_first (find : Place → Option α) (t : Tree) (above : List (Tree × Nat))
    (i : Nat) (cs : List Tree) :
    collectAmong true find t above i cs = ((among t above i cs).filterMap find).take 1 := by
  match cs with
  | [] => simp [collectAmong, among]
  | c :: cs =>
    have hc := collectBelow_first find ((t, i) :: above) c
    have hcs := collectAmong_first find t above (i + 1) cs
    simp only [collectAmong, among, hcs]
    split
    · simp
    · rw [List.filterMap_append, hc]
      cases (below ((t, i) :: above) c).filterMap find <;> simp

end

end Walk

/-- The places of a walk that starts at `p`, in pre-order. -/
def walked (p : Place) : List Place := Walk.below p.above p.node

/-- Walks from `p` on and gathers what `find` finds; with `firstOnly` the walk ends with the first
find. -/
def collect {α : Type} (firstOnly : Bool) (find : Place → Option α) (p : Place) : List α :=
  Walk.collectBelow firstOnly find p.above p.node

theorem collect_all {α : Type} (find : Place → Option α) (p : Place) :
    collect false find p = (walked p).filterMap find :=
  Walk.collectBelow_all find p.above p.node

theorem collect_first {α : Type} (find : Place → Option α) (p : Place) :
    collect true find p = (collect false find p).take 1 := by
  rw [collect_all]
  exact Walk.collectBelow_first find p.above p.node

end InjectionPoints
