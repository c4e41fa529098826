/-
Breadth-first order: what can be reached from a start by steps, nearest first, without repetition.
What one thing leads to keeps its order, and follows what earlier things lead to.
-/
namespace InjectionPoints

variable {α : Type}

/-- Walks through a queue of things to visit; `seen` holds those visited, the last one first. The
fuel bounds how many things leave the queue. -/
def breadthFirst [BEq α] (next : α → List α) : Nat → List α → List α → List α
  | 0, _, seen => seen.reverse
  | _ + 1, [], seen => seen.reverse
  | fuel + 1, a :: queue, seen =>
    if seen.contains a then breadthFirst next fuel queue seen
    else breadthFirst next fuel (queue ++ next a) (a :: seen)

end InjectionPoints
