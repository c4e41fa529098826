/-
The supertypes of a class. The walk ends, as classes declare only so many supertypes
(`supertypes_isWalk`), so all that is known of breadth-first walks holds of it, also where
declarations form diamonds or cycles: `supertypes_breadthFirst`.
-/
import Mathlib.Algebra.Order.BigOperators.Group.List
import Mathlib.Algebra.Order.Group.Nat
import InjectionPoints.ClassIndex.Hierarchy
import InjectionPoints.Proofs.Hierarchy.BreadthFirst

namespace InjectionPoints.ClassIndex

variable (ix : ClassIndex)

theorem mem_classIds (c : ix.ClassId) : c ∈ ix.classIds := List.mem_finRange c

/-- The parents of a class: its superclass, then its interfaces as they are written. -/
theorem parents_eq (c : ix.ClassId) : ix.parents c = (ix.superclass? c).toList ++
    (ix.decl c).interfaces.filterMap fun type => ix.resolve? (ix.decl c).file type := by
  rw [parents, ClassDecl.supers, List.filterMap_append, superclass?]
  cases (ix.decl c).superclass with
  | none => rfl
  | some type => cases h : ix.resolve? (ix.decl c).file type <;> simp [h]

/-- Classes have no more parents than they declare supertypes. -/
theorem unseen_parents_lt : unseen ix.parents [] ix.classIds < ix.hierarchySize := by
  have hdecls : ix.classes = ix.classIds.map ix.decl := (List.map_get_finRange ix.classes).symm
  have hsum : (ix.classIds.map fun c => (ix.parents c).length).sum ≤
      (ix.classIds.map fun c => (ix.decl c).supers.length).sum :=
    List.sum_le_sum fun c _ => List.length_filterMap_le _ _
  have hsize : ix.hierarchySize = (ix.classIds.map fun c => (ix.decl c).supers.length).sum + 1 := by
    rw [hierarchySize, List.length_flatMap, hdecls, List.map_map]
    rfl
  rw [unseen_nil, hsize]
  exact Nat.lt_succ_of_le hsum

theorem enough_fuel (c : ix.ClassId) :
    [c].length + unseen ix.parents [] ix.classIds ≤ ix.hierarchySize := by
  have := ix.unseen_parents_lt
  rw [List.length_singleton]
  omega

/-- The supertypes of a class are a whole walk along parents. -/
theorem supertypes_isWalk (c : ix.ClassId) : IsWalk ix.parents c (ix.supertypes c) :=
  (Underway.initial ix.parents c).breadthFirst ix.mem_classIds (ix.enough_fuel c)

/-- Whatever the classes declare, the walk along superclasses and interfaces ends: more fuel would
change nothing. It starts with the class, repeats nothing and lists exactly what can be reached, the
nearer first. Each other class stands behind the one that discovered it. Classes stand in the order
of their discoverers, and those of one discoverer as its parents do: the superclass first, then the
interfaces as written, each resolved in the file of the class that writes it. -/
theorem supertypes_breadthFirst (c : ix.ClassId) :
    (∀ fuel, ix.hierarchySize ≤ fuel →
      breadthFirst ix.parents fuel [c] [] = ix.supertypes c) ∧
    (ix.supertypes c).head? = some c ∧
    (ix.supertypes c).Nodup ∧
    (∀ d, d ∈ ix.supertypes c ↔ ∃ n, InSteps ix.parents c n d) ∧
    (∃ distance : ix.ClassId → Nat,
      (∀ d ∈ ix.supertypes c, IsDistance ix.parents c (distance d) d) ∧
      (ix.supertypes c).Pairwise fun d e => distance d ≤ distance e) ∧
    (∀ d ∈ ix.supertypes c, d ≠ c → ∃ p, discoverer? ix.parents (ix.supertypes c) d = some p ∧
      (ix.supertypes c).idxOf p < (ix.supertypes c).idxOf d) ∧
    (∀ d e p q, d ≠ c → e ≠ c → discoverer? ix.parents (ix.supertypes c) d = some p →
      discoverer? ix.parents (ix.supertypes c) e = some q →
      ((ix.supertypes c).idxOf d < (ix.supertypes c).idxOf e ↔
        (ix.supertypes c).idxOf p < (ix.supertypes c).idxOf q ∨
          p = q ∧ (ix.parents p).idxOf d < (ix.parents p).idxOf e)) ∧
    ∀ p, ix.parents p = (ix.superclass? p).toList ++
      (ix.decl p).interfaces.filterMap fun type => ix.resolve? (ix.decl p).file type := by
  have hwalk := ix.supertypes_isWalk c
  refine ⟨fun fuel hfuel => breadthFirst_of_le ix.mem_classIds (ix.enough_fuel c) hfuel,
    hwalk.head?, hwalk.nodup, fun d => hwalk.mem_iff, ?_, fun d hd hne => ?_,
    fun d e p q hd he hp hq => hwalk.before_iff hd he hp hq, ix.parents_eq⟩
  · have hdistance : ∀ d : ix.ClassId, ∃ n, d ∈ ix.supertypes c → IsDistance ix.parents c n d := by
      intro d
      by_cases hd : d ∈ ix.supertypes c
      · obtain ⟨n, hn⟩ := exists_isDistance (hwalk.reached d hd)
        exact ⟨n, fun _ => hn⟩
      · exact ⟨0, fun h => absurd h hd⟩
    choose distance hdistance using hdistance
    refine ⟨distance, hdistance, ?_⟩
    exact (pairwise_idxOf hwalk.nodup).imp_of_mem fun {d e} hd he hlt =>
      hwalk.distance_le (hdistance d hd) (hdistance e he) (Nat.le_of_lt hlt)
  · obtain ⟨p, hp⟩ := hwalk.exists_discoverer hd hne
    exact ⟨p, hp, hwalk.discoverer_before hne hp⟩

end InjectionPoints.ClassIndex
