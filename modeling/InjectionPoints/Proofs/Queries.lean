/-
How the questions about one cursor hang together. A reference either applies (`Applies`) or meets an
obstacle, the same one whether all elements are asked for or the first only; and the first only is
the first of all (`elements_first`). From this follow the answers of `isUnresolved` and
`resolveTarget` in terms of `resolveReference`.
-/
import InjectionPoints.Query

namespace InjectionPoints

open Java

theorem Except.bind_ok_iff {ε α β : Type} {x : Except ε α} {f : α → Except ε β} {b : β} :
    (x >>= f) = .ok b ↔ ∃ a, x = .ok a ∧ f a = .ok b := by
  cases x with
  | error e => simp [bind, Except.bind]
  | ok a => simp [bind, Except.bind]

theorem orObstacle_ok_iff {α : Type} {o : Obstacle} {x : Option α} {a : α} :
    orObstacle o x = .ok a ↔ x = some a := by
  cases x <;> simp [orObstacle]

namespace Usage

variable {ix : ClassIndex} (s : Scope ix) (element : Element) (body : Place) (text : String)

/-- Whether a text can select elements of a kind: members are selected by selectors. -/
def Understands (element : Element) (text : String) : Prop :=
  element.isMember = true → (Selector.parse? text).isSome = true

theorem find?_first :
    find? s element body text true = (find? s element body text false).map (List.take 1) := by
  unfold find?
  split
  · cases Selector.parse? text <;> simp [collect_first]
  · simp [collect_first]

theorem find?_isSome_iff (firstOnly : Bool) :
    (∃ found, find? s element body text firstOnly = some found) ↔ Understands element text := by
  unfold find? Understands
  split
  · next hm => cases Selector.parse? text <;> simp [hm]
  · next hm => simp [hm]

end Usage

namespace Reference

variable (ws : Workspace) (r : Reference)

/-- A reference applies: its injection point selects elements, its injector changes one method with
a body, and its text can select elements of that kind. -/
def Applies : Prop :=
  ∃ element m, r.element = .ok element ∧ Target.resolve ws r.file r.point = .ok m ∧
    Usage.Understands element r.text

theorem elements_ok_iff {firstOnly : Bool} {file : FileId} {found : List Place} :
    r.elements ws firstOnly = .ok (file, found) ↔
      ∃ element m, r.element = .ok element ∧ Target.resolve ws r.file r.point = .ok m ∧
        file = (ws.index.decl m.method.owner).file ∧
        Usage.find? (scope ws m) element m.body r.text firstOnly = some found := by
  simp only [elements, Except.bind_ok_iff, orObstacle_ok_iff, pure, Except.pure, Except.ok.injEq,
    Prod.mk.injEq]
  constructor
  · intro hx
    obtain ⟨element, he, m, hm, found', hf, rfl, rfl⟩ := hx
    exact ⟨element, m, he, hm, rfl, hf⟩
  · intro hx
    obtain ⟨element, m, he, hm, rfl, hf⟩ := hx
    exact ⟨element, he, m, hm, found, hf, rfl, rfl⟩

/-- Asking for the first element only answers like asking for all and keeping the first; an obstacle
is the same for both. -/
theorem elements_first :
    r.elements ws true = (r.elements ws false).map fun (file, found) => (file, found.take 1) := by
  unfold elements
  cases r.element with
  | error o => rfl
  | ok element =>
    cases Target.resolve ws r.file r.point with
    | error o => rfl
    | ok m =>
      simp only [bind, Except.bind, Usage.find?_first]
      cases Usage.find? (scope ws m) element m.body r.text false <;> rfl

theorem applies_iff (firstOnly : Bool) :
    r.Applies ws ↔ ∃ file found, r.elements ws firstOnly = .ok (file, found) := by
  simp only [Applies, elements_ok_iff]
  constructor
  · intro hx
    obtain ⟨element, m, he, hm, hu⟩ := hx
    obtain ⟨found, hf⟩ := (Usage.find?_isSome_iff (scope ws m) element m.body r.text firstOnly).2 hu
    exact ⟨_, found, element, m, he, hm, rfl, hf⟩
  · intro hx
    obtain ⟨file, found, element, m, he, hm, -, hf⟩ := hx
    exact ⟨element, m, he, hm,
      (Usage.find?_isSome_iff (scope ws m) element m.body r.text firstOnly).1 ⟨found, hf⟩⟩

theorem elements_error (h : ¬ r.Applies ws) (firstOnly : Bool) :
    ∃ o, r.elements ws firstOnly = .error o := by
  cases e : r.elements ws firstOnly with
  | error o => exact ⟨o, rfl⟩
  | ok x => exact absurd ((r.applies_iff ws firstOnly).2 ⟨x.1, x.2, e⟩) h

end Reference

namespace Query

variable (ws : Workspace) (path : String) (offset : Nat)

/-- The question about a cursor ends early: there is no reference, or its injection point selects
no elements, or its injector does not change one method with a body, or its text can select nothing
of that kind. -/
def EndsEarly : Prop :=
  ∀ r, Reference.at? ws path offset = some r →
    (∃ o, r.element = .error o) ∨ (∃ o, Target.resolve ws r.file r.point = .error o) ∨
      ∃ element, r.element = .ok element ∧ element.isMember = true ∧ Selector.parse? r.text = none

theorem EndsEarly.not_applies (h : EndsEarly ws path offset) {r : Reference}
    (hr : Reference.at? ws path offset = some r) : ¬ r.Applies ws := by
  intro hx
  obtain ⟨element, m, he, hm, hu⟩ := hx
  rcases h r hr with ⟨o, ho⟩ | ⟨o, ho⟩ | ⟨element', he', hmember, hnone⟩
  · rw [he] at ho
    cases ho
  · rw [hm] at ho
    cases ho
  · rw [he] at he'
    cases he'
    exact absurd (hu hmember) (by simp [hnone])

/-- What an editor is told at a cursor without a reference, or with one that does not apply. -/
theorem answers_of_not_applies
    (h : ∀ r, Reference.at? ws path offset = some r → ¬ r.Applies ws) :
    (isUnresolved ws path offset).value = false ∧
      (resolveReference ws path offset).value = [] ∧
      (resolveTarget ws path offset).value = none := by
  cases hr : Reference.at? ws path offset with
  | none => simp [isUnresolved, resolveTarget, resolveReference, ask, hr]
  | some r =>
    obtain ⟨o, hfull⟩ := r.elements_error ws (h r hr) false
    obtain ⟨o', hfirst⟩ := r.elements_error ws (h r hr) true
    simp [isUnresolved, Reference.isUnresolved, resolveTarget, resolveReference, ask, hr, hfull,
      hfirst, Except.map, Logged.ofExcept]

/-- What an editor is told about a reference that applies. -/
theorem answers_of_elements {r : Reference} {file : FileId} {found : List Place}
    (hr : Reference.at? ws path offset = some r) (hf : r.elements ws false = .ok (file, found)) :
    (isUnresolved ws path offset).value = found.isEmpty ∧
      (resolveReference ws path offset).value = found.map fun p => ⟨ws.path file, p.span⟩ := by
  have hfirst := r.elements_first ws
  rw [hf] at hfirst
  refine ⟨?_, by simp [resolveReference, ask, hr, hf, Except.map, Logged.ofExcept]⟩
  simp only [isUnresolved, ask, hr, Reference.isUnresolved, hfirst, Except.map, Logged.ofExcept]
  cases found <;> rfl

theorem resolveTarget_eq_some_iff (t : Location) :
    (resolveTarget ws path offset).value = some t ↔
      (resolveReference ws path offset).value = [t] := by
  simp only [resolveTarget]
  split
  · next l e => simp [e]
  · next h =>
    simp only [reduceCtorEq, false_iff]
    exact fun e => h t e

/-- The questions about a cursor agree: the first element only is the first of all, under the same
obstacles; a reference is unresolved exactly when it applies and nothing is found; there is a target
exactly when one element is found; and without a reference that applies all answers are empty. -/
theorem answers_agree :
    (∀ r : Reference, r.elements ws true =
      (r.elements ws false).map fun (file, found) => (file, found.take 1)) ∧
    ((isUnresolved ws path offset).value = true ↔
      ∃ r element m, Reference.at? ws path offset = some r ∧ r.element = .ok element ∧
        Target.resolve ws r.file r.point = .ok m ∧
        (element.isMember = true → (Selector.parse? r.text).isSome = true) ∧
        (resolveReference ws path offset).value = []) ∧
    (∀ t, (resolveTarget ws path offset).value = some t ↔
      (resolveReference ws path offset).value = [t]) ∧
    (EndsEarly ws path offset →
      (isUnresolved ws path offset).value = false ∧ (resolveReference ws path offset).value = [] ∧
        (resolveTarget ws path offset).value = none) := by
  refine ⟨fun r => r.elements_first ws, ⟨fun hu => ?_, ?_⟩, resolveTarget_eq_some_iff ws path offset,
    fun h => answers_of_not_applies ws path offset fun r => h.not_applies⟩
  · by_cases h : ∀ r, Reference.at? ws path offset = some r → ¬ r.Applies ws
    · rw [(answers_of_not_applies ws path offset h).1] at hu
      exact absurd hu (by simp)
    · simp only [Classical.not_forall, Classical.not_not] at h
      obtain ⟨r, hr, ha⟩ := h
      obtain ⟨file, found, hf⟩ := (r.applies_iff ws false).1 ha
      obtain ⟨element, m, he, hm, hunderstood⟩ := ha
      obtain ⟨h1, h2⟩ := answers_of_elements ws path offset hr hf
      rw [h1, List.isEmpty_iff] at hu
      exact ⟨r, element, m, hr, he, hm, hunderstood, by rw [h2, hu, List.map_nil]⟩
  · intro hx
    obtain ⟨r, element, m, hr, he, hm, hunderstood, hnone⟩ := hx
    obtain ⟨file, found, hf⟩ := (r.applies_iff ws false).1 ⟨element, m, he, hm, hunderstood⟩
    obtain ⟨h1, h2⟩ := answers_of_elements ws path offset hr hf
    rw [h2, List.map_eq_nil_iff] at hnone
    rw [h1, hnone, List.isEmpty_nil]

end Query

end InjectionPoints
