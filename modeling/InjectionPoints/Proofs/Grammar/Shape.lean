/-
Shapes of child lists. To its parent a child is a `Part`, its role and its kind; a `Shape` is a
regular expression over parts, and `Matches` says which lists it describes. Four tests on a shape
hold of all its lists: what a list can hold (`Matches.may`), what it must hold (`Matches.must`), what
never comes before what (`Matches.orderly`), and what it begins with (`Matches.leads`).
-/
import InjectionPoints.Java.Tree

namespace InjectionPoints.Java

/-- What a child is to its parent. -/
structure Part where
  role : Option Field
  kind : Kind

def Tree.part (t : Tree) : Part := ⟨t.field, t.kind⟩

/-- A description of lists of parts. -/
inductive Shape where
  | nothing
  /-- One part with this role and one of these kinds. -/
  | one (role : Option Field) (kinds : List Kind)
  | seq (a b : Shape)
  | alt (a b : Shape)
  | many (a : Shape)

namespace Shape

/-- The lists that a shape describes. -/
inductive Matches : Shape → List Part → Prop where
  | nothing : Matches nothing []
  | one {role : Option Field} {kinds : List Kind} {kind : Kind} :
      kind ∈ kinds → Matches (one role kinds) [⟨role, kind⟩]
  | seq {a b : Shape} {ps qs : List Part} :
      Matches a ps → Matches b qs → Matches (seq a b) (ps ++ qs)
  | left {a b : Shape} {ps : List Part} : Matches a ps → Matches (alt a b) ps
  | right {a b : Shape} {ps : List Part} : Matches b ps → Matches (alt a b) ps
  | done {a : Shape} : Matches (many a) []
  | again {a : Shape} {ps qs : List Part} :
      Matches a ps → Matches (many a) qs → Matches (many a) (ps ++ qs)

/-- The shape with all its parts in one role. -/
def inRole (role : Field) : Shape → Shape
  | nothing => nothing
  | one _ kinds => one (some role) kinds
  | seq a b => seq (inRole role a) (inRole role b)
  | alt a b => alt (inRole role a) (inRole role b)
  | many a => many (inRole role a)

theorem Matches.inRole (role : Field) {a : Shape} {ps : List Part} (h : a.Matches ps) :
    (a.inRole role).Matches (ps.map fun p => ⟨some role, p.kind⟩) := by
  induction h with
  | nothing => exact .nothing
  | one hk => exact .one hk
  | seq _ _ iha ihb =>
    rw [List.map_append]
    exact .seq iha ihb
  | left _ ih => exact .left ih
  | right _ ih => exact .right ih
  | done => exact .done
  | again _ _ iha ihm =>
    rw [List.map_append]
    exact .again iha ihm

/-! ## Tests -/

variable (p q : Part → Bool)

/-- Whether some part of some list passes the test. -/
def may : Shape → Bool
  | nothing => false
  | one role kinds => kinds.any fun k => p ⟨role, k⟩
  | seq a b => may a || may b
  | alt a b => may a || may b
  | many a => may a

/-- Whether in every list some part passes the test. -/
def must : Shape → Bool
  | nothing => false
  | one role kinds => kinds.all fun k => p ⟨role, k⟩
  | seq a b => must a || must b
  | alt a b => must a && must b
  | many _ => false

/-- Whether in no list a `q` stands before a `p`. -/
def orderly : Shape → Bool
  | nothing => true
  | one _ _ => true
  | seq a b => orderly a && orderly b && !(may q a && may p b)
  | alt a b => orderly a && orderly b
  | many a => orderly a && !(may q a && may p a)

/-- Whether every list begins with a part that passes the test. -/
def leads : Shape → Bool
  | nothing => false
  | one role kinds => kinds.all fun k => p ⟨role, k⟩
  | seq a _ => leads a
  | alt a b => leads a && leads b
  | many _ => false

variable {p q}

theorem Matches.may {a : Shape} {ps : List Part} (h : a.Matches ps) {x : Part} (hx : x ∈ ps)
    (hp : p x = true) : a.may p = true := by
  induction h with
  | nothing => simp at hx
  | one hk =>
    rw [List.mem_singleton] at hx
    subst hx
    exact List.any_eq_true.2 ⟨_, hk, hp⟩
  | seq _ _ iha ihb =>
    rw [Shape.may, Bool.or_eq_true]
    rcases List.mem_append.1 hx with hx | hx
    · exact .inl (iha hx)
    · exact .inr (ihb hx)
  | left _ ih => rw [Shape.may, ih hx, Bool.true_or]
  | right _ ih => rw [Shape.may, ih hx, Bool.or_true]
  | done => simp at hx
  | again _ _ iha ihm =>
    rcases List.mem_append.1 hx with hx | hx
    · exact iha hx
    · exact ihm hx

theorem Matches.must {a : Shape} {ps : List Part} (h : a.Matches ps) (ha : a.must p = true) :
    ∃ x ∈ ps, p x = true := by
  induction h with
  | nothing => simp [Shape.must] at ha
  | one hk => exact ⟨_, List.mem_singleton.2 rfl, List.all_eq_true.1 ha _ hk⟩
  | seq _ _ iha ihb =>
    rw [Shape.must, Bool.or_eq_true] at ha
    rcases ha with ha | hb
    · obtain ⟨x, hx, hp⟩ := iha ha
      exact ⟨x, List.mem_append_left _ hx, hp⟩
    · obtain ⟨x, hx, hp⟩ := ihb hb
      exact ⟨x, List.mem_append_right _ hx, hp⟩
  | left _ ih =>
    rw [Shape.must, Bool.and_eq_true] at ha
    exact ih ha.1
  | right _ ih =>
    rw [Shape.must, Bool.and_eq_true] at ha
    exact ih ha.2
  | done => simp [Shape.must] at ha
  | again _ _ _ _ => simp [Shape.must] at ha

theorem Matches.leads {a : Shape} {ps : List Part} (h : a.Matches ps) (ha : a.leads p = true) :
    ∃ x rest, ps = x :: rest ∧ p x = true := by
  induction h with
  | one hk => exact ⟨_, [], rfl, List.all_eq_true.1 ha _ hk⟩
  | seq _ _ iha _ =>
    obtain ⟨x, rest, rfl, hx⟩ := iha ha
    exact ⟨x, rest ++ _, rfl, hx⟩
  | left _ ih =>
    rw [Shape.leads, Bool.and_eq_true] at ha
    exact ih ha.1
  | right _ ih =>
    rw [Shape.leads, Bool.and_eq_true] at ha
    exact ih ha.2
  | nothing | done | again _ _ _ _ => simp [Shape.leads] at ha

theorem may_mono (hpq : ∀ x, p x = true → q x = true) {a : Shape} (h : a.may p = true) :
    a.may q = true := by
  induction a with
  | nothing => simp [Shape.may] at h
  | one role kinds =>
    obtain ⟨k, hk, hp⟩ := List.any_eq_true.1 h
    exact List.any_eq_true.2 ⟨k, hk, hpq _ hp⟩
  | seq a b iha ihb | alt a b iha ihb =>
    rw [Shape.may, Bool.or_eq_true] at h ⊢
    exact h.imp iha ihb
  | many a ih => exact ih h

/-- Two lists without a `q` before a `p` make one, if the first has no `q` or the second no `p`. -/
theorem pairwise_append_of_may {a b : Shape} {ps qs : List Part} (ha : a.Matches ps)
    (hb : b.Matches qs) (hps : ps.Pairwise fun x y => ¬(q x = true ∧ p y = true))
    (hqs : qs.Pairwise fun x y => ¬(q x = true ∧ p y = true))
    (h : (a.may q && b.may p) = false) :
    (ps ++ qs).Pairwise fun x y => ¬(q x = true ∧ p y = true) := by
  refine List.pairwise_append.2 ⟨hps, hqs, fun x hx y hy hxy => ?_⟩
  rw [ha.may hx hxy.1, hb.may hy hxy.2] at h
  simp at h

theorem Matches.orderly {a : Shape} {ps : List Part} (h : a.Matches ps)
    (ha : a.orderly p q = true) : ps.Pairwise fun x y => ¬(q x = true ∧ p y = true) := by
  induction h with
  | nothing => exact .nil
  | one _ => exact List.pairwise_singleton _ _
  | seq h₁ h₂ ih₁ ih₂ =>
    rw [Shape.orderly, Bool.and_eq_true, Bool.and_eq_true, Bool.not_eq_true'] at ha
    exact pairwise_append_of_may h₁ h₂ (ih₁ ha.1.1) (ih₂ ha.1.2) ha.2
  | left _ ih =>
    rw [Shape.orderly, Bool.and_eq_true] at ha
    exact ih ha.1
  | right _ ih =>
    rw [Shape.orderly, Bool.and_eq_true] at ha
    exact ih ha.2
  | done => exact .nil
  | again h₁ h₂ ih₁ ih₂ =>
    have hm := ha
    rw [Shape.orderly, Bool.and_eq_true, Bool.not_eq_true'] at ha
    exact pairwise_append_of_may h₁ h₂ (ih₁ ha.1) (ih₂ hm) ha.2

end Shape

end InjectionPoints.Java
