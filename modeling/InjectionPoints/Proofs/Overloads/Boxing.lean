/-
Boxing among overloads. A call passes each argument by a conversion (`TakesBy`), and the total of a
method is the sum of how good these are (`applicability_known_iff`). As sums are compared, two good
conversions can outweigh a box: `boxed_kept` is such a call. `unboxed_iff` says when no method that
needs a box is kept, for instance when some candidate takes all arguments but one as what they are,
and this one widened or as a subclass.
-/
import InjectionPoints.Proofs.Overloads.Ranking
import InjectionPoints.Workspace

namespace InjectionPoints

/-- Related things are pictures of things that are related in another way. -/
theorem forall₂_iff_exists_map {α β γ : Type} {R : α → β → Prop} {S : α → γ → Prop} {f : γ → β}
    (h : ∀ a b, R a b ↔ ∃ c, S a c ∧ f c = b) {l : List α} {r : List β} :
    List.Forall₂ R l r ↔ ∃ cs, List.Forall₂ S l cs ∧ cs.map f = r := by
  constructor
  · intro hall
    induction hall with
    | nil => exact ⟨[], .nil, rfl⟩
    | @cons a b l r hab _ ih =>
      obtain ⟨c, hac, rfl⟩ := (h a b).1 hab
      obtain ⟨cs, hcs, rfl⟩ := ih
      exact ⟨c :: cs, .cons hac hcs, rfl⟩
  · rintro ⟨cs, hcs, rfl⟩
    rw [List.forall₂_map_right_iff]
    exact hcs.imp fun a c hac => (h a (f c)).2 ⟨c, hac, rfl⟩

namespace ClassIndex

open ArgumentType

/-! ## Conversions of a call -/

variable (ix : ClassIndex)

/-- A method takes arguments of known types by these conversions. -/
def TakesBy (m : ix.MethodId) (types : List String) (ways : List Conversion) : Prop :=
  List.Forall₂ (fun a way => ∃ param,
    ix.takenAs? m types.length a.2 (.known a.1) = some param ∧ ix.Converts way a.1 param)
    types.zipIdx ways

/-- A method takes the arguments, and puts one into a box or takes one out. -/
def NeedsBox (m : ix.MethodId) (types : List String) : Prop :=
  ∃ ways, ix.TakesBy m types ways ∧ .boxing ∈ ways

/-- A method takes each argument as what it is, widened, or as one of its supertypes. -/
def TakesUnboxed (m : ix.MethodId) (types : List String) : Prop :=
  ∃ ways, ix.TakesBy m types ways ∧ ∀ way ∈ ways, way ∈ [.same, .widening, .subclass, .general]

/-- A method takes all arguments as what they are, but at most one, and this one widened or as a
subclass. -/
def TakesAlmostAsIs (m : ix.MethodId) (types : List String) : Prop :=
  ∃ ways, ix.TakesBy m types ways ∧ (∀ way ∈ ways, way ∈ [.same, .widening, .subclass]) ∧
    ways.countP (· ≠ .same) ≤ 1

/-- The sum of how good conversions are. -/
def Conversion.total (ways : List Conversion) : Nat := (ways.map Conversion.fit).sum

variable {ix} {m : ix.MethodId} {types : List String} {candidates : List ix.MethodId}
  {ways : List Conversion}

/-- The fits of a call are those of its conversions. -/
theorem fits_known_iff {fits : List Nat} : ix.fits m (types.map .known) = some fits ↔
    ∃ ways, ix.TakesBy m types ways ∧ ways.map Conversion.fit = fits := by
  rw [fits_eq_some_iff, List.zipIdx_map, List.forall₂_map_left_iff]
  refine forall₂_iff_exists_map fun a n => ?_
  rw [Prod.map_fst, Prod.map_snd, id_eq, List.length_map, Option.bind_eq_some_iff]
  constructor
  · rintro ⟨param, hparam, hfit⟩
    obtain ⟨way, hway, hn⟩ := knownFit_eq_some_iff.1 hfit
    exact ⟨way, ⟨param, hparam, hway⟩, hn⟩
  · rintro ⟨way, ⟨param, hparam, hway⟩, hn⟩
    exact ⟨param, hparam, knownFit_eq_some_iff.2 ⟨way, hway, hn⟩⟩

/-- The total of a call is that of its conversions. -/
theorem applicability_known_iff {total : Nat} : ix.applicability m (types.map .known) = some total ↔
    ∃ ways, ix.TakesBy m types ways ∧ Conversion.total ways = total := by
  rw [applicability_eq_some_iff]
  constructor
  · rintro ⟨fits, hfits, hsum⟩
    obtain ⟨ways, hways, rfl⟩ := fits_known_iff.1 hfits
    exact ⟨ways, hways, hsum⟩
  · rintro ⟨ways, hways, htotal⟩
    exact ⟨_, fits_known_iff.2 ⟨ways, hways, rfl⟩, htotal⟩

/-- A method that takes the arguments is kept if no candidate has a greater total. -/
theorem mem_bestOverloads_of_takesBy (h : ix.TakesBy m types ways) :
    m ∈ ix.bestOverloads candidates (types.map .known) ↔ m ∈ candidates ∧
      ∀ n ∈ candidates, ∀ others, ix.TakesBy n types others →
        Conversion.total others ≤ Conversion.total ways := by
  have htotal := applicability_known_iff.2 ⟨ways, h, rfl⟩
  by_cases hm : m ∈ candidates
  · rw [mem_bestOverloads_iff ⟨m, hm, by rw [htotal, Option.isSome_some]⟩]
    refine and_congr_right fun _ => ⟨?_, fun hge => ⟨_, htotal, fun n hn other hother => ?_⟩⟩
    · rintro ⟨total, hm', hge⟩ n hn others hothers
      obtain rfl : Conversion.total ways = total := Option.some.inj (htotal.symm.trans hm')
      exact hge n hn _ (applicability_known_iff.2 ⟨others, hothers, rfl⟩)
    · obtain ⟨others, hothers, rfl⟩ := applicability_known_iff.1 hother
      exact hge n hn others hothers
  · simp only [hm, false_and, iff_false]
    exact fun hbest => hm ((bestOverloads_sublist candidates _).subset hbest)

theorem length_of_takesBy (h : ix.TakesBy m types ways) : ways.length = types.length := by
  rw [← h.length_eq, List.length_zipIdx]

/-! ## Boxes and totals -/

theorem Conversion.fit_le_three (way : Conversion) : way.fit ≤ 3 := by
  cases way <;> decide

/-- A box costs at least 2 of the best total. -/
theorem Conversion.total_of_boxing (h : .boxing ∈ ways) :
    Conversion.total ways + 2 ≤ 3 * ways.length := by
  induction ways with
  | nil => simp at h
  | cons way ways ih =>
    simp only [Conversion.total, List.map_cons, List.sum_cons, List.length_cons] at ih ⊢
    rcases List.mem_cons.1 h with rfl | h
    · have hrest : (ways.map Conversion.fit).sum ≤ ways.length * 3 := by
        have hle : ∀ n ∈ ways.map Conversion.fit, n ≤ 3 := by
          intro n hn
          obtain ⟨way, -, rfl⟩ := List.mem_map.1 hn
          exact way.fit_le_three
        simpa using List.sum_le_card_nsmul _ _ hle
      have hbox : Conversion.boxing.fit = 1 := rfl
      omega
    · have hway := way.fit_le_three
      have hrest := ih h
      omega

/-- Arguments as they are cost nothing, widened ones and those of a subclass 1. -/
theorem Conversion.total_of_unboxed (h : ∀ way ∈ ways, way ∈ [.same, .widening, .subclass]) :
    Conversion.total ways + ways.countP (· ≠ .same) = 3 * ways.length := by
  induction ways with
  | nil => rfl
  | cons way ways ih =>
    rw [List.forall_mem_cons] at h
    have hway : way.fit + (if way ≠ .same then 1 else 0) = 3 := by
      have hall : ∀ w ∈ [Conversion.same, .widening, .subclass],
          w.fit + (if w ≠ .same then 1 else 0) = 3 := by decide
      exact hall way h.1
    have hrest := ih h.2
    simp only [Conversion.total, List.map_cons, List.sum_cons, List.length_cons,
      List.countP_cons, decide_eq_true_eq] at hrest ⊢
    omega

/-- For arguments of known types no method that needs a box is kept exactly if each candidate that
needs one has a smaller total than another candidate. This is so when some candidate takes all
arguments but one as what they are, and this one widened or as a subclass. -/
theorem unboxed_iff (candidates : List ix.MethodId) (types : List String) :
    ((∀ m ∈ ix.bestOverloads candidates (types.map .known), ¬ix.NeedsBox m types) ↔
      ∀ m ∈ candidates, ∀ ways, ix.TakesBy m types ways → .boxing ∈ ways →
        ∃ n ∈ candidates, ∃ others, ix.TakesBy n types others ∧
          Conversion.total ways < Conversion.total others) ∧
    ((∃ n ∈ candidates, ix.TakesAlmostAsIs n types) →
      ∀ m ∈ ix.bestOverloads candidates (types.map .known), ¬ix.NeedsBox m types) := by
  have hiff : (∀ m ∈ ix.bestOverloads candidates (types.map .known), ¬ix.NeedsBox m types) ↔
      ∀ m ∈ candidates, ∀ ways, ix.TakesBy m types ways → .boxing ∈ ways →
        ∃ n ∈ candidates, ∃ others, ix.TakesBy n types others ∧
          Conversion.total ways < Conversion.total others := by
    constructor
    · intro hbest m hm ways hways hbox
      by_contra hmost
      refine hbest m ((mem_bestOverloads_of_takesBy hways).2 ⟨hm, fun n hn others hothers => ?_⟩)
        ⟨ways, hways, hbox⟩
      exact Nat.le_of_not_lt fun hlt => hmost ⟨n, hn, others, hothers, hlt⟩
    · rintro hless m hm ⟨ways, hways, hbox⟩
      obtain ⟨hmem, hge⟩ := (mem_bestOverloads_of_takesBy hways).1 hm
      obtain ⟨n, hn, others, hothers, hlt⟩ := hless m hmem ways hways hbox
      exact absurd (hge n hn others hothers) (Nat.not_le.2 hlt)
  refine ⟨hiff, ?_⟩
  rintro ⟨n, hn, others, hothers, hunboxed, hcount⟩
  refine hiff.2 fun m _ ways hways hbox => ⟨n, hn, others, hothers, ?_⟩
  have hworse := Conversion.total_of_boxing hbox
  have hbetter := Conversion.total_of_unboxed hunboxed
  rw [length_of_takesBy hways] at hworse
  rw [length_of_takesBy hothers] at hbetter
  omega

/-! ## Two arguments -/

/-- A class with a method that widens both arguments and one that puts the second into a box. -/
def boxingText : String := "class A\x7bvoid f(long a,long b)\x7b\x7dvoid f(int a,Integer b)\x7b\x7d\x7d"

def boxingIndex : ClassIndex := (Workspace.empty.addFile "A.java" boxingText).index

theorem boxingIndex_run : ∃ (h : 0 < boxingIndex.classes.length)
    (hw : 0 < (boxingIndex.decl ⟨0, h⟩).methods.length)
    (hb : 1 < (boxingIndex.decl ⟨0, h⟩).methods.length),
    let widened : boxingIndex.MethodId := ⟨⟨0, h⟩, ⟨0, hw⟩⟩
    let boxed : boxingIndex.MethodId := ⟨⟨0, h⟩, ⟨1, hb⟩⟩
    (∀ i ∈ [0, 1], boxingIndex.takenAs? widened 2 i (.known "I") = some "J") ∧
      boxingIndex.takenAs? boxed 2 0 (.known "I") = some "I" ∧
      boxingIndex.takenAs? boxed 2 1 (.known "I") = some (ofClass "java/lang/Integer") ∧
      (∀ m ∈ [widened, boxed], (boxingIndex.method m).acceptsArity 2) ∧
      boxed ∈ boxingIndex.bestOverloads [widened, boxed] (["I", "I"].map .known) := by
  decide +kernel

/-- Two widened arguments are no better than one as it is and one in a box. -/
theorem boxed_kept : ¬∀ (ix : ClassIndex) (candidates : List ix.MethodId) (types : List String),
    (∀ m ∈ candidates, (ix.method m).acceptsArity types.length) →
      (∃ m ∈ candidates, ix.TakesUnboxed m types) →
        ∀ m ∈ ix.bestOverloads candidates (types.map .known), ¬ix.NeedsBox m types := by
  intro hall
  obtain ⟨h, hw, hb, hlongs, hint, hinteger, harity, hkept⟩ := boxingIndex_run
  have hwidened : boxingIndex.TakesUnboxed ⟨⟨0, h⟩, ⟨0, hw⟩⟩ ["I", "I"] :=
    ⟨[.widening, .widening], .cons ⟨"J", hlongs 0 (by simp), .widening (by decide)⟩
      (.cons ⟨"J", hlongs 1 (by simp), .widening (by decide)⟩ .nil), by decide⟩
  have hboxed : boxingIndex.NeedsBox ⟨⟨0, h⟩, ⟨1, hb⟩⟩ ["I", "I"] :=
    ⟨[.same, .boxing], .cons ⟨"I", hint, .same⟩
      (.cons ⟨_, hinteger, .box (by decide) (by decide) .same⟩ .nil), by decide⟩
  exact hall boxingIndex _ ["I", "I"] harity ⟨_, by simp, hwidened⟩ _ hkept hboxed

end ClassIndex

end InjectionPoints
