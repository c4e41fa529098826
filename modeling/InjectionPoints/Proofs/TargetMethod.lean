/-
Which method an injector changes. The annotation around the injection point names it by one text, the
class around by its `@Mixin`, which must name one class only, and the text must select one method of
that class only, one with a body (`Target.Designates`). Then, and only then, there is a target: the
method with the declaration that it is read off, and the body of that declaration
(`resolve_eq_ok_iff`).
-/
import InjectionPoints.Proofs.Hierarchy.Members
import InjectionPoints.Proofs.MethodPlaces
import InjectionPoints.Proofs.Queries

namespace InjectionPoints

open Java

/-- The nearest place above `p` that is as wanted. -/
def Java.Place.IsNearest (p : Place) (wanted : Place → Prop) (n : Place) : Prop :=
  ∃ nearer farther, p.ancestors = nearer ++ n :: farther ∧ wanted n ∧ ∀ a ∈ nearer, ¬wanted a

theorem Java.Place.find?_ancestors {p n : Place} {wanted : Place → Bool} :
    p.ancestors.find? wanted = some n ↔ p.IsNearest (fun a => wanted a = true) n := by
  rw [List.find?_eq_some_iff_append, IsNearest]
  constructor
  · intro hx
    obtain ⟨hn, nearer, farther, he, hno⟩ := hx
    exact ⟨nearer, farther, he, hn, fun a ha => by simpa using hno a ha⟩
  · intro hx
    obtain ⟨nearer, farther, he, hn, hno⟩ := hx
    exact ⟨hn, nearer, farther, he, fun a ha => by simpa using hno a ha⟩

/-! ## Exactly one -/

section One

variable {α : Type}

/-- One element is left of a list without repetition when all others fail the test. -/
theorem filter_eq_singleton_iff {p : α → Bool} {l : List α} (hl : l.Nodup) {a : α} :
    l.filter p = [a] ↔ a ∈ l ∧ ∀ b ∈ l, p b = true ↔ b = a := by
  constructor
  · intro h
    have hmem : ∀ b, b ∈ l ∧ p b = true ↔ b = a := by
      intro b
      rw [← List.mem_filter, h, List.mem_singleton]
    refine ⟨((hmem a).2 rfl).1, fun b hb => ?_⟩
    rw [← hmem b]
    exact ⟨fun hp => ⟨hb, hp⟩, fun h => h.2⟩
  · intro hx
    obtain ⟨ha, hone⟩ := hx
    have hmem : ∀ b, b ∈ l.filter p ↔ b ∈ [a] := by
      intro b
      rw [List.mem_filter, List.mem_singleton]
      refine ⟨fun hb => (hone b hb.1).1 hb.2, ?_⟩
      rintro rfl
      exact ⟨ha, (hone b ha).2 rfl⟩
    exact List.perm_singleton.1 ((List.perm_ext_iff_of_nodup (hl.filter p) (List.nodup_singleton a)).2 hmem)

variable [BEq α] [LawfulBEq α]

theorem eraseReps_loop_eq_singleton_iff {a c : α} {l acc : List α} :
    List.eraseRepsBy.loop (· == ·) a l acc = [c] ↔ acc = [] ∧ a = c ∧ ∀ b ∈ l, b = c := by
  induction l generalizing a acc with
  | nil =>
    rw [List.eraseRepsBy.loop, List.reverse_eq_iff]
    simp [and_comm]
  | cons b l ih =>
    rw [List.eraseRepsBy.loop]
    cases hab : a == b with
    | true =>
      have he : a = b := beq_iff_eq.1 hab
      subst he
      rw [ih, List.forall_mem_cons]
      tauto
    | false =>
      have hne : a ≠ b := beq_eq_false_iff_ne.1 hab
      rw [ih, List.forall_mem_cons]
      refine ⟨fun h => absurd h.1 (by simp), fun h => ?_⟩
      exact absurd (h.2.1.trans h.2.2.1.symm) hne

/-- What is left when neighbours are dropped that repeat the one before is a single element exactly
when all are the same. -/
theorem eraseReps_eq_singleton_iff {c : α} {l : List α} :
    l.eraseReps = [c] ↔ ∀ b, b ∈ l ↔ b = c := by
  cases l with
  | nil => simp [List.eraseReps, List.eraseRepsBy]
  | cons a l =>
    rw [List.eraseReps, List.eraseRepsBy, eraseReps_loop_eq_singleton_iff]
    simp only [true_and, List.mem_cons]
    constructor
    · intro hx b
      obtain ⟨rfl, hl⟩ := hx
      exact ⟨fun h => h.elim id (hl b), .inl⟩
    · intro h
      exact ⟨(h a).1 (.inl rfl), fun b hb => (h b).1 (.inr hb)⟩

end One

namespace Target

/-! ## The text, the class and the method -/

/-- The `method` attribute of an injector holds one string literal, which says `text`. -/
def NamesMethod (source : String) (injector : Place) (text : String) : Prop :=
  ∃ value literal, Annotations.attribute? source "method" injector = some value ∧
    ((Annotations.values value).filter fun v => v.kind == .stringLiteral) = [literal] ∧
    text = Annotations.stringAt source literal

theorem selector?_eq_ok_iff {source text : String} {injector : Place} :
    selector? source injector = .ok text ↔ NamesMethod source injector text := by
  have hsingle : Annotations.stringsOf source "method" injector = [text] ↔
      NamesMethod source injector text := by
    rw [Annotations.stringsOf, NamesMethod]
    cases Annotations.attribute? source "method" injector with
    | none => simp
    | some value =>
      simp only [Option.map_some, Option.getD_some, Annotations.strings, Option.some.injEq,
        List.map_eq_singleton_iff, exists_and_left, exists_eq_left', eq_comm (a := text)]
  rw [← hsingle, selector?]
  split
  · next e => simp [e]
  · next texts h =>
    simp only [reduceCtorEq, false_iff]
    exact h text

/-- The first annotation called `Mixin` among the modifiers of a type declaration. -/
def IsMixin (source : String) (around mixin : Place) : Prop :=
  ∃ modifiers before behind, Annotations.modifiers? around = some modifiers ∧
    Annotations.among modifiers = before ++ mixin :: behind ∧
    Annotations.simpleName? source mixin = some "Mixin" ∧
    ∀ a ∈ before, Annotations.simpleName? source a ≠ some "Mixin"

/-- The mixin annotation of the type declaration around a place. -/
def HasMixin (source : String) (p mixin : Place) : Prop :=
  ∃ around, p.IsNearest (fun a => Kind.typeDeclarations.contains a.kind = true) around ∧
    IsMixin source around mixin

theorem mixin?_eq_some_iff {source : String} {p mixin : Place} :
    mixin? source p = some mixin ↔ HasMixin source p mixin := by
  simp only [mixin?, Place.ancestor?, Option.bind_eq_bind, Option.bind_eq_some_iff, HasMixin]
  refine exists_congr fun around => and_congr Place.find?_ancestors ?_
  simp only [List.find?_eq_some_iff_append, beq_iff_eq, Bool.not_eq_true', beq_eq_false_iff_ne]
  constructor
  · intro hx
    obtain ⟨modifiers, hm, hname, before, behind, he, hno⟩ := hx
    exact ⟨modifiers, before, behind, hm, he, hname, hno⟩
  · intro hx
    obtain ⟨modifiers, before, behind, hm, he, hname, hno⟩ := hx
    exact ⟨modifiers, hm, hname, before, behind, he, hno⟩

variable (ws : Workspace)

/-- An annotation names a class of the index, by a class literal or by a string. -/
def Names (source : String) (file : FileId) (mixin : Place) (c : ws.index.ClassId) : Prop :=
  (∃ type ∈ Annotations.classesOf source "value" mixin, ws.index.resolve? file type = some c) ∨
    ∃ name ∈ Annotations.stringsOf source "targets" mixin, ws.index.byName? name = some c

/-- The class around a place changes one class of the index, which its mixin annotation names, once
or several times, and no other. -/
def ChangesClass (source : String) (file : FileId) (p : Place) (c : ws.index.ClassId) : Prop :=
  ∃ mixin, HasMixin source p mixin ∧ ∀ d, Names ws source file mixin d ↔ d = c

variable {ws}

theorem classesNamed_eq_singleton_iff {source : String} {file : FileId} {mixin : Place}
    {c : ws.index.ClassId} :
    classesNamed ws source file mixin = [c] ↔ ∀ d, Names ws source file mixin d ↔ d = c := by
  rw [classesNamed, eraseReps_eq_singleton_iff]
  simp only [List.mem_append, List.mem_filterMap, Names]

theorem class?_eq_ok_iff {source : String} {file : FileId} {p : Place} {c : ws.index.ClassId} :
    class? ws source file p = .ok c ↔ ChangesClass ws source file p c := by
  simp only [class?, Except.bind_ok_iff, orObstacle_ok_iff, mixin?_eq_some_iff, ChangesClass,
    ← classesNamed_eq_singleton_iff]
  refine exists_congr fun mixin => and_congr_right fun _ => ?_
  split
  · next e => simp [e]
  · next h =>
    simp only [reduceCtorEq, false_iff]
    exact h c

/-- A selector matches a method of the index. -/
def Matches (selector : Selector) (m : ws.index.MethodId) : Prop :=
  selector.selects (ws.index.method m).name (ws.index.methodDescriptor m)
    (ws.index.decl m.owner).internalName = true

/-- A text is a selector that matches one method of a class and no other. -/
def SelectsOne (c : ws.index.ClassId) (text : String) (m : ws.index.MethodId) : Prop :=
  ∃ selector, Selector.parse? text = some selector ∧ m.owner = c ∧
    ∀ m' : ws.index.MethodId, m'.owner = c → (Matches selector m' ↔ m' = m)

theorem nodup_methodsOf {ix : ClassIndex} (c : ix.ClassId) : (ix.methodsOf c).Nodup := by
  refine (List.nodup_finRange _).map fun i j h => ?_
  simpa using h

theorem method?_eq_ok_iff {c : ws.index.ClassId} {text : String} {m : ws.index.MethodId} :
    method? ws c text = .ok m ↔ SelectsOne c text m := by
  simp only [method?, Except.bind_ok_iff, orObstacle_ok_iff, SelectsOne]
  refine exists_congr fun selector => and_congr_right fun _ => ?_
  have hsingle : ((ws.index.methodsOf c).filter fun m => selector.selects (ws.index.method m).name
      (ws.index.methodDescriptor m) (ws.index.decl c).internalName) = [m] ↔
      m.owner = c ∧ ∀ m' : ws.index.MethodId, m'.owner = c → (Matches selector m' ↔ m' = m) := by
    rw [filter_eq_singleton_iff (nodup_methodsOf c), ClassIndex.mem_methodsOf_iff]
    refine and_congr_right fun _ => forall_congr' fun m' => ?_
    rw [ClassIndex.mem_methodsOf_iff]
    refine forall_congr' fun hm' => ?_
    rw [← hm', Matches]
  rw [← hsingle]
  split
  · next e => simp [e]
  · next h =>
    simp only [reduceCtorEq, false_iff]
    exact h m

/-! ## The target -/

variable (ws)

/-- The injection point at a place of a file designates a method: the nearest annotation around it
names the method by one text, the class around changes the class of the method and no other, and
the text selects the method and no other of its class. -/
def Designates (file : FileId) (point : Place) (m : ws.index.MethodId) : Prop :=
  ∃ injector text, point.IsNearest (fun a => a.kind.annotates = true) injector ∧
    NamesMethod (ws.text file) injector text ∧
    ChangesClass ws (ws.text file) file point m.owner ∧ SelectsOne m.owner text m

variable {ws}

theorem resolve_eq_ok_iff_declaration? {file : FileId} {point : Place}
    {t : TargetMethod ws.index} :
    resolve ws file point = .ok t ↔ ∃ m, Designates ws file point m ∧
      (ws.index.method m).hasBody = true ∧ declaration? ws m = some t := by
  simp only [resolve, Except.bind_ok_iff, orObstacle_ok_iff, selector?_eq_ok_iff, class?_eq_ok_iff,
    method?_eq_ok_iff, Annotations.enclosing?, Place.find?_ancestors, Designates]
  constructor
  · intro hx
    obtain ⟨injector, hi, text, ht, c, hc, m, hm, hd⟩ := hx
    obtain ⟨selector, hs, rfl, hone⟩ := hm
    split at hd
    · next hb => exact ⟨m, ⟨injector, text, hi, ht, hc, selector, hs, rfl, hone⟩, hb,
        orObstacle_ok_iff.1 hd⟩
    · simp at hd
  · intro hx
    obtain ⟨m, ⟨injector, text, hi, ht, hc, hm⟩, hb, hd⟩ := hx
    refine ⟨injector, hi, text, ht, m.owner, hc, m, hm, ?_⟩
    rw [if_pos hb, hd]
    rfl

open Workspace

/-- A target is found exactly when some method with a body is designated. -/
theorem exists_resolve_iff {files : List (String × String)} {file : FileId} {point : Place}
    {m : (ofFiles files).index.MethodId} :
    (∃ t, resolve (ofFiles files) file point = .ok t ∧ t.method = m) ↔
      Designates (ofFiles files) file point m ∧ ((ofFiles files).index.method m).hasBody = true := by
  constructor
  · intro hx
    obtain ⟨t, ht, rfl⟩ := hx
    obtain ⟨m, hm, hb, hd⟩ := resolve_eq_ok_iff_declaration?.1 ht
    obtain ⟨rfl, _⟩ := (declaration?_eq_some_iff hb).1 hd
    exact ⟨hm, hb⟩
  · intro hx
    obtain ⟨hm, hb⟩ := hx
    obtain ⟨t, hd⟩ := exists_declaration? hb
    exact ⟨t, resolve_eq_ok_iff_declaration?.2 ⟨m, hm, hb, hd⟩,
      ((declaration?_eq_some_iff hb).1 hd).1⟩

end Target

end InjectionPoints
