/-
What the question whether a reference is unresolved writes to the log. A reference that does not
apply meets one obstacle, told without the search for it (`Reference.Meets`), and the log holds the
event of that obstacle, if it has one (`log_isUnresolved`). Three obstacles on the way to the target
have none, so there a question ends without a trace (`isUnresolved_log`).
-/
import InjectionPoints.Proofs.TargetMethod

namespace InjectionPoints

open Java

section Except

variable {ε α β : Type}

theorem Except.bind_error_iff {x : Except ε α} {f : α → Except ε β} {e : ε} :
    (x >>= f) = .error e ↔ x = .error e ∨ ∃ a, x = .ok a ∧ f a = .error e := by
  cases x with
  | error e' => simp [bind, Except.bind]
  | ok a => simp [bind, Except.bind]

theorem orObstacle_error_iff {o o' : Obstacle} {x : Option α} :
    orObstacle o x = .error o' ↔ x = none ∧ o' = o := by
  cases x <;> simp [orObstacle, eq_comm]

end Except

namespace Target

variable {ws : Workspace} {source : String} {file : FileId} {o : Obstacle}

/-! ## Obstacles on the way to the target -/

theorem enclosing?_eq_none_iff {point : Place} : Annotations.enclosing? point = none ↔
    ∀ injector, ¬point.IsNearest (fun a => a.kind.annotates = true) injector := by
  simp only [← Place.find?_ancestors, Option.eq_none_iff_forall_ne_some, Annotations.enclosing?, ne_eq]

theorem selector?_eq_error_iff {injector : Place} :
    selector? source injector = .error o ↔ (∀ text, ¬NamesMethod source injector text) ∧
      o = .methodCount ((Annotations.simpleName? source injector).getD "")
        (Annotations.stringsOf source "method" injector).length := by
  simp only [← selector?_eq_ok_iff]
  unfold selector?
  split
  · simp
  · simp [eq_comm]

theorem class?_eq_error_iff {p : Place} :
    class? ws source file p = .error o ↔
      (∀ mixin, ¬HasMixin source p mixin) ∧ o = .noMixin ∨
      ∃ mixin, HasMixin source p mixin ∧ (∀ c, ¬ChangesClass ws source file p c) ∧
        o = .classCount (classesNamed ws source file mixin).length := by
  simp only [← class?_eq_ok_iff, ← mixin?_eq_some_iff]
  unfold class?
  cases hm : mixin? source p with
  | none => simp [orObstacle, bind, Except.bind, eq_comm]
  | some mixin =>
    simp only [orObstacle, bind, Except.bind, Option.some.injEq, exists_eq_left']
    split
    · simp
    · simp [eq_comm]

theorem method?_eq_error_iff {c : ws.index.ClassId} {text : String} :
    method? ws c text = .error o ↔ Selector.parse? text = none ∧ o = .unreadableMethod ∨
      (∃ selector, Selector.parse? text = some selector) ∧ (∀ m, ¬SelectsOne c text m) ∧
        o = .methodNotUnique text := by
  simp only [← method?_eq_ok_iff]
  unfold method?
  cases hs : Selector.parse? text with
  | none => simp [orObstacle, bind, Except.bind, eq_comm]
  | some selector =>
    simp only [orObstacle, bind, Except.bind]
    split
    · simp
    · simp [eq_comm]

/-- What is in the way of a target: the first thing that is missing or not unique. -/
inductive Hinders (ws : Workspace) (file : FileId) (point : Place) : Obstacle → Prop
  | noInjector (none : ∀ injector, ¬point.IsNearest (fun a => a.kind.annotates = true) injector) :
      Hinders ws file point .noInjector
  | methodCount {injector : Place}
      (near : point.IsNearest (fun a => a.kind.annotates = true) injector)
      (none : ∀ text, ¬NamesMethod (ws.text file) injector text) :
      Hinders ws file point (.methodCount
        ((Annotations.simpleName? (ws.text file) injector).getD "")
        (Annotations.stringsOf (ws.text file) "method" injector).length)
  | noMixin {injector : Place} {text : String}
      (near : point.IsNearest (fun a => a.kind.annotates = true) injector)
      (named : NamesMethod (ws.text file) injector text)
      (none : ∀ mixin, ¬HasMixin (ws.text file) point mixin) : Hinders ws file point .noMixin
  | classCount {injector mixin : Place} {text : String}
      (near : point.IsNearest (fun a => a.kind.annotates = true) injector)
      (named : NamesMethod (ws.text file) injector text)
      (mixed : HasMixin (ws.text file) point mixin)
      (none : ∀ c, ¬ChangesClass ws (ws.text file) file point c) :
      Hinders ws file point (.classCount (classesNamed ws (ws.text file) file mixin).length)
  | unreadableMethod {injector : Place} {text : String} {c : ws.index.ClassId}
      (near : point.IsNearest (fun a => a.kind.annotates = true) injector)
      (named : NamesMethod (ws.text file) injector text)
      (changes : ChangesClass ws (ws.text file) file point c)
      (unreadable : Selector.parse? text = none) : Hinders ws file point .unreadableMethod
  | methodNotUnique {injector : Place} {text : String} {c : ws.index.ClassId} {selector : Selector}
      (near : point.IsNearest (fun a => a.kind.annotates = true) injector)
      (named : NamesMethod (ws.text file) injector text)
      (changes : ChangesClass ws (ws.text file) file point c)
      (readable : Selector.parse? text = some selector)
      (none : ∀ m, ¬SelectsOne c text m) : Hinders ws file point (.methodNotUnique text)
  | noBody {m : ws.index.MethodId} (designates : Designates ws file point m)
      (hollow : (ws.index.method m).hasBody = false) :
      Hinders ws file point (.noBody (ws.index.method m).name)

open Workspace

/-- There is no target exactly when something is in its way; a declaration is never missing. -/
theorem resolve_eq_error_iff {files : List (String × String)} {point : Place} :
    resolve (ofFiles files) file point = .error o ↔ Hinders (ofFiles files) file point o := by
  have hnearest (injector : Place) : Annotations.enclosing? point = some injector ↔
      point.IsNearest (fun a => a.kind.annotates = true) injector := Place.find?_ancestors
  simp only [resolve, Except.bind_error_iff, orObstacle_error_iff, orObstacle_ok_iff,
    enclosing?_eq_none_iff, hnearest, selector?_eq_ok_iff, class?_eq_ok_iff, method?_eq_ok_iff,
    selector?_eq_error_iff, class?_eq_error_iff, method?_eq_error_iff]
  constructor
  · intro hx
    rcases hx with ⟨hnone, rfl⟩ | ⟨injector, hi, ⟨hnone, rfl⟩ | ⟨text, ht, hx⟩⟩
    · exact .noInjector hnone
    · exact .methodCount hi hnone
    rcases hx with (⟨hnone, rfl⟩ | ⟨mixin, hm, hnone, rfl⟩) | ⟨c, hc, hx⟩
    · exact .noMixin hi ht hnone
    · exact .classCount hi ht hm hnone
    rcases hx with (⟨hnone, rfl⟩ | ⟨⟨selector, hs⟩, hnone, rfl⟩) | ⟨m, hm, hx⟩
    · exact .unreadableMethod hi ht hc hnone
    · exact .methodNotUnique hi ht hc hs hnone
    have howner : m.owner = c := hm.choose_spec.2.1
    subst howner
    split at hx
    · next hb =>
      obtain ⟨t, hd⟩ := exists_declaration? hb
      rw [hd] at hx
      cases hx
    · next hb =>
      cases hx
      exact .noBody ⟨injector, text, hi, ht, hc, hm⟩ (by simpa using hb)
  · intro h
    cases h with
    | noInjector hnone => exact .inl ⟨hnone, rfl⟩
    | methodCount hi hnone => exact .inr ⟨_, hi, .inl ⟨hnone, rfl⟩⟩
    | noMixin hi ht hnone => exact .inr ⟨_, hi, .inr ⟨_, ht, .inl (.inl ⟨hnone, rfl⟩)⟩⟩
    | classCount hi ht hm hnone =>
      exact .inr ⟨_, hi, .inr ⟨_, ht, .inl (.inr ⟨_, hm, hnone, rfl⟩)⟩⟩
    | unreadableMethod hi ht hc hs =>
      exact .inr ⟨_, hi, .inr ⟨_, ht, .inr ⟨_, hc, .inl (.inl ⟨hs, rfl⟩)⟩⟩⟩
    | methodNotUnique hi ht hc hs hnone =>
      exact .inr ⟨_, hi, .inr ⟨_, ht, .inr ⟨_, hc, .inl (.inr ⟨⟨_, hs⟩, hnone, rfl⟩)⟩⟩⟩
    | @noBody m hd hb =>
      obtain ⟨injector, text, hi, ht, hc, hm⟩ := hd
      refine .inr ⟨injector, hi, .inr ⟨text, ht, .inr ⟨m.owner, hc, .inr ⟨m, hm, ?_⟩⟩⟩⟩
      rw [if_neg (by simp [hb])]

end Target

theorem InjectionPoint.ofName?_eq_some_iff {name : String} {point : InjectionPoint} :
    ofName? name = some point ↔ name = point.name := by
  constructor
  · intro h
    have hnamed := List.find?_some (p := fun point => InjectionPoint.name point == name) h
    exact (beq_iff_eq.1 hnamed).symm
  · rintro rfl
    exact ofName?_name point

namespace Reference

/-! ## Obstacles on the way to a body -/

/-- The annotation of a reference names the injection point, by one string literal. -/
def HasPoint (r : Reference) (point : InjectionPoint) : Prop :=
  Annotations.stringAttribute? r.source "value" r.point = some point.name

theorem element_of_hasPoint {r : Reference} {point : InjectionPoint} (h : r.HasPoint point) :
    r.element = .ok point.element := by
  rw [HasPoint] at h
  simp [Reference.element, h, InjectionPoint.ofName?_name]

theorem element_of_not_hasPoint {r : Reference} (h : ∀ point, ¬r.HasPoint point) :
    r.element = .error (.unsupportedPoint
      ((Annotations.stringAttribute? r.source "value" r.point).getD "")) := by
  have hnone : (Annotations.stringAttribute? r.source "value" r.point).bind
      InjectionPoint.ofName? = none := by
    rw [Option.bind_eq_none_iff]
    intro value hv
    rw [Option.eq_none_iff_forall_ne_some]
    intro point hp
    rw [InjectionPoint.ofName?_eq_some_iff.1 hp] at hv
    exact h point hv
  simp [Reference.element, hnone]

theorem element_eq_ok_iff {r : Reference} {element : Element} :
    r.element = .ok element ↔ ∃ point, r.HasPoint point ∧ point.element = element := by
  by_cases h : ∃ point, r.HasPoint point
  · obtain ⟨point, hp⟩ := h
    rw [element_of_hasPoint hp, Except.ok.injEq]
    refine ⟨fun he => ⟨point, hp, he⟩, fun hx => ?_⟩
    obtain ⟨point', hp', rfl⟩ := hx
    rw [← Except.ok.injEq, ← element_of_hasPoint hp, element_of_hasPoint hp']
  · rw [element_of_not_hasPoint (not_exists.1 h)]
    simp only [reduceCtorEq, false_iff, not_exists, not_and]
    intro point hp
    exact absurd ⟨point, hp⟩ h

theorem element_eq_error_iff {r : Reference} {o : Obstacle} :
    r.element = .error o ↔ (∀ point, ¬r.HasPoint point) ∧
      o = .unsupportedPoint ((Annotations.stringAttribute? r.source "value" r.point).getD "") := by
  by_cases h : ∃ point, r.HasPoint point
  · obtain ⟨point, hp⟩ := h
    rw [element_of_hasPoint hp]
    simp only [reduceCtorEq, false_iff, not_and]
    intro hnone
    exact absurd hp (hnone point)
  · rw [element_of_not_hasPoint (not_exists.1 h), Except.error.injEq, eq_comm]
    exact ⟨fun he => ⟨not_exists.1 h, he⟩, fun hx => hx.2⟩

variable (ws : Workspace)

/-- What a reference meets when it does not apply: the first thing in the way of scanning the body of
a method for it. -/
inductive Meets (r : Reference) : Obstacle → Prop
  | unsupportedPoint (none : ∀ point, ¬r.HasPoint point) :
      Meets r (.unsupportedPoint
        ((Annotations.stringAttribute? r.source "value" r.point).getD ""))
  | hindered {point : InjectionPoint} {o : Obstacle} (has : r.HasPoint point)
      (hinders : Target.Hinders ws r.file r.point o) : Meets r o
  | unreadableTarget {point : InjectionPoint} {m : ws.index.MethodId} (has : r.HasPoint point)
      (designates : Target.Designates ws r.file r.point m)
      (body : (ws.index.method m).hasBody = true)
      (unreadable : ¬Usage.Understands point.element r.text) : Meets r .unreadableTarget

/-- The question about a reference ends on the way to a body: no injection point is named, or no
method with a body is designated. -/
def FindsNoBody (r : Reference) : Prop :=
  (∀ point, ¬r.HasPoint point) ∨
    ∀ m, Target.Designates ws r.file r.point m → (ws.index.method m).hasBody = false

variable {ws}

open Workspace

theorem isUnresolved_eq_error_iff {files : List (String × String)} {r : Reference} {o : Obstacle} :
    r.isUnresolved (ofFiles files) = .error o ↔ r.Meets (ofFiles files) o := by
  have hmap : r.isUnresolved (ofFiles files) = .error o ↔
      r.elements (ofFiles files) true = .error o := by
    rw [Reference.isUnresolved]
    cases r.elements (ofFiles files) true <;> simp [Except.map]
  have hread (m : TargetMethod (ofFiles files).index) (element : Element) :
      Usage.find? (scope (ofFiles files) m) element m.body r.text true = none ↔
        ¬Usage.Understands element r.text := by
    rw [← Usage.find?_isSome_iff (scope (ofFiles files) m) element m.body r.text true,
      Option.eq_none_iff_forall_ne_some, not_exists]
  simp only [hmap, elements, Except.bind_error_iff, orObstacle_error_iff, orObstacle_ok_iff,
    element_eq_ok_iff, element_eq_error_iff, Target.resolve_eq_error_iff, hread]
  constructor
  · intro hx
    rcases hx with ⟨hnone, rfl⟩ | ⟨_, ⟨point, hp, rfl⟩, hobstacle | ⟨m, hm, hx⟩⟩
    · exact .unsupportedPoint hnone
    · exact .hindered hp hobstacle
    rcases hx with ⟨hnone, rfl⟩ | ⟨found, _, hx⟩
    · obtain ⟨hd, hb⟩ := Target.exists_resolve_iff.1 ⟨m, hm, rfl⟩
      exact .unreadableTarget hp hd hb hnone
    · cases hx
  · intro h
    cases h with
    | unsupportedPoint hnone => exact .inl ⟨hnone, rfl⟩
    | @hindered point _ hp hobstacle => exact .inr ⟨_, ⟨point, hp, rfl⟩, .inl hobstacle⟩
    | @unreadableTarget point m hp hd hb hnone =>
      obtain ⟨t, ht, _⟩ := Target.exists_resolve_iff.2 ⟨hd, hb⟩
      exact .inr ⟨_, ⟨point, hp, rfl⟩, .inr ⟨t, ht, .inl ⟨hnone, rfl⟩⟩⟩

theorem Meets.unique {files : List (String × String)} {r : Reference} {o o' : Obstacle}
    (h : r.Meets (ofFiles files) o) (h' : r.Meets (ofFiles files) o') : o = o' := by
  rw [← isUnresolved_eq_error_iff] at h h'
  exact Except.error.inj (h.symm.trans h')

/-- A reference applies or meets an obstacle. -/
theorem applies_or_meets (files : List (String × String)) (r : Reference) :
    r.Applies (ofFiles files) ∨ ∃ o, r.Meets (ofFiles files) o := by
  cases he : r.elements (ofFiles files) true with
  | ok x => exact .inl ((r.applies_iff _ true).2 ⟨x.1, x.2, he⟩)
  | error o =>
    refine .inr ⟨o, isUnresolved_eq_error_iff.1 ?_⟩
    rw [Reference.isUnresolved, he]
    rfl

theorem findsNoBody_of_resolve {files : List (String × String)} {r : Reference} {o : Obstacle}
    (h : Target.resolve (ofFiles files) r.file r.point = .error o) :
    r.FindsNoBody (ofFiles files) := by
  refine .inr fun m hm => ?_
  by_contra hb
  obtain ⟨t, ht, _⟩ := Target.exists_resolve_iff.2 ⟨hm, by simpa using hb⟩
  rw [h] at ht
  cases ht

theorem Meets.findsNoBody {files : List (String × String)} {r : Reference} {o : Obstacle}
    (h : r.Meets (ofFiles files) o) (ho : o ≠ .unreadableTarget) : r.FindsNoBody (ofFiles files) := by
  cases h with
  | unsupportedPoint none => exact .inl none
  | hindered _ hinders => exact findsNoBody_of_resolve (Target.resolve_eq_error_iff.2 hinders)
  | unreadableTarget => exact absurd rfl ho

/-- Where no body is found, what is in the way is not the text of the reference. -/
theorem FindsNoBody.exists_meets {files : List (String × String)} {r : Reference}
    (h : r.FindsNoBody (ofFiles files)) :
    ∃ o, r.Meets (ofFiles files) o ∧ o ≠ .unreadableTarget ∧ o ≠ .noDeclaration := by
  have hno {point : InjectionPoint} {m : (ofFiles files).index.MethodId} (hp : r.HasPoint point)
      (hm : Target.Designates (ofFiles files) r.file r.point m) :
      ¬((ofFiles files).index.method m).hasBody = true := by
    rcases h with hnone | hhollow
    · exact absurd hp (hnone point)
    · simp [hhollow m hm]
  rcases r.applies_or_meets files with happlies | ⟨o, ho⟩
  · obtain ⟨element, t, he, ht, _⟩ := happlies
    obtain ⟨point, hp, _⟩ := element_eq_ok_iff.1 he
    obtain ⟨hm, hb⟩ := Target.exists_resolve_iff.1 ⟨t, ht, rfl⟩
    exact absurd hb (hno hp hm)
  · refine ⟨o, ho, ?_⟩
    cases ho with
    | unsupportedPoint => simp
    | hindered _ hinders => cases hinders <;> simp
    | unreadableTarget hp hm hb => exact absurd hb (hno hp hm)

end Reference

namespace Query

open Workspace

variable {files : List (String × String)} {path : String} {offset : Nat} {r : Reference}

/-! ## The log -/

theorem log_of_applies (hr : Reference.at? (ofFiles files) path offset = some r)
    (h : r.Applies (ofFiles files)) : (isUnresolved (ofFiles files) path offset).log = [] := by
  obtain ⟨file, found, he⟩ := (r.applies_iff _ true).1 h
  simp [isUnresolved, ask, hr, Reference.isUnresolved, he, Except.map, Logged.ofExcept]

theorem log_of_meets (hr : Reference.at? (ofFiles files) path offset = some r) {o : Obstacle}
    (h : r.Meets (ofFiles files) o) :
    (isUnresolved (ofFiles files) path offset).log = o.event?.toList := by
  rw [isUnresolved, ask, hr]
  simp only [Reference.isUnresolved_eq_error_iff.2 h, Logged.ofExcept]

/-- The question whether a reference is unresolved writes one event at most: none when a body is
scanned, and else the event of the one obstacle that is met. Where no body is found there is an event,
unless no annotation is around the injection point, the class around is no mixin, or the text that
names the method is no selector. -/
theorem isUnresolved_log (files : List (String × String)) (path : String) (offset : Nat)
    {r : Reference} (hr : Reference.at? (ofFiles files) path offset = some r) :
    (isUnresolved (ofFiles files) path offset).log.length ≤ 1 ∧
    (r.Applies (ofFiles files) → (isUnresolved (ofFiles files) path offset).log = []) ∧
    (∀ o, r.Meets (ofFiles files) o →
      (isUnresolved (ofFiles files) path offset).log = o.event?.toList) ∧
    (r.FindsNoBody (ofFiles files) →
      ((isUnresolved (ofFiles files) path offset).log.length = 1 ↔
        ¬(r.Meets (ofFiles files) .noInjector ∨ r.Meets (ofFiles files) .noMixin ∨
          r.Meets (ofFiles files) .unreadableMethod))) := by
  refine ⟨?_, log_of_applies hr, fun o => log_of_meets hr, fun h => ?_⟩
  · rcases r.applies_or_meets files with happlies | ⟨o, ho⟩
    · simp [log_of_applies hr happlies]
    · rw [log_of_meets hr ho]
      exact Option.length_toList_le
  · obtain ⟨o, ho, htext, hdeclaration⟩ := h.exists_meets
    have hother (o' : Obstacle) : r.Meets (ofFiles files) o' ↔ o' = o :=
      ⟨fun ho' => ho'.unique ho, fun e => e ▸ ho⟩
    rw [log_of_meets hr ho, hother, hother, hother]
    cases o <;> simp_all [Obstacle.event?]

/-! ## Two methods of one name, and a name that is empty -/

/-- A class `T`, and a mixin of it whose injector names a method by a text. -/
def mixinFiles (target selector : String) : List (String × String) :=
  [("T", target), ("M", "@Mixin(T.class)class M\x7b@Inject(method=\"" ++ selector ++
    "\",at=@At(value=\"INVOKE\",target=\"g\"))void h()\x7b\x7d\x7d")]

def overloadedFiles : List (String × String) :=
  mixinFiles "class T\x7bvoid t()\x7b\x7dvoid t(int i)\x7b\x7d\x7d" "t"

theorem overloadedFiles_run :
    (Reference.at? (ofFiles overloadedFiles) "M" 71).map
        (Reference.isUnresolved (ofFiles overloadedFiles)) =
      some (.error (.methodNotUnique "t")) := by
  decide +kernel

/-- A name of two methods is reported, so nothing is in the way that is not. -/
theorem isUnresolved_log_overloaded :
    ∃ r, Reference.at? (ofFiles overloadedFiles) "M" 71 = some r ∧
      r.FindsNoBody (ofFiles overloadedFiles) ∧
      (isUnresolved (ofFiles overloadedFiles) "M" 71).log = [.methodNotUnique "t"] ∧
      ¬(r.Meets (ofFiles overloadedFiles) .noInjector ∨
        r.Meets (ofFiles overloadedFiles) .noMixin ∨
        r.Meets (ofFiles overloadedFiles) .unreadableMethod) := by
  obtain ⟨r, hr, hmeets⟩ := Option.map_eq_some_iff.1 overloadedFiles_run
  rw [Reference.isUnresolved_eq_error_iff] at hmeets
  obtain ⟨_, _, hlog, hsilent⟩ := isUnresolved_log overloadedFiles "M" 71 hr
  have hbody := hmeets.findsNoBody (by simp)
  have hone := hlog _ hmeets
  exact ⟨r, hr, hbody, hone, (hsilent hbody).1 (by rw [hone]; rfl)⟩

def unnamedFiles : List (String × String) := mixinFiles "class T\x7bvoid t()\x7b\x7d\x7d" ""

theorem unnamedFiles_run :
    (Reference.at? (ofFiles unnamedFiles) "M" 70).map
        (Reference.isUnresolved (ofFiles unnamedFiles)) = some (.error .unreadableMethod) := by
  decide +kernel

/-- That a name is empty is not reported. -/
theorem not_reported_unnamed :
    ¬∀ (files : List (String × String)) (path : String) (offset : Nat) (r : Reference),
      Reference.at? (ofFiles files) path offset = some r → r.FindsNoBody (ofFiles files) →
        (isUnresolved (ofFiles files) path offset).log.length = 1 := by
  intro hall
  obtain ⟨r, hr, hmeets⟩ := Option.map_eq_some_iff.1 unnamedFiles_run
  rw [Reference.isUnresolved_eq_error_iff] at hmeets
  have hone := hall unnamedFiles "M" 70 r hr (hmeets.findsNoBody (by simp))
  rw [log_of_meets hr hmeets] at hone
  cases hone

end Query

end InjectionPoints
