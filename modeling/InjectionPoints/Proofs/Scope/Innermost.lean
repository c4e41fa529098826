/-
The declaration that a name means at a use. Of several visible ones the last that the walk meets
counts (`exists_of_local?`), and that is the innermost: between a declaration and the region in which
it is visible no other declaration has its region (`eq_of_between`), so a region inside that of the
last visible declaration would have to end before it, and the use with it (`local?_innermost`).
-/
import InjectionPoints.Proofs.Scope.Locals
import InjectionPoints.Proofs.Tree.Descent

namespace InjectionPoints

open Java Java.Part Grammar

/-- `p`, a node of the declaration `m`, declares `v` under the name, and `v` is visible at `u`. Of
several variables of a name that one node declares the first counts. -/
structure IsVisible (source name : String) (m u p : Place) (v : LocalVariable) : Prop where
  below : p ∈ m.preorder
  declared : (LocalVariable.declaredAtNode source p).find? (fun v => v.name == name) = some v
  visible : v.isVisibleAt u = true

/-! ## The last visible declaration -/

/-- What the last element of a mapped list comes from: all others that are mapped come before it. -/
theorem exists_of_getLast?_filterMap {α β : Type} {f : α → Option β} {r : α → α → Prop}
    {l : List α} {b : β} (hp : l.Pairwise r) (h : (l.filterMap f).getLast? = some b) :
    ∃ a ∈ l, f a = some b ∧ ∀ c ∈ l, (f c).isSome = true → c = a ∨ r c a := by
  rw [List.getLast?_filterMap, List.findSome?_eq_some_iff] at h
  obtain ⟨behind, a, before, hl, ha, hb⟩ := h
  rw [List.reverse_eq_iff, List.reverse_append, List.reverse_cons, List.append_assoc,
    List.singleton_append] at hl
  subst hl
  refine ⟨a, by simp, ha, fun c hc hs => ?_⟩
  rcases List.mem_append.1 hc with hc | hc
  · exact .inr ((List.pairwise_append.1 hp).2.2 c hc a List.mem_cons_self)
  · rcases List.mem_cons.1 hc with rfl | hc
    · exact .inl rfl
    · rw [hb c (List.mem_reverse.1 hc)] at hs
      simp at hs

variable {source name : String} {m p q u x r s n k : Place}

/-- The variable of a node that is visible at `u` under a name. -/
def visibleAt? (source name : String) (u p : Place) : Option LocalVariable :=
  ((LocalVariable.declaredAtNode source p).find? fun v => v.name == name).filter fun v =>
    v.isVisibleAt u

theorem isVisible_iff {v : LocalVariable} :
    IsVisible source name m u p v ↔ p ∈ m.preorder ∧ visibleAt? source name u p = some v := by
  rw [visibleAt?, Option.filter_eq_some_iff]
  constructor
  · intro hv
    exact ⟨hv.below, hv.declared, hv.visible⟩
  · intro hv
    exact ⟨hv.1, hv.2.1, hv.2.2⟩

/-- The walk keeps the last visible variable that it meets. -/
theorem local?_eq {ix : ClassIndex} (method : ix.MethodId) :
    (Scope.ofMethod source method m).local? name u =
      (m.preorder.filterMap (visibleAt? source name u)).getLast? := by
  rw [Scope.local?, Scope.ofMethod, LocalVariable.lookup, LocalVariable.declaredIn,
    List.filter_filterMap, List.filterMap_filter, List.filterMap_map]
  refine congrArg List.getLast? (List.filterMap_congr fun p _ => ?_)
  rw [Function.comp_apply, visibleAt?]
  cases LocalVariable.declaredAtNode source p with
  | nil => rfl
  | cons => rfl

theorem exists_of_local? {ix : ClassIndex} {method : ix.MethodId} {v : LocalVariable}
    (ho : m.node.Ordered) (hv : (Scope.ofMethod source method m).local? name u = some v) :
    ∃ p, IsVisible source name m u p v ∧ ∀ q w, IsVisible source name m u q w →
      q = p ∨ p ∈ q.preorder ∧ q ≠ p ∨ q.stop ≤ p.start := by
  rw [local?_eq] at hv
  obtain ⟨p, hp, hpv, hlast⟩ := exists_of_getLast?_filterMap (Place.pairwise_preorder ho) hv
  refine ⟨p, isVisible_iff.2 ⟨hp, hpv⟩, fun q w hw => ?_⟩
  obtain ⟨hq, hqw⟩ := isVisible_iff.1 hw
  exact hlast q hq (by rw [hqw]; rfl)

theorem local?_eq_none_iff {ix : ClassIndex} {method : ix.MethodId} :
    (Scope.ofMethod source method m).local? name u = none ↔
      ∀ p v, ¬IsVisible source name m u p v := by
  rw [local?_eq, List.getLast?_eq_none_iff, List.filterMap_eq_nil_iff]
  simp only [isVisible_iff, not_and, Option.eq_none_iff_forall_ne_some]
  exact ⟨fun h p v hp => h p hp v, fun h p hp v => h p v hp⟩

/-! ## Regions -/

/-- The kinds of the children by which a node is a region, when it is no loop and no lambda. -/
def openingKinds : List Kind :=
  [.localVariableDeclaration, .catchFormalParameter, .formalParameters, .resourceSpecification]

def opens (x : Part) : Bool := openingKinds.contains x.kind

/-- What may stand between a declaration and its region. -/
def isBetween (k : Kind) : Bool := k == .formalParameters || k == .resourceSpecification

/-- What stands between a declaration and its region is no region, and a name opens none. -/
def opensRight (k : Kind) (x : Part) : Bool :=
  (!opens x || !isBetween k) && (x.role != some .name || !opens x)

/-- Where a loop or a lambda has the names that it declares itself. -/
def isHead (x : Part) : Bool := (x.role == some .name || x.role == some .parameters) && !opens x

theorem opensRight_test :
    (treeConstructs.all fun c => !c.shape.any (Shape.may fun x => !opensRight c.kind x)) = true := by
  decide +kernel

theorem head_test : (treeConstructs.all fun c => c.shape.all (Shape.orderly isHead opens)) = true := by
  decide +kernel

theorem opens_of_isBetween {x : Part} (h : isBetween x.kind = true) : opens x = true := by
  rw [isBetween, Bool.or_eq_true, beq_iff_eq, beq_iff_eq] at h
  rcases h with h | h <;> simp [opens, openingKinds, h]

theorem not_comment_of_opens {x : Part} (h : opens x = true) : x.kind.isComment = false := by
  simp only [opens, openingKinds, List.contains_iff_mem, List.mem_cons, List.not_mem_nil,
    or_false] at h
  rcases h with h | h | h | h <;> rw [h] <;> rfl

variable {form : LocalForm}

theorem Declares.name_mem (hd : Declares p form n) : n ∈ p.preorder := by
  cases hd with
  | parameter _ hn | resource _ hn | loop _ hn | caught _ hn =>
    exact Place.mem_preorder_of_mem_children (Place.child?_mem hn).1
  | varargs _ hv hn =>
    exact Place.mem_preorder_trans (Place.mem_preorder_of_mem_children (Place.child?_mem hn).1)
      (Place.mem_preorder_of_mem_children (Place.named?_mem hv).1)
  | inBlock _ _ _ hv hn | inSwitch _ _ _ hv hn =>
    exact Place.mem_preorder_trans (Place.mem_preorder_of_mem_children (Place.child?_mem hn).1)
      (Place.mem_preorder_of_mem_children (List.mem_filter.1 hv).1)
  | lambda _ hps hn =>
    have hpsp := Place.mem_preorder_of_mem_children (Place.child?_mem hps).1
    rcases hn with ⟨_, rfl⟩ | ⟨_, hn, _⟩
    · exact hpsp
    · exact Place.mem_preorder_trans (Place.mem_preorder_of_mem_children hn) hpsp

theorem Declares.not_isBetween (hd : Declares p form n) : isBetween p.kind = false := by
  cases hd with
  | parameter hk | varargs hk | inBlock hk | inSwitch hk | resource hk | loop hk | caught hk
  | lambda hk =>
    rw [hk]
    rfl

/-- Between a place and a child of it there is nothing. -/
theorem eq_of_between_child (hc : p ∈ r.children) (hpx : p ∈ x.preorder) (hxr : x ∈ r.preorder) :
    x = r ∨ x = p := by
  rcases Place.mem_preorder_iff.1 hxr with rfl | ⟨c, hcr, hxc⟩
  · exact .inl rfl
  · obtain rfl := Place.child_unique hc hcr p.self_mem_preorder (Place.mem_preorder_trans hpx hxc)
    exact .inr (Place.preorder_antisymm hxc hpx)

section

variable {t : Tree} (h : Tree.ofText? source = some t)

include h

theorem child_opensRight (hr : r ∈ (Place.root t).preorder) (hc : x ∈ r.children)
    (hn : x.kind.isComment = false) : opensRight r.kind x.node.part = true :=
  (Tree.isConstruct_of_ofText? h (Place.node_mem_preorder hr)).child_passes opensRight_test
    (Place.node_mem_of_mem_children hc) hn

/-- A region is the declaration itself, a loop or a lambda; or the declaration is a child of it, or
stands in a list of parameters or resources that is one. -/
theorem region_cases (hp : p ∈ (Place.root t).preorder) (hd : Declares p form n)
    (hr : form.seenIn? p = some r) :
    p = r ∨ p ∈ r.children ∧ opens p.node.part = true ∨
      ∃ ps ∈ r.children, p ∈ ps.children ∧ isBetween ps.kind = true := by
  have hchild : p.parent? = some r → p.kind ∈ openingKinds →
      p ∈ r.children ∧ opens p.node.part = true := by
    intro hpr hk
    exact ⟨(Place.mem_of_parent? hp hpr).2, List.contains_iff_mem.2 hk⟩
  have hlist : ∀ ps, p.parent? = some ps → ps.parent? = some r → isBetween ps.kind = true →
      ∃ ps ∈ r.children, p ∈ ps.children ∧ isBetween ps.kind = true := by
    intro ps hps hpr hk
    obtain ⟨hpsm, hpc⟩ := Place.mem_of_parent? hp hps
    exact ⟨ps, (Place.mem_of_parent? hpsm hpr).2, hpc, hk⟩
  cases hd with
  | parameter hk =>
    obtain ⟨ps, hps, hpr⟩ := Option.bind_eq_some_iff.1 hr
    exact .inr (.inr (hlist ps hps hpr (by rw [(kind_of_parent h hp hps).1 hk]; rfl)))
  | varargs => simp [LocalForm.seenIn?] at hr
  | resource hk =>
    obtain ⟨ps, hps, hpr⟩ := Option.bind_eq_some_iff.1 hr
    exact .inr (.inr (hlist ps hps hpr (by rw [(kind_of_parent h hp hps).2.1 hk]; rfl)))
  | inBlock hk | inSwitch hk | caught hk =>
    exact .inr (.inl (hchild hr (by simp [hk, openingKinds])))
  | loop | lambda => exact .inl (Option.some.inj hr)

/-- Between a declaration and its region there is at most a list of parameters or resources. -/
theorem eq_of_between (hp : p ∈ (Place.root t).preorder) (hd : Declares p form n)
    (hr : form.seenIn? p = some r) (hpx : p ∈ x.preorder) (hxr : x ∈ r.preorder) :
    x = r ∨ x = p ∨ isBetween x.kind = true := by
  rcases region_cases h hp hd hr with rfl | ⟨hc, _⟩ | ⟨ps, hps, hc, hk⟩
  · exact .inl (Place.preorder_antisymm hxr hpx)
  · exact (eq_of_between_child hc hpx hxr).imp_right .inl
  · rcases Place.mem_preorder_iff.1 hxr with rfl | ⟨c, hcr, hxc⟩
    · exact .inl rfl
    · obtain rfl := Place.child_unique hps hcr (Place.mem_preorder_of_mem_children hc)
        (Place.mem_preorder_trans hpx hxc)
      rcases eq_of_between_child hc hpx hxc with rfl | hx
      · exact .inr (.inr hk)
      · exact .inr (.inl hx)

/-- The child of its region, if that is another node, in which a declaration is. -/
theorem exists_opening (hp : p ∈ (Place.root t).preorder) (hd : Declares p form n)
    (hr : form.seenIn? p = some r) (hne : p ≠ r) :
    ∃ c ∈ r.children, p ∈ c.preorder ∧ opens c.node.part = true := by
  rcases region_cases h hp hd hr with rfl | ⟨hc, ho⟩ | ⟨ps, hps, hc, hk⟩
  · exact absurd rfl hne
  · exact ⟨p, hc, p.self_mem_preorder, ho⟩
  · exact ⟨ps, hps, Place.mem_preorder_of_mem_children hc, opens_of_isBetween hk⟩

theorem not_isBetween_of_seenIn? (hp : p ∈ (Place.root t).preorder) (hd : Declares p form n)
    (hr : form.seenIn? p = some r) : isBetween r.kind = false := by
  by_cases hpr : p = r
  · exact hpr ▸ hd.not_isBetween
  · obtain ⟨c, hc, _, ho⟩ := exists_opening h hp hd hr hpr
    have hs := child_opensRight h (mem_of_seenIn? hp hr) hc (not_comment_of_opens ho)
    simpa [opensRight, ho] using (Bool.and_eq_true_iff.1 hs).1

/-- A node that is the region of what it declares has the name in its head. -/
theorem exists_head (hr : r ∈ (Place.root t).preorder) (hd : Declares r form n)
    (hs : form.seenIn? r = some r) :
    ∃ b ∈ r.children, n ∈ b.preorder ∧ b.kind.isComment = false ∧ isHead b.node.part = true := by
  have hrole : ∀ b ∈ r.children, ∀ f, b.node.field = some f → b.kind.isComment = false :=
    fun b hb _ hf => Tree.not_comment_of_role h (Place.node_mem_preorder hr)
      (Place.node_mem_of_mem_children hb) hf
  have hparent : r.parent? ≠ some r := fun hp => by
    have := Place.depth_of_parent? hp
    omega
  cases hd with
  | parameter | resource =>
    obtain ⟨ps, hps, hpr⟩ := Option.bind_eq_some_iff.1 hs
    have h₁ := Place.depth_of_parent? hps
    have h₂ := Place.depth_of_parent? hpr
    omega
  | varargs => simp [LocalForm.seenIn?] at hs
  | inBlock | inSwitch | caught => exact absurd hs hparent
  | loop _ hn =>
    obtain ⟨hnc, hnr⟩ := Place.child?_mem hn
    have hcom := hrole n hnc _ hnr
    have ho := (Bool.and_eq_true_iff.1 (child_opensRight h hr hnc hcom)).2
    have hnr' : n.node.part.role = some .name := hnr
    refine ⟨n, hnc, n.self_mem_preorder, hcom, ?_⟩
    simpa [isHead, hnr'] using ho
  | @lambda ps _ _ hps hn =>
    obtain ⟨hpc, hpr⟩ := Place.child?_mem hps
    have hpr' : ps.node.part.role = some .parameters := hpr
    have hnps : n ∈ ps.preorder ∧ opens ps.node.part = false := by
      rcases hn with ⟨hk, rfl⟩ | ⟨hk, hn, _⟩
      · refine ⟨n.self_mem_preorder, ?_⟩
        simp [opens, openingKinds, Tree.part, show n.node.kind = _ from hk]
      · refine ⟨Place.mem_preorder_of_mem_children hn, ?_⟩
        simp [opens, openingKinds, Tree.part, show ps.node.kind = _ from hk]
    refine ⟨ps, hpc, hnps.1, hrole ps hpc _ hpr, ?_⟩
    simp [isHead, hpr', hnps.2]

/-- A loop or a lambda has the names that it declares itself before what else it declares. -/
theorem stop_le_of_head {form' : LocalForm} (hr : r ∈ (Place.root t).preorder)
    (hd : Declares r form n) (hs : form.seenIn? r = some r) (hp : p ∈ (Place.root t).preorder)
    (hd' : Declares p form' k) (hr' : form'.seenIn? p = some r) (hne : p ≠ r) :
    n.stop ≤ p.start := by
  obtain ⟨c, hc, hpc, hco⟩ := exists_opening h hp hd' hr' hne
  have hrm := Place.node_mem_preorder hr
  have hor : r.node.Ordered := (Place.ordered_of_mem_preorder (Tree.ordered_of_ofText? h) hr).2.1
  have hoc := (Place.ordered_of_mem_children hor hc).2.1
  obtain ⟨b, hb, hnb, hbn, hhead⟩ := exists_head h hr hd hs
  have hbc : b.stop ≤ c.start :=
    (Tree.isConstruct_of_ofText? h hrm).stop_le_start hor head_test
      (Place.node_mem_of_mem_children hb) (Place.node_mem_of_mem_children hc) hbn
      (not_comment_of_opens hco) hhead hco (by simp [isHead, hco])
  have hn := (Place.ordered_of_mem_preorder (Place.ordered_of_mem_children hor hb).2.1 hnb).2.2
  have hpc' := (Place.ordered_of_mem_preorder hoc hpc).1
  omega

/-! ## The innermost declaration -/

/-- What a visible variable is: a name declared in the tree, with the region that its form gives. -/
theorem IsVisible.exists_declares {v : LocalVariable} (hm : m ∈ (Place.root t).preorder)
    (hv : IsVisible source name m u p v) :
    p ∈ (Place.root t).preorder ∧ ∃ form n, Declares p form n ∧ n.text source = name ∧
      form.seenIn? p = some v.region ∧ v.declaredAt = n.stop := by
  have hp := Place.mem_preorder_trans hv.below hm
  obtain ⟨form, n, r, ty, init, hd, hr, rfl⟩ :=
    declares_of_mem (around?_resource h hp) (List.mem_of_find?_eq_some hv.declared)
  have hname := List.find?_some hv.declared
  exact ⟨hp, form, n, hd, beq_iff_eq.1 hname, hr, rfl⟩

/-- A declaration is inside its region. -/
theorem mem_region (hp : p ∈ (Place.root t).preorder) (hd : Declares p form n)
    (hr : form.seenIn? p = some r) : p ∈ r.preorder := by
  rcases region_cases h hp hd hr with rfl | ⟨hc, _⟩ | ⟨ps, hps, hc, _⟩
  · exact p.self_mem_preorder
  · exact Place.mem_preorder_of_mem_children hc
  · exact Place.mem_preorder_trans (Place.mem_preorder_of_mem_children hc)
      (Place.mem_preorder_of_mem_children hps)

/-- What is below a declaration has some length, and is inside its span. -/
theorem span_of_declares (hp : p ∈ (Place.root t).preorder) (hd : Declares p form n)
    (hx : x ∈ p.preorder) : p.start ≤ x.start ∧ x.start < x.stop ∧ x.stop ≤ p.stop := by
  have hk : p.node.kind ≠ .program := by
    change p.kind ≠ .program
    cases hd with
    | parameter hk | varargs hk | inBlock hk | inSwitch hk | resource hk | loop hk | caught hk
    | lambda hk => simp [hk]
  obtain ⟨c, hc, hpc⟩ := Tree.below_root_of_ofText? h (Place.node_mem_preorder hp) hk
  have hxc := Tree.mem_preorder_trans hpc (Place.node_mem_preorder hx)
  have ho := (Place.ordered_of_mem_preorder (Tree.ordered_of_ofText? h) hp).2.1
  obtain ⟨h₁, _, h₂⟩ := Place.ordered_of_mem_preorder ho hx
  exact ⟨h₁, Tree.filled_of_ofText? h hc hxc, h₂⟩

section

variable {form' : LocalForm} (hp : p ∈ (Place.root t).preorder) (hd : Declares p form n)
  (hr : form.seenIn? p = some r) (hq : q ∈ (Place.root t).preorder) (hd' : Declares q form' k)
  (hs : form'.seenIn? q = some s) (hne : q ≠ p) (hlast : p ∈ q.preorder ∨ q.stop ≤ p.start)

include hp hd hr hq hd' hs hne hlast

/-- The region of an earlier declaration is not strictly inside that of a later one, unless it ends
before the later one. -/
theorem region_eq_of_inside (hbehind : p.start < s.stop) (hsr : s ∈ r.preorder) : s = r := by
  have ho : (Place.root t).node.Ordered := Tree.ordered_of_ofText? h
  have hqs := mem_region h hq hd' hs
  have hqq := span_of_declares h hq hd' q.self_mem_preorder
  have hpp := span_of_declares h hp hd p.self_mem_preorder
  have hqp : q ∉ p.preorder := by
    intro hqp
    rcases hlast with hpq | hbefore
    · exact hne (Place.preorder_antisymm hqp hpq)
    · have := span_of_declares h hp hd hqp
      omega
  have hps : p ∈ s.preorder := by
    rcases hlast with hpq | hbefore
    · exact Place.mem_preorder_trans hpq hqs
    · have hst := mem_of_seenIn? hq hs
      have hqs' := Place.ordered_of_mem_preorder (Place.ordered_of_mem_preorder ho hst).2.1 hqs
      rcases Place.nested_or_apart ho hp hst with hps | hsp | hlt | hlt
      · exact hps
      · exact absurd (Place.mem_preorder_trans hqs hsp) hqp
      · omega
      · omega
  rcases eq_of_between h hp hd hr hps hsr with hx | rfl | hk
  · exact hx
  · exact absurd hqs hqp
  · rw [not_isBetween_of_seenIn? h hq hd' hs] at hk
    simp at hk

/-- Of two declarations with one region the later one has its name behind that of the other. -/
theorem stop_le_of_region_eq (hsr : s = r) : k.stop ≤ n.stop := by
  subst hsr
  have hn := span_of_declares h hp hd hd.name_mem
  rcases hlast with hpq | hbefore
  · rcases eq_of_between h hp hd hr hpq (mem_region h hq hd' hs) with rfl | rfl | hk
    · have := stop_le_of_head h hq hd' hs hp hd hr (Ne.symm hne)
      omega
    · exact absurd rfl hne
    · rw [hd'.not_isBetween] at hk
      simp at hk
  · have := span_of_declares h hq hd' hd'.name_mem
    omega

end

/-- A name means nothing local where no declaration of it is visible; else it means one that is, with
no region of another inside its own, and behind all others of its region. -/
theorem local?_innermost {ix : ClassIndex} (method : ix.MethodId)
    (hm : m ∈ (Place.root t).preorder) (hu : u ∈ (Place.root t).preorder) (name : String) :
    ((Scope.ofMethod source method m).local? name u = none ↔
        ∀ p v, ¬IsVisible source name m u p v) ∧
      ∀ v, (Scope.ofMethod source method m).local? name u = some v →
        (∃ p, IsVisible source name m u p v) ∧
          ∀ q w, IsVisible source name m u q w →
            ¬(w.region ∈ v.region.preorder ∧ w.region ≠ v.region) ∧
              (w.region = v.region → w.declaredAt ≤ v.declaredAt) := by
  have ho : (Place.root t).node.Ordered := Tree.ordered_of_ofText? h
  refine ⟨local?_eq_none_iff, fun v hv => ?_⟩
  obtain ⟨p, hpv, hlast⟩ :=
    exists_of_local? (Place.ordered_of_mem_preorder ho hm).2.1 hv
  refine ⟨⟨p, hpv⟩, fun q w hqw => ?_⟩
  by_cases hqp : q = p
  · obtain rfl : v = w := by
      have hd := hpv.declared
      rw [← hqp, hqw.declared, Option.some.injEq] at hd
      exact hd.symm
    exact ⟨fun hx => hx.2 rfl, fun _ => Nat.le_refl _⟩
  · have hafter : p ∈ q.preorder ∨ q.stop ≤ p.start :=
      ((hlast q w hqw).resolve_left hqp).imp_left And.left
    obtain ⟨hp, form, n, hd, _, hr, hvn⟩ := hpv.exists_declares h hm
    obtain ⟨hq, form', k, hd', _, hs, hwk⟩ := hqw.exists_declares h hm
    -- the use is behind the name of the later declaration, and inside the region of the other
    have hbehind : p.start < w.region.stop := by
      have hn := span_of_declares h hp hd hd.name_mem
      have h₁ := (LocalVariable.isVisibleAt_iff.1 hpv.visible).1
      have h₂ := (LocalVariable.isVisibleAt_iff.1 hqw.visible).2.2
      have hu' : u.start ≤ u.stop := (Place.ordered_of_mem_preorder ho hu).2.1.le
      omega
    refine ⟨fun hx => hx.2 ?_, fun hx => ?_⟩
    · exact region_eq_of_inside h hp hd hr hq hd' hs hqp hafter hbehind hx.1
    · rw [hvn, hwk]
      exact stop_le_of_region_eq h hp hd hr hq hd' hs hqp hafter hx

end

/-! ### A parameter of a lambda with the name of one of the method -/

def shadowText : String := "class A\x7bObject m(int a)\x7breturn a->a;\x7d\x7d"

def shadowWorkspace : Workspace := Workspace.empty.addFile "A.java" shadowText

def shadowMethodId : shadowWorkspace.index.MethodId :=
  ⟨⟨0, by decide +kernel⟩, ⟨0, by decide +kernel⟩⟩

def shadowTree : Tree := (Tree.ofText? shadowText).get (by decide +kernel)

def shadowMethod : Place :=
  ((Place.root shadowTree).first? .methodDeclaration).get (by decide +kernel)

def shadowParameter : Place := (shadowMethod.first? .formalParameter).get (by decide +kernel)

def shadowUse : Place :=
  ((shadowMethod.first? .lambdaExpression).bind (Place.child? .body)).get (by decide +kernel)

theorem local?_innermost_shadowed :
    Tree.ofText? shadowText = some shadowTree ∧
      shadowMethod ∈ (Place.root shadowTree).preorder ∧
      shadowUse ∈ (Place.root shadowTree).preorder ∧
      ∃ v w, (Scope.ofMethod shadowText shadowMethodId shadowMethod).local? "a" shadowUse = some v ∧
        IsVisible shadowText "a" shadowMethod shadowUse shadowParameter w ∧
        v.region.kind = .lambdaExpression ∧ w.region.kind = .methodDeclaration ∧
        ¬(w.region ∈ v.region.preorder ∧ w.region ≠ v.region) := by
  have h : Tree.ofText? shadowText = some shadowTree := (Option.some_get _).symm
  have hm := (Place.first?_mem (p := Place.root shadowTree) (k := .methodDeclaration)
    (q := shadowMethod) (Option.some_get _).symm).1
  have hp := (Place.first?_mem (p := shadowMethod) (k := .formalParameter)
    (q := shadowParameter) (Option.some_get _).symm).1
  obtain ⟨l, hl, hb⟩ := Option.bind_eq_some_iff.1 (show _ = some shadowUse from
    (Option.some_get _).symm)
  have hu := Place.mem_preorder_trans (Place.mem_preorder_trans
    (Place.mem_preorder_of_mem_children (Place.child?_mem hb).1) (Place.first?_mem hl).1) hm
  have hv : ((Scope.ofMethod shadowText shadowMethodId shadowMethod).local? "a" shadowUse).any
      (fun v => v.region.kind == .lambdaExpression) = true := by
    decide +kernel
  have hw : (visibleAt? shadowText "a" shadowUse shadowParameter).any
      (fun w => w.region.kind == .methodDeclaration) = true := by
    decide +kernel
  obtain ⟨v, hv, hvk⟩ := (Option.any_eq_true _ _).1 hv
  obtain ⟨w, hw, hwk⟩ := (Option.any_eq_true _ _).1 hw
  have hpw : IsVisible shadowText "a" shadowMethod shadowUse shadowParameter w :=
    isVisible_iff.2 ⟨hp, hw⟩
  refine ⟨h, hm, hu, v, w, hv, hpw, beq_iff_eq.1 hvk, beq_iff_eq.1 hwk, ?_⟩
  exact (((local?_innermost h shadowMethodId hm hu "a").2 v hv).2 _ w hpw).1

end InjectionPoints
