/-
Places in a syntax tree. A place is a node together with the way from it up to the root, so that one
can go from a node to its parent; two places of one tree are the same node exactly when their
addresses are equal.
-/
import InjectionPoints.Java.Tree

namespace InjectionPoints.Java

/-- A node, and its ancestors from its parent to the root, each with the position of the child
that leads to the node. -/
structure Place where
  node : Tree
  above : List (Tree × Nat)

namespace Place

/-- The place of the root of a tree. -/
def root (t : Tree) : Place := ⟨t, []⟩

def kind (p : Place) : Kind := p.node.kind

def span (p : Place) : Span := p.node.span

def start (p : Place) : Nat := p.node.start

def stop (p : Place) : Nat := p.node.stop

/-- The bytes of `source` that the node spans. -/
def text (source : String) (p : Place) : String := p.node.text source

/-- The positions that lead to the node, the last one first. -/
def address (p : Place) : List Nat := p.above.map Prod.snd

/-- Whether two places of one tree are the same node. -/
def same (p q : Place) : Bool := p.address == q.address

/-- Going up. -/
def parent? (p : Place) : Option Place :=
  match p.above with
  | [] => none
  | (t, _) :: above => some ⟨t, above⟩

/-- The ancestors, the parent first. -/
def ancestors (p : Place) : List Place := climb p.above
where
  /-- The places of a way up. -/
  climb : List (Tree × Nat) → List Place
    | [] => []
    | (t, _) :: above => ⟨t, above⟩ :: climb above

/-- The places of `ts` below `t`, the first of them at position `i`. -/
def childrenFrom (t : Tree) (above : List (Tree × Nat)) (i : Nat) : List Tree → List Place
  | [] => []
  | c :: cs => ⟨c, (t, i) :: above⟩ :: childrenFrom t above (i + 1) cs

/-- Going down: all children from left to right. -/
def children (p : Place) : List Place := childrenFrom p.node p.above 0 p.node.children

/-- The children that are constructs of the grammar or comments, and no mere tokens. -/
def namedChildren (p : Place) : List Place := p.children.filter fun c => c.kind.isNamed

/-- The first child in the role `f`. -/
def child? (f : Field) (p : Place) : Option Place :=
  p.children.find? fun c => c.node.field == some f

/-- All children in the role `f`. -/
def childrenIn (f : Field) (p : Place) : List Place :=
  p.children.filter fun c => c.node.field == some f

/-- The first named child of kind `k`. -/
def named? (k : Kind) (p : Place) : Option Place := p.namedChildren.find? fun c => c.kind == k

/-- Whether `c` is the child of `p` in the role `f`. -/
def hasChildIn (f : Field) (p c : Place) : Bool := (p.child? f).any (same c)

/-- The nearest ancestor of a wanted kind. -/
def ancestor? (wanted : Kind → Bool) (p : Place) : Option Place :=
  p.ancestors.find? fun a => wanted a.kind

mutual

/-- The places of a tree and of all that is below it, in the order of `Tree.preorder`. -/
def below (above : List (Tree × Nat)) : Tree → List Place
  | .node k f s cs => ⟨.node k f s cs, above⟩ :: belowAll (.node k f s cs) above 0 cs

/-- `below` for the children of `t` from position `i` on. -/
def belowAll (t : Tree) (above : List (Tree × Nat)) (i : Nat) : List Tree → List Place
  | [] => []
  | c :: cs => below ((t, i) :: above) c ++ belowAll t above (i + 1) cs

end

/-- The place and all places below it in pre-order. -/
def preorder (p : Place) : List Place := below p.above p.node

mutual

/-- Walks down from a node to the smallest one around the bytes from `s` to `e`. -/
def descendIn (s e : Nat) (above : List (Tree × Nat)) : Tree → Place
  | .node k f sp cs =>
    match descendAmong s e (.node k f sp cs) above 0 cs with
    | some p => p
    | none => ⟨.node k f sp cs, above⟩

/-- The walk through the first of the children that reaches behind `s` and up to `e`. -/
def descendAmong (s e : Nat) (t : Tree) (above : List (Tree × Nat)) (i : Nat) :
    List Tree → Option Place
  | [] => none
  | c :: cs =>
    if e ≤ c.stop ∧ s < c.stop then
      if c.start ≤ s then some (descendIn s e ((t, i) :: above) c) else none
    else descendAmong s e t above (i + 1) cs

end

/-- The smallest node around the bytes from `s` to `e`; with `s = e`, the token under a cursor.
Outside everything it is the place itself. -/
def descend (s e : Nat) (p : Place) : Place := descendIn s e p.above p.node

/-- The smallest node of a wanted kind that spans exactly `span`: from the smallest node around the
span the search goes up while the nodes stay inside the span. -/
def exactly? (span : Span) (wanted : Kind → Bool) (p : Place) : Option Place :=
  let q := p.descend span.start span.stop
  ((q :: q.ancestors).takeWhile fun a => span.covers a.span).find? fun a =>
    decide (a.span = span) && wanted a.kind

end Place

end InjectionPoints.Java
