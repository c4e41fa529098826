/-
Syntax trees. A node has a kind, the field by which its parent names it, the bytes it spans, and its
children from left to right; `preorder` lists a node and all that is below it in the order of the
text.
-/
import InjectionPoints.Span
import InjectionPoints.Java.Kind

namespace InjectionPoints.Java

/-- A node of a syntax tree with everything below it. -/
inductive Tree where
  | node (kind : Kind) (field : Option Field) (span : Span) (children : List Tree)

namespace Tree

def kind : Tree → Kind
  | node k _ _ _ => k

/-- The field by which the parent names this node. -/
def field : Tree → Option Field
  | node _ f _ _ => f

def span : Tree → Span
  | node _ _ s _ => s

def children : Tree → List Tree
  | node _ _ _ cs => cs

def start (t : Tree) : Nat := t.span.start

def stop (t : Tree) : Nat := t.span.stop

/-- A node without children. -/
def leaf (kind : Kind) (span : Span) : Tree := node kind none span []

/-- A node that spans from the first to the last of its children. -/
def branch (kind : Kind) (children : List Tree) : Tree :=
  node kind none ⟨(children.head?.map start).getD 0, (children.getLast?.map stop).getD 0⟩ children

/-- The node in the role `f`. -/
def withField (f : Option Field) : Tree → Tree
  | node k _ s cs => node k f s cs

/-- The bytes of `source` that the node spans. -/
def text (source : String) (t : Tree) : String := t.span.text source

/-- The children that are constructs of the grammar or comments, and no mere tokens. -/
def namedChildren (t : Tree) : List Tree := t.children.filter fun c => c.kind.isNamed

/-- The first child in the role `f`. -/
def child? (f : Field) (t : Tree) : Option Tree := t.children.find? fun c => c.field == some f

/-- All children in the role `f`. -/
def childrenIn (f : Field) (t : Tree) : List Tree :=
  t.children.filter fun c => c.field == some f

/-- The first named child of kind `k`. -/
def named? (k : Kind) (t : Tree) : Option Tree := t.namedChildren.find? fun c => c.kind == k

mutual

/-- The node and all that is below it, each before what is below itself. -/
def preorder : Tree → List Tree
  | node k f s cs => node k f s cs :: preorderAll cs

/-- `preorder` of one tree after the other. -/
def preorderAll : List Tree → List Tree
  | [] => []
  | t :: ts => preorder t ++ preorderAll ts

end

/-- Trees as they are in the text: `lo` is a bound from below for every node of the list, `hi` one
from above, children come one after the other, and all are inside their parent. -/
inductive OrderedBetween : Nat → Nat → List Tree → Prop where
  | nil {lo hi : Nat} : lo ≤ hi → OrderedBetween lo hi []
  | cons {lo hi : Nat} {k : Kind} {f : Option Field} {s : Span} {cs ts : List Tree} :
      lo ≤ s.start → OrderedBetween s.start s.stop cs → OrderedBetween s.stop hi ts →
        OrderedBetween lo hi (node k f s cs :: ts)

/-- A tree whose children are ordered, do not overlap, and are inside their parents, at every
depth. -/
def Ordered (t : Tree) : Prop := OrderedBetween t.start t.stop t.children

@[simp] theorem kind_node (k : Kind) (f s cs) : (node k f s cs).kind = k := rfl
@[simp] theorem field_node (k : Kind) (f s cs) : (node k f s cs).field = f := rfl
@[simp] theorem span_node (k : Kind) (f s cs) : (node k f s cs).span = s := rfl
@[simp] theorem children_node (k : Kind) (f s cs) : (node k f s cs).children = cs := rfl

theorem preorder_eq (t : Tree) : t.preorder = t :: preorderAll t.children := by
  cases t; simp [preorder]

@[simp] theorem preorderAll_eq (ts : List Tree) : preorderAll ts = ts.flatMap preorder := by
  induction ts with
  | nil => simp [preorderAll]
  | cons t ts ih => simp [preorderAll, ih]

theorem OrderedBetween.le {lo hi : Nat} {ts : List Tree} (h : OrderedBetween lo hi ts) :
    lo ≤ hi := by
  induction h with
  | nil h => exact h
  | cons h _ _ ihc iht => omega

end Tree

end InjectionPoints.Java
