/-
The syntax tree of a Java text: the tree of its tokens, with the comments put where they stand. A
comment becomes a child of the smallest node that has a token before it and one behind it; one
before all tokens or behind all of them becomes a child of the root.
-/
import InjectionPoints.Java.Grammar

namespace InjectionPoints.Java

namespace Tree

mutual

/-- Puts comments that stand inside a node where they belong; they are in the order of the text. -/
def withComments (comments : List Tree) : Tree → Tree
  | node k f s cs => if comments.isEmpty then node k f s cs else node k f s (weave comments cs)

/-- Puts comments between and inside the nodes of a list. -/
def weave (comments : List Tree) : List Tree → List Tree
  | [] => comments
  | t :: ts =>
    let before := comments.takeWhile fun c => decide (c.stop ≤ t.start)
    let rest := comments.drop before.length
    let inside := rest.takeWhile fun c => decide (c.start < t.stop)
    before ++ withComments inside t :: weave (rest.drop inside.length) ts

end

end Tree

/-- The root of a tree over a text of `size` bytes: it begins with its first child and ends with the
text. -/
def Tree.program (size : Nat) (children : List Tree) : Tree :=
  .node .program none ⟨(children.head?.map Tree.start).getD size, size⟩ children

/-- The syntax tree of a text that the grammar can read. -/
def Tree.ofText? (source : String) : Option Tree :=
  let tokens := Token.ofText source
  (Grammar.read? (tokens.filter fun t => !t.isComment)).map fun nodes =>
    .program source.utf8ByteSize (Tree.weave (tokens.filterMap Token.commentNode?) nodes)

end InjectionPoints.Java
