/-
Paths of files. Two paths are equal when their components are: separators may be repeated or stand
at the end, and a dot counts only at the beginning. Paths are ordered component by component.
-/
import InjectionPoints.Text.Split

namespace InjectionPoints

open Text

namespace Path

/-- A component of a path. -/
inductive Component where
  | root
  | here
  | up
  | name (text : String)
deriving DecidableEq

/-- The texts between separators. -/
def pieces : List Char → List (List Char)
  | [] => [[]]
  | c :: cs =>
    if c = '/' then [] :: pieces cs
    else
      match pieces cs with
      | [] => [[c]]
      | p :: ps => (c :: p) :: ps

/-- What a piece behind the first one is as a component; nothing and a dot are none. -/
def component? (piece : List Char) : Option Component :=
  if piece = [] ∨ piece = ['.'] then none
  else if piece = ['.', '.'] then some .up
  else some (.name (String.ofList piece))

/-- The components of a path. -/
def components (path : String) : List Component :=
  match pieces path.toList with
  | [] => []
  | first :: rest =>
    let head :=
      if first = [] then (if rest = [] then [] else [Component.root])
      else if first = ['.'] then [.here]
      else (component? first).toList
    head ++ rest.filterMap component?

/-- The components of a path as they are followed: a separator or a dot at the end asks for a
directory. -/
def steps (path : String) : List Component :=
  match (pieces path.toList).getLast? with
  | some [] | some ['.'] => components path ++ [.here]
  | _ => components path

/-- Whether two paths are equal. -/
def same (p q : String) : Bool := components p == components q

/-- The kinds of components in their order. -/
def Component.rank : Component → Nat
  | .root => 0
  | .here => 1
  | .up => 2
  | .name _ => 3

/-- Whether a component comes before another one or is equal to it. -/
def Component.le : Component → Component → Bool
  | .name a, .name b => decide (a ≤ b)
  | a, b => decide (a.rank ≤ b.rank)

/-- Whether a list of components comes before another one or is equal to it. -/
def componentsLe : List Component → List Component → Bool
  | [], _ => true
  | _ :: _, [] => false
  | a :: as, b :: bs => if a = b then componentsLe as bs else a.le b

/-- Whether a path comes before another one or is equal to it. -/
def le (p q : String) : Bool := componentsLe (components p) (components q)

/-- A name behind a directory. -/
def join (directory name : String) : String :=
  if directory.toList.getLast? = some '/' then directory ++ name else directory ++ "/" ++ name

/-- The name of the file at the end of a path. -/
def fileName? (path : String) : Option String :=
  match (components path).getLast? with
  | some (.name name) => some name
  | _ => none

/-- What stands behind the last dot of the name of a file; a dot at the beginning does not count. -/
def extension? (path : String) : Option String := do
  let name ← fileName? path
  let (before, behind) ← cutLast (· == '.') name.toList
  if before.isEmpty then none else some (String.ofList behind)

end Path

end InjectionPoints
