/-
Trees of files: directories, files and symbolic links. A directory lists its entries in any order.
Links are followed when a file is read, from the directory that holds the link.
-/
import InjectionPoints.Path

namespace InjectionPoints

/-- What can go wrong with a file. -/
inductive FileError where
  | notFound
  | notDirectory
  | isDirectory
  | notText
  | tooManyLinks
deriving DecidableEq

/-- The message of an error. -/
def FileError.message : FileError → String
  | notFound => "No such file or directory (os error 2)"
  | notDirectory => "Not a directory (os error 20)"
  | isDirectory => "Is a directory (os error 21)"
  | notText => "stream did not contain valid UTF-8"
  | tooManyLinks => "Too many levels of symbolic links (os error 40)"

/-- An entry of a directory. A file has a text unless its bytes are none. -/
inductive FileTree where
  | file (text : Option String)
  | link (target : String)
  | directory (entries : List (String × FileTree))

namespace FileTree

/-- An empty directory. -/
def empty : FileTree := directory []

/-- The entry of a name in a directory. -/
def lookup? (name : String) : FileTree → Option FileTree
  | directory entries => entries.lookup name
  | _ => none

/-- A directory whose entry `name` is `t`. -/
def setEntry (name : String) (t : FileTree) : FileTree → FileTree
  | directory entries =>
    if (entries.lookup name).isSome then
      directory (entries.map fun e => if e.1 == name then (name, t) else e)
    else directory (entries ++ [(name, t)])
  | _ => directory [(name, t)]

/-- Puts `t` at the end of a way through directories, which are made where they are missing. -/
def put (t : FileTree) : List String → FileTree → FileTree
  | [], _ => t
  | name :: names, here =>
    setEntry name (put t names ((here.lookup? name).getD empty)) here

/-- The entry at the end of a way through directories, without following links. -/
def at? (t : FileTree) (way : List String) : Option FileTree :=
  way.foldl (fun here name => here.bind (lookup? name)) (some t)

/-- One step from the directory at the end of `way` (given from its end): the way from there, and the
target of the link that has to be followed first, if the step is one. -/
def step (t : FileTree) (way : List String) (c : Path.Component) :
    Except FileError (List String × Option String) :=
  match t.at? way.reverse with
  | some (directory entries) =>
    match c with
    | .root => .error .notFound
    | .here => .ok (way, none)
    | .up => .ok (way.tail, none)
    | .name name =>
      match entries.lookup name with
      | none => .error .notFound
      | some (link target) => .ok (way, some target)
      | some _ => .ok (name :: way, none)
  | _ => .error .notDirectory

/-- Follows a path up to the first link: the way to where it gets, and there the target of the link
with what is left of the path. -/
def walk (t : FileTree) : List String → List Path.Component →
    Except FileError (List String × Option (String × List Path.Component))
  | way, [] => .ok (way, none)
  | way, c :: cs =>
    match t.step way c with
    | .error e => .error e
    | .ok (way, none) => walk t way cs
    | .ok (way, some target) => .ok (way, some (target, cs))

/-- Follows a path from the directory at the end of `way`, through at most `links` links: the way to
the entry found. -/
def follow (t : FileTree) (links : Nat) (way : List String) (path : List Path.Component) :
    Except FileError (List String) :=
  match t.walk way path with
  | .error e => .error e
  | .ok (way, none) => .ok way
  | .ok (way, some (target, rest)) =>
    match links with
    | 0 => .error .tooManyLinks
    | links + 1 => follow t links way (Path.steps target ++ rest)

/-- How many links are followed before a path is taken to lead nowhere. -/
def maxLinks : Nat := 40

/-- The way to the entry that a path leads to. -/
def resolve (t : FileTree) (path : String) : Except FileError (List String) :=
  if path.isEmpty then .error .notFound else t.follow maxLinks [] (Path.steps path)

/-! ## Building a tree -/

/-- The way to the end of a path, given from its end: links are followed where there are entries,
and names without an entry are kept. -/
def wayTo (t : FileTree) (path : List Path.Component) : List String :=
  path.foldl
    (fun way c =>
      match t.follow maxLinks way [c], c with
      | .ok way, _ => way
      | .error _, .name name => name :: way
      | .error _, .up => way.tail
      | .error _, _ => way)
    []

/-- Puts a file at the end of a path. -/
def putFile (path : String) (text : Option String) (t : FileTree) : FileTree :=
  put (file text) (t.wayTo (Path.components path)).reverse t

/-- Puts a link at the end of a path. -/
def putLink (path target : String) (t : FileTree) : FileTree :=
  match (Path.components path).reverse with
  | .name name :: above => put (link target) (name :: t.wayTo above.reverse).reverse t
  | _ => t

/-- Makes a directory at the end of a path, unless there is one. -/
def makeDirectory (path : String) (t : FileTree) : FileTree :=
  let way := (t.wayTo (Path.components path)).reverse
  put ((t.at? way).getD empty) way t

/-! ## Reading a tree -/

/-- The text of the file that a path leads to. -/
def read (t : FileTree) (path : String) : Except FileError String :=
  match t.resolve path with
  | .error e => .error e
  | .ok way =>
    match t.at? way.reverse with
    | some (file (some text)) => .ok text
    | some (file none) => .error .notText
    | some (directory _) => .error .isDirectory
    | _ => .error .notFound

mutual

/-- The paths of an entry and of all entries below it, directories left out. -/
def filesBelow (path : String) : FileTree → List String
  | directory entries => filesAmong path entries
  | _ => [path]

/-- `filesBelow` for the entries of a directory. -/
def filesAmong (path : String) : List (String × FileTree) → List String
  | [] => []
  | (name, t) :: entries => filesBelow (Path.join path name) t ++ filesAmong path entries

end

/-- The paths of all files and links below the directory that a path leads to. -/
def files (t : FileTree) (path : String) : Except FileError (List String) :=
  match t.resolve path with
  | .error e => .error e
  | .ok way =>
    match t.at? way.reverse with
    | some (directory entries) => .ok (filesAmong path entries)
    | _ => .error .notDirectory

end FileTree

end InjectionPoints
