/-
Workspaces: the files of a program with their syntax trees, and the index of their classes. Files
are numbered in the order in which they are added; nothing that was added ever changes.
-/
import InjectionPoints.ClassIndex.Build
import InjectionPoints.Event
import InjectionPoints.FileTree
import InjectionPoints.Java.SourceTree

namespace InjectionPoints

open Java

structure SourceFile where
  path : String
  text : String
  tree : Tree
  /-- Whether the grammar cannot read the text. -/
  hasError : Bool

/-- A file with the syntax tree of its text; the tree of a text that the grammar cannot read is
empty. -/
def SourceFile.ofText (path text : String) : SourceFile :=
  match Tree.ofText? text with
  | some tree => { path, text, tree, hasError := false }
  | none => { path, text, tree := .program text.utf8ByteSize [], hasError := true }

structure Workspace where
  files : List SourceFile
  index : ClassIndex

namespace Workspace

def empty : Workspace := ⟨[], .empty⟩

/-- The workspace with one more file, whose number is that of the files before. -/
def addFile (ws : Workspace) (path text : String) : Workspace :=
  let file := SourceFile.ofText path text
  { files := ws.files ++ [file], index := ws.index.addFile text file.tree }

/-- The first file with a path. -/
def fileId? (ws : Workspace) (path : String) : Option FileId :=
  ws.files.findIdx? fun file => Path.same file.path path

/-- The text of a file. -/
def text (ws : Workspace) (file : FileId) : String := ((ws.files[file]?).map (·.text)).getD ""

/-- The root of the syntax tree of a file. -/
def root? (ws : Workspace) (file : FileId) : Option Place :=
  (ws.files[file]?).map fun f => .root f.tree

/-- The path of a file. -/
def path (ws : Workspace) (file : FileId) : String := ((ws.files[file]?).map (·.path)).getD ""

/-! ## Loading a directory -/

/-- Adds a file that is read from a tree of files; one that is gone is left out, one that cannot be
read is left out and reported. -/
def addRead (t : FileTree) (ws : Logged Workspace) (path : String) : Logged Workspace :=
  match t.read path with
  | .ok text => { ws with value := ws.value.addFile path text }
  | .error .notFound => ws
  | .error e => { ws with log := ws.log ++ [.unreadableFile path e] }

/-- The paths of the Java files below a directory, in the order of paths. -/
def javaFiles (t : FileTree) (root : String) : Except FileError (List String) :=
  (t.files root).map fun paths =>
    (paths.filter fun path => Path.extension? path == some "java").mergeSort Path.le

/-- The workspace of all Java files below a directory. -/
def load (t : FileTree) (root : String) : Except FileError (Logged Workspace) :=
  (javaFiles t root).map fun paths => paths.foldl (addRead t) ⟨empty, []⟩

/-- The message for a directory that cannot be loaded. -/
def loadErrorMessage (e : FileError) : String := "io error: " ++ e.message

end Workspace

end InjectionPoints
