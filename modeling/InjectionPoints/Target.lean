/-
The method that an injector changes. An injector names one method by a selector; the class around
it names the one class whose method is meant. Whatever is missing or not unique is an obstacle.
-/
import InjectionPoints.ClassIndex.Members
import InjectionPoints.Workspace

namespace InjectionPoints

open Java

/-- A method of a workspace with its declaration and its body. -/
structure TargetMethod (ix : ClassIndex) where
  method : ix.MethodId
  declaration : Place
  body : Place

namespace Target

variable (ws : Workspace)

/-- The classes that an annotation names, as class literals and as strings; those outside the index
are left out, and a class that is named again right away counts once. -/
def classesNamed (source : String) (file : FileId) (mixin : Place) : List ws.index.ClassId :=
  ((Annotations.classesOf source "value" mixin).filterMap (ws.index.resolve? file) ++
    (Annotations.stringsOf source "targets" mixin).filterMap ws.index.byName?).eraseReps

/-- The annotation by which the class around a node says what it changes. -/
def mixin? (source : String) (p : Place) : Option Place := do
  let around ← p.ancestor? Kind.typeDeclarations.contains
  let modifiers ← Annotations.modifiers? around
  (Annotations.among modifiers).find? fun a => Annotations.simpleName? source a == some "Mixin"

/-- The one class that the class around a node changes. -/
def class? (source : String) (file : FileId) (p : Place) : Except Obstacle ws.index.ClassId := do
  let mixin ← orObstacle .noMixin (mixin? source p)
  match classesNamed ws source file mixin with
  | [c] => .ok c
  | classes => .error (.classCount classes.length)

/-- The one method of a class that a text selects. -/
def method? (c : ws.index.ClassId) (text : String) : Except Obstacle ws.index.MethodId := do
  let selector ← orObstacle .unreadableMethod (Selector.parse? text)
  let selected := (ws.index.methodsOf c).filter fun m =>
    selector.selects (ws.index.method m).name (ws.index.methodDescriptor m)
      (ws.index.decl c).internalName
  match selected with
  | [m] => .ok m
  | _ => .error (.methodNotUnique text)

/-- The one text by which an injector names a method. -/
def selector? (source : String) (injector : Place) : Except Obstacle String :=
  match Annotations.stringsOf source "method" injector with
  | [text] => .ok text
  | texts =>
    .error (.methodCount ((Annotations.simpleName? source injector).getD "") texts.length)

/-- The declaration of a method in its file, with its body. -/
def declaration? (m : ws.index.MethodId) : Option (TargetMethod ws.index) := do
  let root ← ws.root? (ws.index.decl m.owner).file
  let declaration ← root.exactly? (ws.index.method m).declSpan Kind.methodDeclarations.contains
  return { method := m, declaration, body := ← declaration.child? .body }

/-- The method in whose body an injection point of a file selects elements. -/
def resolve (file : FileId) (point : Place) : Except Obstacle (TargetMethod ws.index) := do
  let source := ws.text file
  let injector ← orObstacle .noInjector (Annotations.enclosing? point)
  let text ← selector? source injector
  let c ← class? ws source file point
  let m ← method? ws c text
  if (ws.index.method m).hasBody then orObstacle .noDeclaration (declaration? ws m)
  else .error (.noBody (ws.index.method m).name)

end Target

end InjectionPoints
