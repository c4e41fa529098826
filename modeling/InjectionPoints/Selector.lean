/-
Selectors: the texts by which an injector names a member of a class. A selector has a name, and may
have an owner (an internal class name) and a descriptor. Accepted are `name`, `name(desc)ret`,
`name:desc`, each also behind an owner written `Lpkg/Owner;`, `pkg/Owner.` or `pkg.Owner.`; a bare
owner names its constructors.

`parse?` reads a selector and `render` writes one; `selects` says which members it names.
-/
import InjectionPoints.Text.Blank
import InjectionPoints.Text.Split

namespace InjectionPoints

open Text

/-- The name under which the virtual machine knows the constructors of a class. -/
def constructorName : String := "<init>"

/-- A way to name members of classes. -/
structure Selector where
  /-- Internal name of the owner, `com/example/Foo`; any class when absent. -/
  owner : Option String
  name : String
  /-- Descriptor of a method, `(I)V`, or of a field, `I`; any when absent. -/
  descriptor : Option String
deriving DecidableEq

namespace Selector

/-- The owner of a text `Lpkg/Owner;rest`, and that rest. An owner is not empty and holds none of
the characters that end a name. -/
def splitOwnerDescriptor : List Char → Option (List Char × List Char)
  | 'L' :: cs =>
    match cutFirst (· == ';') cs with
    | some (owner, rest) =>
      if owner.isEmpty || owner.any (fun c => c == '(' || c == ':' || c == '.') then none
      else some (owner, rest)
    | none => none
  | _ => none

/-- The owner of a text `pkg/Owner.rest`, cut at the last separator in front of a descriptor. -/
def splitOwnerPath (cs : List Char) : Option (List Char × List Char) :=
  let head := cs.takeWhile fun c => !(c == '(' || c == ':')
  (cutLast (fun c => c == '.' || c == '/') head).map fun (owner, name) =>
    (owner, name ++ cs.drop head.length)

/-- The owner that a text begins with, if any, and the rest of the text. -/
def splitOwner (cs : List Char) : Option (List Char) × List Char :=
  match splitOwnerDescriptor cs with
  | some (owner, rest) => (some owner, rest)
  | none =>
    match splitOwnerPath cs with
    | some (owner, rest) => (some owner, rest)
    | none => (none, cs)

/-- The name and the descriptor of a text without owner. A method descriptor begins at the first
parenthesis and keeps it; without one, a field descriptor begins behind the first colon. -/
def splitDescriptor (cs : List Char) : List Char × Option (List Char) :=
  match cutFirst (· == '(') cs with
  | some (name, desc) => (name, some ('(' :: desc))
  | none =>
    match cutFirst (· == ':') cs with
    | some (name, desc) => (name, some desc)
    | none => (cs, none)

/-- Internal names separate packages by slashes. -/
def internalChars (cs : List Char) : List Char := cs.map fun c => if c == '.' then '/' else c

/-- Reads a selector; a text without owner and name is none. -/
def parse? (text : String) : Option Selector :=
  let cs := trimChars text.toList
  let (owner, rest) := splitOwner cs
  let (name, descriptor) := splitDescriptor rest
  let name := trimChars name
  if name.isEmpty && owner.isNone then none
  else some {
    owner := owner.map fun cs => String.ofList (internalChars cs)
    name := if name.isEmpty then constructorName else String.ofList name
    descriptor := (descriptor.filter fun cs => !cs.isEmpty).map String.ofList }

/-- Whether the selector names the member `name` with `descriptor` of the class `owner`. -/
def selects (s : Selector) (name descriptor owner : String) : Bool :=
  s.name == name && s.descriptor.all (· == descriptor) && s.owner.all (· == owner)

/-- The literal of a selector; the descriptor of a field is set off by a colon. -/
def render (s : Selector) (ofField : Bool) : String :=
  let owner := match s.owner with
    | some owner => "L" ++ owner ++ ";"
    | none => ""
  let descriptor := match s.descriptor with
    | some descriptor => (if ofField then ":" else "") ++ descriptor
    | none => ""
  owner ++ s.name ++ descriptor

theorem selects_iff {s : Selector} {name descriptor owner : String} :
    s.selects name descriptor owner = true ↔
      s.name = name ∧ (∀ d, s.descriptor = some d → d = descriptor) ∧
        ∀ o, s.owner = some o → o = owner := by
  cases hd : s.descriptor <;> cases ho : s.owner <;> simp [selects, hd, ho, and_assoc]

end Selector

end InjectionPoints
