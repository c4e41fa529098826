/-
Rules of a grammar, and the reader that follows them.

A rule is data. It reads tokens and adds nodes to the siblings read so far, which are kept with the
last one first; so a rule can also take the last sibling as its first child (`onto`), which is how
`a.b.c` and `x + y + z` lean to the left. Alternatives are ordered: the first one that can be read
is taken. Rules refer to each other by names, and a grammar gives the rule of each name.

`Rule.read` is total: its fuel bounds how deep rules may nest.
-/
import InjectionPoints.Java.Grammar.Name
import InjectionPoints.Java.Token

namespace InjectionPoints.Java.Grammar

/-- A rule of the grammar. -/
inductive Rule where
  /-- Reads nothing. -/
  | empty
  /-- Reads plain tokens that touch one another, as one node; after them, none of the symbols
  `apart` may follow without a gap. -/
  | joined (parts apart : List String) (kind : Kind)
  /-- Reads a word that is none of the `reserved`. -/
  | word (reserved : List String) (kind : Kind)
  /-- Reads a token that is a node by itself, of one of the kinds. -/
  | piece (kinds : List Kind)
  /-- Reads a token without a node. -/
  | silent
  /-- Reads nothing, but fails in front of one of the words. -/
  | avoid (words : List String)
  /-- Reads nothing, but fails unless the last sibling passes the test. -/
  | given (test : Tree → Bool)
  /-- One rule after the other. -/
  | seq (a b : Rule)
  /-- The first rule, or the second where the first fails. -/
  | alt (a b : Rule)
  /-- As often as possible, perhaps never. -/
  | many (a : Rule)
  /-- What the rule reads becomes the children of a new node. -/
  | node (kind : Kind) (a : Rule)
  /-- The last sibling, in the given role, and what the rule reads become the children of a new
  node. -/
  | onto (role : Option Field) (kind : Kind) (a : Rule)
  /-- What the rule reads has the given role. -/
  | field (role : Field) (a : Rule)
  /-- The rule of a name. -/
  | ref (name : Name)

namespace Rule

instance : Append Rule := ⟨seq⟩

/-- A keyword or a symbol. -/
def tok (text : String) : Rule := joined [text] [] (.token text)

/-- A keyword that is a node of its own kind. -/
def leaf (text : String) (kind : Kind) : Rule := joined [text] [] kind

/-- An operator of several tokens, not to be continued by `>` or `=`. -/
def operator (parts : List String) : Rule :=
  joined parts [">", "=", "=="] (.token (String.join parts))

/-- The rule, or nothing. -/
def opt (a : Rule) : Rule := alt a empty

/-- Once or more. -/
def plus (a : Rule) : Rule := seq a (many a)

/-- Once or more, with a symbol in between. -/
def sep (symbol : String) (a : Rule) : Rule := a ++ many (tok symbol ++ a)

/-- Any number, with commas in between. -/
def commas (a : Rule) : Rule := opt (sep "," a)

/-- The first of several rules that can be read. -/
def oneOf : List Rule → Rule
  | [] => given fun _ => false
  | [a] => a
  | a :: as => alt a (oneOf as)

/-- One of several keywords or symbols. -/
def anyTok (texts : List String) : Rule := oneOf (texts.map tok)

/-! ## Punctuation -/

def openBrace : Rule := tok "\x7b"

def closeBrace : Rule := tok "\x7d"

/-- Something in braces. -/
def braced (a : Rule) : Rule := openBrace ++ a ++ closeBrace

/-- Something in parentheses. -/
def inParentheses (a : Rule) : Rule := tok "(" ++ a ++ tok ")"

/-- Any number with commas in between, and perhaps one more comma. -/
def commasOpen (a : Rule) : Rule := commas a ++ opt (tok ",")

/-! ## Reading -/

/-- Reads tokens with the given texts, without gaps and from `start` on where that is given: the span
of all of them, and the tokens behind. -/
def takeJoined (parts : List String) (start : Option Nat) :
    List Token → Option (Option Span × List Token) :=
  match parts with
  | [] => fun ts => some (none, ts)
  | part :: parts => fun
    | [] => none
    | t :: ts =>
      if t.isPlain && t.text == part && start.all (· == t.span.start) then
        (takeJoined parts (some t.span.stop) ts).map fun (hull, rest) =>
          (some ⟨t.span.start, (hull.map Span.stop).getD t.span.stop⟩, rest)
      else none

/-- Whether the next token is a plain one with one of the texts. -/
def nextIs (texts : List String) : List Token → Bool
  | [] => false
  | t :: _ => t.isPlain && texts.contains t.text

/-- Whether the next token begins right at `stop`. -/
def touches (stop : Nat) : List Token → Bool
  | [] => false
  | t :: _ => t.span.start == stop

/-- Follows a rule: from the siblings read so far and the tokens ahead to those afterwards. -/
def read (grammar : Name → Rule) :
    Nat → Rule → List Tree → List Token → Option (List Tree × List Token)
  | 0, _, _, _ => none
  | fuel + 1, rule, siblings, tokens =>
    match rule with
    | empty => some (siblings, tokens)
    | joined parts apart kind =>
      match takeJoined parts none tokens with
      | some (some span, rest) =>
        if nextIs apart rest && touches span.stop rest then none
        else some (.leaf kind span :: siblings, rest)
      | _ => none
    | word reserved kind =>
      match tokens with
      | t :: rest =>
        if t.kind == .word && !reserved.contains t.text then
          some (.leaf kind t.span :: siblings, rest)
        else none
      | [] => none
    | piece kinds =>
      match tokens with
      | ⟨.piece kind, _, span⟩ :: rest =>
        if kinds.contains kind then some (.leaf kind span :: siblings, rest) else none
      | _ => none
    | silent =>
      match tokens with
      | ⟨.silent, _, _⟩ :: rest => some (siblings, rest)
      | _ => none
    | avoid words => if nextIs words tokens then none else some (siblings, tokens)
    | given test =>
      match siblings with
      | t :: _ => if test t then some (siblings, tokens) else none
      | [] => none
    | seq a b =>
      match read grammar fuel a siblings tokens with
      | some (siblings, tokens) => read grammar fuel b siblings tokens
      | none => none
    | alt a b =>
      match read grammar fuel a siblings tokens with
      | some r => some r
      | none => read grammar fuel b siblings tokens
    | many a =>
      match read grammar fuel a siblings tokens with
      | some (siblings, tokens) => read grammar fuel (many a) siblings tokens
      | none => some (siblings, tokens)
    | node kind a =>
      match read grammar fuel a [] tokens with
      | some (children, rest) =>
        some (.branch kind children.reverse :: siblings, rest)
      | none => none
    | onto role kind a =>
      match siblings with
      | first :: older =>
        match read grammar fuel a [first.withField role] tokens with
        | some (children, rest) =>
          some (.branch kind children.reverse :: older, rest)
        | none => none
      | [] => none
    | field role a =>
      match read grammar fuel a [] tokens with
      | some (children, rest) =>
        some (children.map (Tree.withField (some role)) ++ siblings, rest)
      | none => none
    | ref name => read grammar fuel (grammar name) siblings tokens

end Rule

end InjectionPoints.Java.Grammar
