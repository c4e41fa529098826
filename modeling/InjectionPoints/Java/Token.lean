/-
Tokens of Java texts. A text is cut into tokens from left to right; comments are kept apart from
the tokens that the grammar reads. A string literal is several tokens: its quotes, the pieces of its
text, its escapes and the tokens of expressions that are embedded in it.

The scanner looks at one position at a time: `Scan.next` says what begins there and how long it is,
and `tokensFrom` passes over that many characters, so its recursion follows the text.
-/
import InjectionPoints.Text.Letter
import InjectionPoints.Java.Tree
import InjectionPoints.Java.Token.Numeral

namespace InjectionPoints.Java

open Text

/-- What a token is to the grammar. -/
inductive TokenKind where
  /-- A name or a keyword; the grammar tells them apart. -/
  | word
  /-- An operator, a punctuation mark, or a character that begins no token. -/
  | symbol
  /-- A token that is a node of its own kind. -/
  | piece (kind : Kind)
  /-- A token without a node. -/
  | silent
  /-- A comment. -/
  | comment (kind : Kind)
deriving DecidableEq

structure Token where
  kind : TokenKind
  text : String
  span : Span

/-- What the text around a position is: code, when there is no mode at all, a line or a block of
string literal, or code embedded in a literal, inside so many braces. -/
inductive Mode where
  | line
  | block
  | embedded (braces : Nat)

/-- What begins at a position: its class (none for white space), its length in characters, and the
modes behind it. -/
structure Scan where
  kind : Option TokenKind
  length : Nat
  modes : List Mode

namespace Scan

def isWordStart (c : Char) : Bool := isLetter c || c == '_' || c == '$'

def isWordPart (c : Char) : Bool := isAlphanumeric c || c == '_' || c == '$' || c.toNat == 0xA2

/-- White space between tokens. -/
def isLayout (c : Char) : Bool :=
  c == ' ' || decide ('\t' ≤ c ∧ c ≤ '\r') || c.toNat == 0xFEFF

/-- Symbols of more than one character, longest first. Symbols that begin with `>` are not among
them: in types the character always stands alone. -/
def longSymbols : List String :=
  ["@interface", "<<=", "...", "->", "::", "++", "--", "+=", "-=", "*=", "/=", "&=", "|=", "^=",
    "%=", "<<", "<=", "==", "!=", "&&", "||"]

/-- The length of the symbol that a text begins with. -/
def symbolLength (cs : List Char) : Nat :=
  ((longSymbols.find? fun s => s.toList.isPrefixOf cs).map String.length).getD 1

/-- The length of a character literal behind its first quote. -/
def characterLength : List Char → Option Nat
  | [] => none
  | '\'' :: _ => some 1
  | '\n' :: _ => none
  | '\\' :: _ :: cs => (characterLength cs).map (· + 2)
  | _ :: cs => (characterLength cs).map (· + 1)

/-- The length of a block comment behind its first two characters. -/
def blockCommentLength : List Char → Option Nat
  | '*' :: '/' :: _ => some 2
  | _ :: cs => (blockCommentLength cs).map (· + 1)
  | [] => none

/-- The length of an escape behind the backslash. -/
def escapeLength : List Char → Option Nat
  | [] => none
  | 'x' :: cs => if (cs.take 2).length = 2 && (cs.take 2).all Numeral.isHex then some 3 else none
  | 'u' :: '{' :: cs =>
    let hex := cs.takeWhile Numeral.isHex
    if !hex.isEmpty && (cs.drop hex.length).head? == some '}' then some (hex.length + 3) else none
  | 'u' :: cs => if (cs.take 4).length = 4 && (cs.take 4).all Numeral.isHex then some 5 else none
  | c :: cs =>
    if Numeral.isOctal c then some (1 + ((cs.take 2).takeWhile Numeral.isOctal).length) else some 1

/-- A character that belongs to the text of a literal as it is. -/
def isPlain (c : Char) : Bool := !(c == '"' || c == '\\')

/-- The length of text in a block behind a quote that does not close it. -/
def quotedLength : List Char → Nat
  | '\\' :: '"' :: cs => quotedLength cs + 2
  | c :: cs => if isPlain c then quotedLength cs + 1 else 0
  | [] => 0

/-- A token that leaves the modes as they are. -/
def here (modes : List Mode) (kind : TokenKind) (length : Nat) : Scan := ⟨some kind, length, modes⟩

/-- What an escape is; one that is malformed is a symbol that no rule reads. -/
def escape (modes : List Mode) (cs : List Char) : Scan :=
  match escapeLength cs with
  | some n => here modes (.piece .escapeSequence) (n + 1)
  | none => here modes .symbol 1

/-- Scans inside a one-line literal. -/
def line (outer : List Mode) (c : Char) (cs : List Char) : Scan :=
  let modes := .line :: outer
  if c == '"' then ⟨some .symbol, 1, outer⟩
  else if c == '\\' then
    if cs.head? == some '{' then ⟨some .symbol, 2, .embedded 0 :: modes⟩ else escape modes cs
  else here modes (.piece .stringFragment) (1 + (cs.takeWhile isPlain).length)

/-- Characters behind a backslash that make it an escape with a node of its own in a block. -/
def blockEscapes : List Char :=
  ['a', 'b', 'f', 'n', 'r', 't', 'v', 'x', 'u', '\'', '"', '\\', '?']

/-- Scans inside a text block. -/
def block (outer : List Mode) (c : Char) (cs : List Char) : Scan :=
  let modes := .block :: outer
  if c == '"' then
    if ['"', '"'].isPrefixOf cs then ⟨some .symbol, 3, outer⟩
    else here modes (.piece .multilineStringFragment) (1 + quotedLength cs)
  else if c == '\\' then
    if cs.head?.any fun d => !blockEscapes.contains d then here modes .silent 2
    else escape modes cs
  else here modes (.piece .multilineStringFragment) (1 + (cs.takeWhile isPlain).length)

/-- The modes behind a brace in code. -/
def behindBrace (c : Char) : List Mode → List Mode
  | .embedded n :: outer =>
    if c == '{' then .embedded (n + 1) :: outer
    else if c == '}' then (match n with | 0 => outer | n + 1 => .embedded n :: outer)
    else .embedded n :: outer
  | modes => modes

/-- Scans code. -/
def code (modes : List Mode) (c : Char) (cs : List Char) : Scan :=
  if isLayout c then ⟨none, 1, modes⟩
  else if isWordStart c then here modes .word (1 + (cs.takeWhile isWordPart).length)
  else if c == '"' then
    if ['"', '"'].isPrefixOf cs then ⟨some .symbol, 3, .block :: modes⟩
    else ⟨some .symbol, 1, .line :: modes⟩
  else if c == '\'' then
    match characterLength cs with
    | some n => here modes (.piece .characterLiteral) (n + 1)
    | none => here modes .symbol 1
  else if c == '/' && cs.head? == some '/' then
    here modes (.comment .lineComment) (1 + (cs.takeWhile (· != '\n')).length)
  else if c == '/' && cs.head? == some '*' && (blockCommentLength (cs.drop 1)).isSome then
    here modes (.comment .blockComment) (2 + (blockCommentLength (cs.drop 1)).getD 0)
  else
    match (if c.isDigit || c == '.' then Numeral.read? (c :: cs) else none) with
    | some (kind, n) => here modes (.piece kind) n
    | none => ⟨some .symbol, symbolLength (c :: cs), behindBrace c modes⟩

/-- What begins at the character `c`. -/
def next (modes : List Mode) (c : Char) (cs : List Char) : Scan :=
  match modes with
  | .line :: outer => line outer c cs
  | .block :: outer => block outer c cs
  | modes => code modes c cs

end Scan

namespace Token

/-- The tokens of a text that begins `offset` bytes into the whole one, and of which the first
`skip` characters belong to a token already read. -/
def tokensFrom (skip offset : Nat) (modes : List Mode) : List Char → List Token
  | [] => []
  | c :: cs =>
    match skip with
    | skip + 1 => tokensFrom skip (offset + c.utf8Size) modes cs
    | 0 =>
      let s := Scan.next modes c cs
      let rest := tokensFrom (s.length - 1) (offset + c.utf8Size) s.modes cs
      match s.kind with
      | none => rest
      | some kind =>
        let text := String.ofList (c :: cs.take (s.length - 1))
        ⟨kind, text, ⟨offset, offset + text.utf8ByteSize⟩⟩ :: rest

/-- All tokens of a text, comments among them. -/
def ofText (source : String) : List Token := tokensFrom 0 0 [] source.toList

/-- Whether the token is a comment. -/
def isComment (t : Token) : Bool :=
  match t.kind with
  | .comment _ => true
  | _ => false

/-- Whether the grammar may read the token as a keyword or a symbol. -/
def isPlain (t : Token) : Bool :=
  match t.kind with
  | .word => true
  | .symbol => true
  | _ => false

/-- The node of a comment. -/
def commentNode? (t : Token) : Option Tree :=
  match t.kind with
  | .comment kind => some (.leaf kind t.span)
  | _ => none

end Token

end InjectionPoints.Java
