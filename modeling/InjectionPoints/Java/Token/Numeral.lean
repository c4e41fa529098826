/-
Numerals of Java. Each form is a function that takes the numeral off the front of a text and leaves
the rest; the longest form wins, and of equally long ones the first in `forms`.
-/
import InjectionPoints.Java.Kind

namespace InjectionPoints.Java.Numeral

/-- What is left behind a numeral of some form. -/
abbrev Form := List Char → Option (List Char)

def isHex (c : Char) : Bool :=
  c.isDigit || decide ('a' ≤ c ∧ c ≤ 'f') || decide ('A' ≤ c ∧ c ≤ 'F')

def isOctal (c : Char) : Bool := decide ('0' ≤ c ∧ c ≤ '7')

def isBinary (c : Char) : Bool := c == '0' || c == '1'

/-- Takes the digits behind a first one; single underscores may stand between digits. -/
def moreDigits (p : Char → Bool) : List Char → List Char
  | [] => []
  | [c] => if p c then [] else [c]
  | c :: d :: cs =>
    if p c then moreDigits p (d :: cs)
    else if c == '_' && p d then moreDigits p cs
    else c :: d :: cs

/-- Takes a run of digits. -/
def digits (p : Char → Bool) : Form
  | c :: cs => if p c then some (moreDigits p cs) else none
  | [] => none

/-- Takes the digits behind a first group; any number of underscores may stand between digits. -/
def moreGroups : List Char → List Char
  | c :: cs =>
    if c.isDigit then moreGroups cs
    else if c == '_' && ((cs.dropWhile (· == '_')).head?.any Char.isDigit) then moreGroups cs
    else c :: cs
  | [] => []

/-- Takes a whole number: a single zero, or digits that begin with none. -/
def whole : Form
  | '0' :: cs => some cs
  | c :: '_' :: d :: cs =>
    if c.isDigit then some (if d.isDigit then moreGroups cs else '_' :: d :: cs) else none
  | c :: cs => if c.isDigit then some (moreGroups cs) else none
  | [] => none

/-- Takes one character of a class. -/
def one (p : Char → Bool) : Form
  | c :: cs => if p c then some cs else none
  | [] => none

/-- Takes what a form takes, or nothing. -/
def optional (f : Form) (cs : List Char) : List Char := (f cs).getD cs

def isLong (c : Char) : Bool := c == 'l' || c == 'L'

def isFloat (c : Char) : Bool := c == 'f' || c == 'F' || c == 'd' || c == 'D'

def isSign (c : Char) : Bool := c == '-' || c == '+'

/-- Takes an exponent that one of the `marks` introduces. -/
def exponent (marks : List Char) (power : Form) : Form := fun cs => do
  let cs ← one marks.contains cs
  power (optional (one isSign) cs)

/-- Takes a zero and one of the `marks`. -/
def radix (marks : List Char) : Form
  | '0' :: c :: cs => if marks.contains c then some cs else none
  | _ => none

def decimalInteger : Form := fun cs => return optional (one isLong) (← whole cs)

def hexInteger : Form := fun cs => do
  return optional (one isLong) (← digits isHex (← radix ['x', 'X'] cs))

def octalInteger : Form := fun cs => do
  let cs ← radix ['o', 'O'] cs <|> one (· == '0') cs
  return optional (one isLong) (← digits isOctal cs)

def binaryInteger : Form := fun cs => do
  return optional (one isLong) (← digits isBinary (← radix ['b', 'B'] cs))

def decimalExponent : Form := exponent ['e', 'E'] (digits Char.isDigit)

/-- `1.5`, `1.`, with an exponent and a suffix or without. -/
def pointed : Form := fun cs => do
  let cs ← one (· == '.') (← digits Char.isDigit cs)
  return optional (one isFloat) (optional decimalExponent (optional (digits Char.isDigit) cs))

/-- `.5`, with an exponent and a suffix or without. -/
def fraction : Form := fun cs => do
  let cs ← digits Char.isDigit (← one (· == '.') cs)
  return optional (one isFloat) (optional decimalExponent cs)

/-- `1e5`. -/
def scientific : Form := fun cs => do
  let cs ← exponent ['e', 'E', 'p', 'P'] (digits Char.isDigit) (← whole cs)
  return optional (one isFloat) cs

/-- `1f`, `1e5f`. -/
def suffixed : Form := fun cs => do
  one isFloat (optional decimalExponent (← whole cs))

/-- `0x1.8p3`. -/
def hexFloat : Form := fun cs => do
  let cs ← radix ['x', 'X'] cs
  let cs ← (do one (· == '.') (optional (digits isHex) cs) >>= digits isHex) <|>
    (do return optional (one (· == '.')) (← digits isHex cs))
  let power := exponent ['e', 'E', 'p', 'P'] whole
  return ((power cs).map (optional (one isFloat))).getD cs

/-- The forms of numerals with the kinds of their nodes. -/
def forms : List (Kind × Form) :=
  [(.decimalIntegerLiteral, decimalInteger), (.hexIntegerLiteral, hexInteger),
    (.octalIntegerLiteral, octalInteger), (.binaryIntegerLiteral, binaryInteger),
    (.decimalFloatingPointLiteral, pointed), (.decimalFloatingPointLiteral, fraction),
    (.decimalFloatingPointLiteral, scientific), (.decimalFloatingPointLiteral, suffixed),
    (.hexFloatingPointLiteral, hexFloat)]

/-- The numeral that a text begins with: its kind and its length. -/
def read? (cs : List Char) : Option (Kind × Nat) :=
  forms.foldl
    (fun best (kind, form) =>
      match form cs with
      | none => best
      | some rest =>
        let length := cs.length - rest.length
        if best.all fun b => decide (b.2 < length) then some (kind, length) else best)
    none

end InjectionPoints.Java.Numeral
