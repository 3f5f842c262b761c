import Conform.Hex
import Conform.Json.Numeral
/-!
# Tokens

A JSON text cut into tokens. Strings and numbers are checked for their form
only: a string with half a surrogate pair in it and a number of any magnitude
are tokens, and it is for the reader to refuse them where they are used.
-/

namespace Conform

/-- A token of a JSON text. -/
inductive Token where
  | openObject
  | closeObject
  | openList
  | closeList
  | colon
  | comma
  | null
  | boolean (b : Bool)
  | number (numeral : Numeral)
  /-- The text of a string, unless an escape in it is no character. -/
  | string (text? : Option String)
  /-- The rest of the text is no JSON. -/
  | unreadable
  deriving DecidableEq, Repr

namespace Token

/-- What one character or escape inside quotes stands for. -/
inductive Piece where
  | char (c : Char)
  /-- One of the code units that make a character only in pairs. -/
  | half (unit : Nat)
  deriving DecidableEq, Repr

/-- The four digits of an escape and what is behind them. -/
def unit? : List Char → Option (Nat × List Char)
  | a :: b :: c :: d :: rest => do
    let a ← Hex.value? a
    let b ← Hex.value? b
    let c ← Hex.value? c
    let d ← Hex.value? d
    return (((a * 16 + b) * 16 + c) * 16 + d, rest)
  | _ => none

/-- A code unit as a character or as half of one. -/
def Piece.ofUnit (unit : Nat) : Piece :=
  if 0xd800 ≤ unit ∧ unit < 0xe000 then .half unit else .char (Char.ofNat unit)

def letter? (c : Char) : Option Char :=
  if c = '"' ∨ c = '\\' ∨ c = '/' then some c
  else if c = 'b' then some (Char.ofNat 0x8)
  else if c = 'f' then some (Char.ofNat 0xc)
  else if c = 'n' then some '\n'
  else if c = 'r' then some '\r'
  else if c = 't' then some '\t'
  else none

/-- The pieces of a string up to its closing quote, and what is behind that. -/
def pieces? : Nat → List Char → Option (List Piece × List Char)
  | 0, _ => none
  | _, [] => none
  | steps + 1, c :: rest =>
    if c = '"' then some ([], rest)
    else if c = '\\' then
      match rest with
      | 'u' :: digits => do
        let (unit, rest) ← unit? digits
        let (pieces, rest) ← pieces? steps rest
        return (.ofUnit unit :: pieces, rest)
      | e :: rest => do
        let meant ← letter? e
        let (pieces, rest) ← pieces? steps rest
        return (.char meant :: pieces, rest)
      | [] => none
    else if c.toNat < 0x20 then none
    else do
      let (pieces, rest) ← pieces? steps rest
      return (.char c :: pieces, rest)

/-- The characters of pieces, where two halves in their order make one; none when a half is left. -/
def chars? : List Piece → Option (List Char)
  | [] => some []
  | .char c :: rest => (chars? rest).map (c :: ·)
  | .half high :: .half low :: rest =>
    if high < 0xdc00 ∧ 0xdc00 ≤ low then
      (chars? rest).map (Char.ofNat (0x10000 + (high - 0xd800) * 0x400 + (low - 0xdc00)) :: ·)
    else none
  | .half _ :: _ => none

def digits? (cs : List Char) : Option (List Char × List Char) :=
  match cs.takeWhile Char.isDigit with
  | [] => none
  | digits => some (digits, cs.dropWhile Char.isDigit)

/-- The whole part of a number: a zero stands alone. -/
def whole? (cs : List Char) : Option (List Char × List Char) :=
  match digits? cs with
  | some ('0' :: _ :: _, _) => none
  | found => found

/-- The digits behind a point, if there is a point. -/
def fraction? : List Char → Option (List Char × List Char)
  | '.' :: rest => digits? rest
  | cs => some ([], cs)

/-- The sign in front of an exponent's digits, which may be left out. -/
def exponentSign : List Char → Bool × List Char
  | '+' :: rest => (false, rest)
  | '-' :: rest => (true, rest)
  | cs => (false, cs)

/-- The exponent of a number, if there is one. -/
def exponent? : List Char → Option (Option (Bool × List Char) × List Char)
  | [] => some (none, [])
  | c :: rest =>
    if c = 'e' ∨ c = 'E' then
      let (down, rest) := exponentSign rest
      (digits? rest).map fun (digits, rest) => (some (down, digits), rest)
    else some (none, c :: rest)

def numeral? (cs : List Char) : Option (Numeral × List Char) := do
  let (negative, cs) := match cs with
    | '-' :: rest => (true, rest)
    | cs => (false, cs)
  let (whole, cs) ← whole? cs
  let (fraction, cs) ← fraction? cs
  let (exponent, cs) ← exponent? cs
  return (⟨negative, whole, fraction, exponent⟩, cs)

def mark? (c : Char) : Option Token :=
  if c = '\x7b' then some openObject
  else if c = '\x7d' then some closeObject
  else if c = '[' then some openList
  else if c = ']' then some closeList
  else if c = ':' then some colon
  else if c = ',' then some comma
  else none

def words : List (List Char × Token) :=
  [("null".toList, .null), ("true".toList, .boolean true), ("false".toList, .boolean false)]

def word? (cs : List Char) : Option (Token × List Char) :=
  (words.find? fun word => word.1.isPrefixOf cs).map fun word =>
    (word.2, cs.drop word.1.length)

/-- The first token of a text without blanks at its front, and what is behind it. -/
def next? (cs : List Char) : Option (Token × List Char) :=
  match cs with
  | [] => none
  | c :: rest =>
    match mark? c with
    | some mark => some (mark, rest)
    | none =>
      if c = '"' then
        (pieces? (rest.length + 1) rest).map fun (pieces, rest) =>
          (.string ((chars? pieces).map String.ofList), rest)
      else if c = '-' ∨ c.isDigit then
        (numeral? cs).map fun (numeral, rest) => (.number numeral, rest)
      else word? cs

/-- The characters that may stand between tokens. -/
def isSpace (c : Char) : Bool := c == ' ' || c == '\t' || c == '\n' || c == '\r'

/-- The tokens of a text within so many steps; the last one tells when the text is no JSON. -/
def scan : Nat → List Char → List Token
  | 0, _ => []
  | steps + 1, cs =>
    match cs.dropWhile isSpace with
    | [] => []
    | cs =>
      match next? cs with
      | some (token, rest) => token :: scan steps rest
      | none => [.unreadable]

/-- The tokens of a text. Each takes at least one character. -/
def ofText (text : String) : List Token := scan (text.toList.length + 1) text.toList

end Token

end Conform
