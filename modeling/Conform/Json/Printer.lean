import Conform.Decimal.Layout
import Conform.Hex
import Conform.Json.Doc
/-!
# Printing documents

A document as text without any blanks. Quotes, backslashes and the control
characters below the blank are escaped, the common ones by a letter.
-/

namespace Conform.Doc

def escaped (c : Char) : List Char :=
  if c = '"' then ['\\', '"']
  else if c = '\\' then ['\\', '\\']
  else if c.toNat = 0x8 then ['\\', 'b']
  else if c.toNat = 0xc then ['\\', 'f']
  else if c = '\n' then ['\\', 'n']
  else if c = '\r' then ['\\', 'r']
  else if c = '\t' then ['\\', 't']
  else if c.toNat < 0x20 then
    ['\\', 'u', '0', '0', Hex.digit (c.toNat / 16), Hex.digit (c.toNat % 16)]
  else [c]

def quoted (s : String) : String :=
  String.ofList ('"' :: (s.toList.flatMap escaped ++ ['"']))

mutual
def text : Doc → String
  | null => "null"
  | boolean b => if b then "true" else "false"
  | integer n => toString n
  | float x => Decimal.Layout.compact.write x
  | string s => quoted s
  | list items => "[" ++ ",".intercalate (itemTexts items) ++ "]"
  | object fields => "\x7b" ++ ",".intercalate (fieldTexts fields) ++ "\x7d"
def itemTexts : List Doc → List String
  | [] => []
  | item :: rest => item.text :: itemTexts rest
def fieldTexts : List (String × Doc) → List String
  | [] => []
  | (key, doc) :: rest => (quoted key ++ ":" ++ doc.text) :: fieldTexts rest
end

end Conform.Doc
