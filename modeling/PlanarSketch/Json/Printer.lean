import PlanarSketch.Json.Number
import PlanarSketch.Json.Value

/-!
JSON values as text without spaces. Inside a string the quote, the backslash and the control
characters are escaped and nothing else is.
-/

namespace PlanarSketch.Json

def hexDigit (n : Nat) : Char := (Nat.digitChar n)

def escapeChar (c : Char) : List Char :=
  if c = '"' then ['\\', '"']
  else if c = '\\' then ['\\', '\\']
  else if c = '\n' then ['\\', 'n']
  else if c = '\r' then ['\\', 'r']
  else if c = '\t' then ['\\', 't']
  else if c.toNat = 8 then ['\\', 'b']
  else if c.toNat = 12 then ['\\', 'f']
  else if c.toNat < 32 then
    ['\\', 'u', '0', '0', hexDigit (c.toNat / 16), hexDigit (c.toNat % 16)]
  else [c]

def quoted (s : String) : String := String.ofList ('"' :: s.toList.flatMap escapeChar ++ ['"'])

mutual

def text : Json Float → String
  | null => "null"
  | bool b => if b then "true" else "false"
  | int n => toString n
  | real x => if x.isFinite then floatText x else "null"
  | str s => quoted s
  | arr xs => "[" ++ String.intercalate "," (elementTexts xs) ++ "]"
  | obj members => "\x7b" ++ String.intercalate "," (memberTexts members) ++ "\x7d"

def elementTexts : List (Json Float) → List String
  | [] => []
  | x :: xs => x.text :: elementTexts xs

def memberTexts : List (String × Json Float) → List String
  | [] => []
  | (name, x) :: members => (quoted name ++ ":" ++ x.text) :: memberTexts members

end

end PlanarSketch.Json
