import LongestMatch.Text.Hex

namespace LongestMatch.Json

def escape (c : Char) : List Char :=
  if c = '\x22' ∨ c = '\\' then ['\\', c]
  else if c = '\x08' then ['\\', 'b']
  else if c = '\x0c' then ['\\', 'f']
  else if c = '\n' then ['\\', 'n']
  else if c = '\r' then ['\\', 'r']
  else if c = '\t' then ['\\', 't']
  else if c.toNat < 0x10 then ['\\', 'u', '0', '0', '0'] ++ Text.hexDigits c.toNat
  else if c.toNat < 0x20 then ['\\', 'u', '0', '0'] ++ Text.hexDigits c.toNat
  else [c]

def writeString (text : String) : List Char := '\x22' :: text.toList.flatMap escape ++ ['\x22']

def writeNatural (n : Nat) : List Char := Nat.toDigits 10 n

def separated : List (List Char) → List Char
  | [] => []
  | [text] => text
  | text :: more => text ++ ',' :: separated more

def writeArray (items : List (List Char)) : List Char := '[' :: separated items ++ [']']

def writeMember (key : String) (value : List Char) : List Char := writeString key ++ ':' :: value

def writeObject (members : List (String × List Char)) : List Char :=
  '\x7b' :: separated (members.map fun (key, value) => writeMember key value) ++ ['\x7d']

end LongestMatch.Json
