import LongestMatch.Text.Glyphless
import LongestMatch.Text.Hex

namespace LongestMatch.Text

/-- One character inside quotes: the quote in use and the backslash get a backslash, some controls
have a letter, and what cannot be seen is written by its code point. -/
def escape (quote c : Char) : List Char :=
  if c = quote || c = '\\' then ['\\', c]
  else if c = '\n' then ['\\', 'n']
  else if c = '\r' then ['\\', 'r']
  else if c = '\t' then ['\\', 't']
  else if c.toNat = 0 then ['\\', '0']
  else if c.toNat < 0x20 || (c.toNat ≥ 0x7f && isGlyphless c) then
    ['\\', 'u', '\x7b'] ++ hexDigits c.toNat ++ ['\x7d']
  else [c]

def quoteWith (quote : Char) (text : List Char) : List Char :=
  quote :: text.flatMap (escape quote) ++ [quote]

def quoted (text : String) : String := .ofList (quoteWith '\x22' text.toList)

def quotedChar (c : Char) : String := .ofList (quoteWith '\x27' [c])

def bracketed (opening closing : String) (items : List String) : String :=
  opening ++ ", ".intercalate items ++ closing

def listText (items : List String) : String := bracketed "[" "]" items

def setText (items : List String) : String := bracketed "\x7b" "\x7d" items

def recordText (name : String) (fields : List (String × String)) : String :=
  name ++ bracketed " \x7b " " \x7d" (fields.map fun (field, value) => field ++ ": " ++ value)

end LongestMatch.Text
