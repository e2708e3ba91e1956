import LongestMatch.Json.Value
import LongestMatch.Text.Hex

namespace LongestMatch.Json

abbrev Reader (α : Type) := List Char → Option (α × List Char)

def isBlank (c : Char) : Bool := c = ' ' || c = '\n' || c = '\t' || c = '\r'

def skipBlanks (text : List Char) : List Char := text.dropWhile isBlank

def hexNumber? (digits : List Char) : Option Nat :=
  digits.foldlM (fun value c => (Text.hexValue? c).map (value * 16 + ·)) 0

inductive Piece where
  | char (c : Char)
  | unit (value : Nat)

def escaped? : Char → Option Char
  | '\x22' => some '\x22'
  | '\\' => some '\\'
  | '/' => some '/'
  | 'b' => some '\x08'
  | 'f' => some '\x0c'
  | 'n' => some '\n'
  | 'r' => some '\r'
  | 't' => some '\t'
  | _ => none

def pieces : Reader (List Piece)
  | [] => none
  | '\x22' :: rest => some ([], rest)
  | '\\' :: 'u' :: a :: b :: c :: d :: rest => do
    let value ← hexNumber? [a, b, c, d]
    let (more, rest) ← pieces rest
    return (.unit value :: more, rest)
  | '\\' :: e :: rest => do
    let c ← escaped? e
    let (more, rest) ← pieces rest
    return (.char c :: more, rest)
  | c :: rest =>
    if c.toNat < 0x20 then none
    else do
      let (more, rest) ← pieces rest
      return (.char c :: more, rest)

/-- The characters of a text. Two escaped units that form a surrogate pair are one character, and
half a pair is none. -/
def characters? : List Piece → Option (List Char)
  | [] => some []
  | .char c :: more => (characters? more).map (c :: ·)
  | .unit high :: more =>
    if high < 0xD800 ∨ 0xDFFF < high then (characters? more).map (Char.ofNat high :: ·)
    else match more with
      | .unit low :: more =>
        if high < 0xDC00 ∧ 0xDC00 ≤ low ∧ low ≤ 0xDFFF then
          (characters? more).map
            (Char.ofNat (0x10000 + (high - 0xD800) * 0x400 + (low - 0xDC00)) :: ·)
        else none
      | _ => none

def readText : Reader (Option String) := fun cs => do
  let (pieces, rest) ← pieces cs
  return ((characters? pieces).map String.ofList, rest)

def digits : Reader (List Char) := fun cs =>
  match cs.span Char.isDigit with
  | ([], _) => none
  | (found, rest) => some (found, rest)

def decimal (digits : List Char) : Nat :=
  digits.foldl (fun value c => value * 10 + (c.toNat - '0'.toNat)) 0

def readNatural : Reader Nat := fun cs => do
  let (found, rest) ← digits cs
  if found.head? = some '0' ∧ found.length ≠ 1 then none else some (decimal found, rest)

def fraction : Reader Bool
  | '.' :: rest => (digits rest).map fun (_, rest) => (true, rest)
  | rest => some (false, rest)

def exponent : Reader Bool
  | [] => some (false, [])
  | e :: rest =>
    if e = 'e' ∨ e = 'E' then
      let unsigned := match rest with
        | '+' :: rest => rest
        | '-' :: rest => rest
        | rest => rest
      (digits unsigned).map fun (_, rest) => (true, rest)
    else some (false, e :: rest)

def numeral : Reader Json := fun cs => do
  let (negative, cs) := match cs with
    | '-' :: rest => (true, rest)
    | cs => (false, cs)
  let (value, cs) ← readNatural cs
  let (fractional, cs) ← fraction cs
  let (scaled, cs) ← exponent cs
  return (if negative || fractional || scaled then .number else .natural value, cs)

def dropWord? : List Char → List Char → Option (List Char)
  | [], rest => some rest
  | w :: word, c :: rest => if w = c then dropWord? word rest else none
  | _ :: _, [] => none

mutual

def value (bound : Nat) : Reader Json := fun cs =>
  match bound with
  | 0 => none
  | bound + 1 =>
    match skipBlanks cs with
    | '\x22' :: rest => do
      let (found, rest) ← readText rest
      return (.string found, rest)
    | '[' :: rest =>
      match skipBlanks rest with
      | ']' :: rest => some (.array [], rest)
      | rest => do
        let (items, rest) ← items bound rest
        return (.array items, rest)
    | '\x7b' :: rest =>
      match skipBlanks rest with
      | '\x7d' :: rest => some (.object [], rest)
      | rest => do
        let (members, rest) ← members bound rest
        return (.object members, rest)
    | 'n' :: rest => (dropWord? ['u', 'l', 'l'] rest).map ((.null, ·))
    | 't' :: rest => (dropWord? ['r', 'u', 'e'] rest).map ((.bool true, ·))
    | 'f' :: rest => (dropWord? ['a', 'l', 's', 'e'] rest).map ((.bool false, ·))
    | rest => numeral rest

def items (bound : Nat) : Reader (List Json) := fun cs =>
  match bound with
  | 0 => none
  | bound + 1 => do
    let (item, rest) ← value bound cs
    match skipBlanks rest with
    | ']' :: rest => some ([item], rest)
    | ',' :: rest => do
      let (more, rest) ← items bound rest
      return (item :: more, rest)
    | _ => none

def members (bound : Nat) : Reader (List (Option String × Json)) := fun cs =>
  match bound with
  | 0 => none
  | bound + 1 =>
    match skipBlanks cs with
    | '\x22' :: rest => do
      let (key, rest) ← readText rest
      match skipBlanks rest with
      | ':' :: rest =>
        let (member, rest) ← value bound rest
        match skipBlanks rest with
        | '\x7d' :: rest => some ([(key, member)], rest)
        | ',' :: rest => do
          let (more, rest) ← members bound rest
          return ((key, member) :: more, rest)
        | _ => none
      | _ => none
    | _ => none

end

def parse? (text : List Char) : Option Json := do
  let (found, rest) ← value (2 * text.length + 2) text
  if (skipBlanks rest).isEmpty then some found else none

end LongestMatch.Json
