/-!
# JSON values

What a JSON text says, as far as a reader of records of natural numbers and texts has to know it.
Members keep their order and repeated keys stay. The value of a number that is not written as a
natural number is not kept, nor is a text in which half a surrogate pair is escaped.
-/

namespace LongestMatch

inductive Json where
  | null
  | bool (value : Bool)
  | natural (value : Nat)
  | number
  /-- A text; `none` if it has an escape that is no character. -/
  | string (value : Option String)
  | array (items : List Json)
  | object (members : List (Option String × Json))

namespace Json

/-- The values of the fields of a record, in the order of `fields`. A record is an object that has
each of the fields once, whatever else it has, or the array of just the values. -/
def record? (fields : List String) : Json → Option (List Json)
  | array items => if items.length = fields.length then some items else none
  | object members =>
    if members.all (·.1.isSome) then
      fields.mapM fun field =>
        match members.filter (·.1 = some field) with
        | [member] => some member.2
        | _ => none
    else none
  | _ => none

def below? (bound : Nat) : Json → Option Nat
  | natural n => if n < bound then some n else none
  | _ => none

def string? : Json → Option String
  | string value => value
  | _ => none

def array? {α : Type} (item : Json → Option α) : Json → Option (List α)
  | array items => items.mapM item
  | _ => none

end Json

end LongestMatch
