import LongestMatch.RedBlack.Search

/-!
# Insertion

A new value enters as a red node where the search for it ended. While its parent is red as well, the
colours are repaired upwards: a red uncle turns black together with the parent, and the grandparent
red; with a black uncle a rotation ends the repair. A value that is already there under the comparator
is replaced in place.
-/

namespace LongestMatch.LinkedTree

variable {α : Type}

def blackenRoot (t : LinkedTree α) : Except BrokenTree (LinkedTree α) :=
  match t.root with
  | none => return t
  | some root => t.paint root .black

def recolor (t : LinkedTree α) (grandparent parent : Nat) (uncle : Option Nat) :
    Except BrokenTree (LinkedTree α) := do
  let t ← t.paint parent .black
  let t ← uncle.elim (pure t) (t.paint · .black)
  t.paint grandparent .red

def straighten (t : LinkedTree α) (side : Side) (grandparent parent i : Nat) :
    Except BrokenTree (LinkedTree α) := do
  let bent := (← t.slot parent).child side.other = some i
  let t ← if bent then t.rotate side parent else pure t
  let t ← t.paint (if bent then i else parent) .black
  let t ← t.paint grandparent .red
  t.rotate side.other grandparent

def repairRed (t : LinkedTree α) (bound : Nat) (i : Nat) : Except BrokenTree (LinkedTree α) :=
  match bound with
  | 0 => .error .endless
  | bound + 1 => do
    match (← t.slot i).parent with
    | none => t.blackenRoot
    | some parent =>
      let p ← t.slot parent
      if p.color = .black then t.blackenRoot
      else
        match p.parent with
        | none => t.blackenRoot
        | some grandparent =>
          let g ← t.slot grandparent
          let side := g.sideOf parent
          let uncle := g.child side.other
          if ← t.isRed uncle then
            (← t.recolor grandparent parent uncle).repairRed bound grandparent
          else
            (← t.straighten side grandparent parent i).blackenRoot

def attach (t : LinkedTree α) (x : α) : Option (Nat × Side) → Except BrokenTree (LinkedTree α)
  | none => return { slots := t.slots.push { value := x, color := .black }, root := some 0 }
  | some (parent, side) => do
    let i := t.size
    let t := { t with slots := t.slots.push { value := x, color := .red, parent := some parent } }
    let t ← t.change parent (·.withChild side (some i))
    t.repairRed t.size i

def insert (t : LinkedTree α) (cmp : α → α → Ordering) (x : α) :
    Except BrokenTree (LinkedTree α × Option α) := do
  match (← t.search cmp x).spot with
  | .taken i =>
    let n ← t.slot i
    return (← t.change i ({ · with value := x }), some n.value)
  | .free place => return (← t.attach x place, none)

end LongestMatch.LinkedTree
