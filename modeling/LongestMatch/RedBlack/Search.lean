import LongestMatch.RedBlack.Linked

/-!
# Searching and listing

The comparator is always asked about a stored value and the value looked for, in this order: `gt`
leads to the left child, `lt` to the right one, `eq` stops. Nothing here needs the comparator to be an
order.
-/

namespace LongestMatch

/-- Where a search ends: at the node that compares equal, or at the place below a node where no
child is. In the empty tree there is no node either. -/
inductive Spot where
  | taken (slot : Nat)
  | free (below : Option (Nat × Side))
  deriving DecidableEq, Repr

structure Trail (α : Type) where
  spot : Spot
  shown : List α
  deriving Repr

def sideTowards : Ordering → Option Side
  | .eq => none
  | .gt => some .left
  | .lt => some .right

namespace LinkedTree

variable {α : Type}

def searchFrom (t : LinkedTree α) (cmp : α → α → Ordering) (x : α) (bound : Nat)
    (place : Option (Nat × Side)) (link : Option Nat) : Except BrokenTree (Trail α) :=
  match bound, link with
  | 0, _ => .error .endless
  | _ + 1, none => return ⟨.free place, []⟩
  | bound + 1, some i => do
    let n ← t.slot i
    match sideTowards (cmp n.value x) with
    | none => return ⟨.taken i, [n.value]⟩
    | some side =>
      let rest ← t.searchFrom cmp x bound (some (i, side)) (n.child side)
      return { rest with shown := n.value :: rest.shown }

def search (t : LinkedTree α) (cmp : α → α → Ordering) (x : α) : Except BrokenTree (Trail α) :=
  t.searchFrom cmp x (t.size + 1) none t.root

def find? (t : LinkedTree α) (cmp : α → α → Ordering) (x : α) : Except BrokenTree (Option α) := do
  match (← t.search cmp x).spot with
  | .taken i => return some (← t.slot i).value
  | .free _ => return none

def leftmost (t : LinkedTree α) (bound : Nat) (i : Nat) : Except BrokenTree Nat :=
  match bound with
  | 0 => .error .endless
  | bound + 1 => do
    match (← t.slot i).left with
    | none => return i
    | some left => t.leftmost bound left

def descend (t : LinkedTree α) (bound : Nat) (link : Option Nat) (stack : List Nat) :
    Except BrokenTree (List Nat) :=
  match bound, link with
  | 0, _ => .error .endless
  | _ + 1, none => return stack
  | bound + 1, some i => do t.descend bound (← t.slot i).left (i :: stack)

def visit (t : LinkedTree α) (bound : Nat) (stack : List Nat) : Except BrokenTree (List Nat) :=
  match bound, stack with
  | 0, _ => .error .endless
  | _ + 1, [] => return []
  | bound + 1, i :: stack => do
    let stack ← t.descend (t.size + 1) (← t.slot i).right stack
    return i :: (← t.visit bound stack)

def order (t : LinkedTree α) : Except BrokenTree (List Nat) := do
  t.visit (t.size + 1) (← t.descend (t.size + 1) t.root [])

def toList (t : LinkedTree α) : Except BrokenTree (List α) := do
  (← t.order).mapM fun i => return (← t.slot i).value

def takeValues (values : Array (Option α)) : List Nat → Except BrokenTree (List α)
  | [] => return []
  | i :: slots =>
    match values[i]? with
    | none => .error (.noSlot i)
    | some value => return value.toList ++ (← takeValues (values.setIfInBounds i none) slots)

def drain (t : LinkedTree α) : Except BrokenTree (LinkedTree α × List α) := do
  return ({}, ← takeValues (t.slots.map (some ·.value)) (← t.order))

end LinkedTree

end LongestMatch
