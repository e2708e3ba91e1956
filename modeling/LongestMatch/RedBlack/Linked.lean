/-!
# Linked red-black trees

The nodes of a tree lie in the slots of an array and name each other by slot: every node its parent
and its children. An operation breaks off where a link leads nowhere or a node lacks a relative that
balance promises. No sequence of operations from the empty tree leads to such a tree, whatever the
comparator.
-/

namespace LongestMatch

inductive Color where
  | red
  | black
  deriving DecidableEq, Repr

inductive Side where
  | left
  | right
  deriving DecidableEq, Repr

def Side.other : Side → Side
  | left => right
  | right => left

structure Slot (α : Type) where
  value : α
  color : Color
  parent : Option Nat := none
  left : Option Nat := none
  right : Option Nat := none
  deriving Repr

namespace Slot

variable {α : Type}

def child (n : Slot α) : Side → Option Nat
  | .left => n.left
  | .right => n.right

def withChild (n : Slot α) (side : Side) (link : Option Nat) : Slot α :=
  match side with
  | .left => { n with left := link }
  | .right => { n with right := link }

/-- The side on which a node has a child; a node without this child counts as the right one. -/
def sideOf (n : Slot α) (slot : Nat) : Side := if n.left = some slot then .left else .right

end Slot

inductive BrokenTree where
  | noSlot (slot : Nat)
  | noChild (slot : Nat) (side : Side)
  | noSibling (slot : Nat)
  | endless
  deriving DecidableEq, Repr

structure LinkedTree (α : Type) where
  slots : Array (Slot α) := #[]
  root : Option Nat := none
  deriving Repr

namespace LinkedTree

variable {α : Type}

def size (t : LinkedTree α) : Nat := t.slots.size

def slot (t : LinkedTree α) (i : Nat) : Except BrokenTree (Slot α) :=
  match t.slots[i]? with
  | some n => .ok n
  | none => .error (.noSlot i)

def change (t : LinkedTree α) (i : Nat) (f : Slot α → Slot α) :
    Except BrokenTree (LinkedTree α) := do
  let _ ← t.slot i
  return { t with slots := t.slots.modify i f }

def paint (t : LinkedTree α) (i : Nat) (color : Color) : Except BrokenTree (LinkedTree α) :=
  t.change i ({ · with color })

def isRed (t : LinkedTree α) : Option Nat → Except BrokenTree Bool
  | none => return false
  | some i => return (← t.slot i).color == .red

def adopt (t : LinkedTree α) (child parent : Option Nat) : Except BrokenTree (LinkedTree α) :=
  match child with
  | none => return t
  | some i => t.change i ({ · with parent })

def relink (t : LinkedTree α) (parent : Option Nat) (i : Nat) (link : Option Nat) :
    Except BrokenTree (LinkedTree α) :=
  match parent with
  | none => return { t with root := link }
  | some p => do t.change p (·.withChild ((← t.slot p).sideOf i) link)

def replace (t : LinkedTree α) (i : Nat) (link : Option Nat) : Except BrokenTree (LinkedTree α) := do
  let parent := (← t.slot i).parent
  (← t.relink parent i link).adopt link parent

def rotate (t : LinkedTree α) (side : Side) (i : Nat) : Except BrokenTree (LinkedTree α) := do
  match (← t.slot i).child side.other with
  | none => throw (.noChild i side.other)
  | some pivot =>
    let inner := (← t.slot pivot).child side
    let t ← t.replace i (some pivot)
    let t ← t.change i (·.withChild side.other inner)
    let t ← t.adopt inner (some i)
    let t ← t.change pivot (·.withChild side (some i))
    t.adopt (some i) (some pivot)

end LinkedTree

end LongestMatch
