import LongestMatch.RedBlack.Insert
import LongestMatch.RedBlack.Remove

/-!
# Ordered sets under a given comparator

The comparator decides what equal means, and it need not be an order: under a comparator that calls
overlapping intervals equal, a search for an interval finds one that overlaps it.

No operation on a set that has been built from the empty one breaks off. On a tree with broken links,
which is not such a set, an operation changes nothing and finds nothing.
-/

namespace LongestMatch

structure OrderedSet (α : Type) (cmp : α → α → Ordering) where
  tree : LinkedTree α := {}

namespace OrderedSet

variable {α : Type} {cmp : α → α → Ordering}

def empty : OrderedSet α cmp := {}

instance : EmptyCollection (OrderedSet α cmp) := ⟨empty⟩

def size (s : OrderedSet α cmp) : Nat := s.tree.size

def isEmpty (s : OrderedSet α cmp) : Bool := s.tree.slots.isEmpty

def toList (s : OrderedSet α cmp) : List α := s.tree.toList.toOption.getD []

def find? (s : OrderedSet α cmp) (x : α) : Option α := (s.tree.find? cmp x).toOption.join

def contains (s : OrderedSet α cmp) (x : α) : Bool := (s.find? x).isSome

def path (s : OrderedSet α cmp) (x : α) : List α :=
  ((s.tree.search cmp x).map Trail.shown).toOption.getD []

def depths (s : OrderedSet α cmp) : List Nat := s.toList.map fun x => (s.path x).length

def update {β : Type} (s : OrderedSet α cmp) (otherwise : β)
    (result : Except BrokenTree (LinkedTree α × β)) : OrderedSet α cmp × β :=
  match result with
  | .ok (tree, answer) => (⟨tree⟩, answer)
  | .error _ => (s, otherwise)

/-- Adds `x`; an element that compares equal to it gives way and is returned. -/
def insert (s : OrderedSet α cmp) (x : α) : OrderedSet α cmp × Option α :=
  s.update none (s.tree.insert cmp x)

def remove (s : OrderedSet α cmp) (x : α) : OrderedSet α cmp × Option α :=
  s.update none (s.tree.remove cmp x)

def insertAll (s : OrderedSet α cmp) : List α → OrderedSet α cmp × List (Option α)
  | [] => (s, [])
  | x :: xs =>
    let (s, replaced) := s.insert x
    let (s, later) := s.insertAll xs
    (s, replaced :: later)

def removeAll (s : OrderedSet α cmp) : List α → OrderedSet α cmp × List (Option α)
  | [] => (s, [])
  | x :: xs =>
    let (s, removed) := s.remove x
    let (s, later) := s.removeAll xs
    (s, removed :: later)

def drain (s : OrderedSet α cmp) : OrderedSet α cmp × List α := s.update [] s.tree.drain

end OrderedSet

end LongestMatch
