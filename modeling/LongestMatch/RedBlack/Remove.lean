import LongestMatch.RedBlack.Search

/-!
# Removal

A value with two children changes places with its successor, so that what is unlinked has at most one
child. Unlinking a black node without children would leave its side one black node short. This is
made up for before: from the sibling, or, when the sibling has nothing to give, by going on with the
parent. At last the node in the last slot moves to the slot that has become empty.
-/

namespace LongestMatch.LinkedTree

variable {α : Type}

def turnRed (t : LinkedTree α) (side : Side) (parent sibling : Nat) :
    Except BrokenTree (LinkedTree α) := do
  let t ← t.paint sibling .black
  let t ← t.paint parent .red
  t.rotate side parent

def turnNear (t : LinkedTree α) (side : Side) (sibling : Nat) (near : Option Nat) :
    Except BrokenTree (LinkedTree α) := do
  let t ← near.elim (pure t) (t.paint · .black)
  let t ← t.paint sibling .red
  t.rotate side.other sibling

def turnFar (t : LinkedTree α) (side : Side) (parent sibling : Nat) (color : Color)
    (far : Option Nat) : Except BrokenTree (LinkedTree α) := do
  let t ← t.paint sibling color
  let t ← t.paint parent .black
  let t ← far.elim (pure t) (t.paint · .black)
  t.rotate side parent

def repairShort (t : LinkedTree α) (bound : Nat) (i : Nat) : Except BrokenTree (LinkedTree α) :=
  match bound with
  | 0 => .error .endless
  | bound + 1 => do
    match (← t.slot i).parent with
    | none => return t
    | some parent =>
      let p ← t.slot parent
      let side := p.sideOf i
      match p.child side.other with
      | none => throw (.noSibling i)
      | some sibling =>
        let s ← t.slot sibling
        if s.color = .red then
          (← t.turnRed side parent sibling).repairShort bound i
        else
          let near := s.child side
          let far := s.child side.other
          match ← t.isRed near, ← t.isRed far with
          | false, false =>
            let t ← t.paint sibling .red
            if p.color = .red then t.paint parent .black else t.repairShort bound parent
          | true, false => (← t.turnNear side sibling near).repairShort bound i
          | _, true => t.turnFar side parent sibling p.color far

def unlink (t : LinkedTree α) (i : Nat) : Except BrokenTree (LinkedTree α) := do
  let n ← t.slot i
  match n.left <|> n.right with
  | some child => (← t.paint child .black).replace i (some child)
  | none =>
    let t ← if n.color = .black then t.repairShort (t.size + 3) i else pure t
    t.replace i none

def redirect (t : LinkedTree α) (last i : Nat) : Except BrokenTree (LinkedTree α) := do
  let moved ← t.slot last
  let t ← t.relink moved.parent last (some i)
  let t ← t.adopt moved.left (some i)
  t.adopt moved.right (some i)

def release (t : LinkedTree α) (i : Nat) : Except BrokenTree (LinkedTree α × α) := do
  let value := (← t.slot i).value
  let last := t.size - 1
  let t ← if i = last then pure t else t.redirect last i
  let moved ← t.slot last
  return ({ t with slots := (t.slots.setIfInBounds i moved).pop }, value)

def exchange (t : LinkedTree α) (i j : Nat) : Except BrokenTree (LinkedTree α) := do
  let x := (← t.slot i).value
  let y := (← t.slot j).value
  (← t.change i ({ · with value := y })).change j ({ · with value := x })

def isolate (t : LinkedTree α) (i : Nat) : Except BrokenTree (LinkedTree α × Nat) := do
  let n ← t.slot i
  match n.left, n.right with
  | some _, some right =>
    let successor ← t.leftmost (t.size + 1) right
    return (← t.exchange i successor, successor)
  | _, _ => return (t, i)

def remove (t : LinkedTree α) (cmp : α → α → Ordering) (x : α) :
    Except BrokenTree (LinkedTree α × Option α) := do
  match (← t.search cmp x).spot with
  | .free _ => return (t, none)
  | .taken found =>
    let (t, i) ← t.isolate found
    let (t, value) ← (← t.unlink i).release i
    return (t, some value)

end LongestMatch.LinkedTree
