import LongestMatch.Build

namespace LongestMatch.Fragment

open Build Recorded

def fresh : Build Fragment := do
  let entry ← alloc
  let exit ← alloc
  return ⟨entry, exit⟩

def addArcs (f : Fragment) : List CodeRange → Build Unit
  | [] => pure ()
  | range :: ranges => do
    addEdge f.entry (.arc ⟨range, [f.exit]⟩)
    f.addArcs ranges

def addBounds (f : Fragment) : List (Nat × Nat) → Build Unit
  | [] => pure ()
  | (first, last) :: bounds => do
    addEdge f.entry (.arc ⟨← range first last, [f.exit]⟩)
    f.addBounds bounds

def literal (first last : Nat) : Build Fragment := do
  let f ← fresh
  f.addBounds [(first, last)]
  return f

def any : Build Fragment := do
  let f ← fresh
  f.addArcs [.full]
  return f

def ranges : List (Nat × Nat) → Build (List CodeRange)
  | [] => pure []
  | (first, last) :: bounds => do
    let r ← range first last
    return r :: (← ranges bounds)

def ofClass (bounds : List (Nat × Nat)) : Build Fragment := do
  if bounds.isEmpty then fail .emptyClass
  let f ← fresh
  f.addBounds bounds
  return f

def ofNegatedClass (bounds : List (Nat × Nat)) : Build Fragment := do
  if bounds.isEmpty then fail .emptyClass
  let excluded ← ranges bounds
  let f ← fresh
  f.addArcs (CodeRange.outside excluded)
  return f

def concatenate (f next : Fragment) : Build Fragment := do
  addEdge f.exit (.epsilon [next.entry])
  return { f with exit := next.exit }

def union (f other : Fragment) : Build Fragment := do
  let both ← fresh
  addEdge both.entry (.epsilon [f.entry, other.entry])
  addEdge f.exit (.epsilon [both.exit])
  addEdge other.exit (.epsilon [both.exit])
  return both

def star (f : Fragment) : Build Fragment := do
  let loop ← fresh
  addEdge loop.entry (.epsilon [f.entry, loop.exit])
  addEdge f.exit (.epsilon [f.entry, loop.exit])
  return loop

def accept (f : Fragment) (h : HandlerId) : Build Unit := addHandler f.exit h

end LongestMatch.Fragment
