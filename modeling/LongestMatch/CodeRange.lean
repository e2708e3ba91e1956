namespace LongestMatch

/-- The last code point that an automaton can read, of 16 bits. -/
abbrev maxCode : Nat := 0xFFFF

/-- The code of the label that is passed without reading. -/
abbrev epsilonCode : Nat := 0x10000

/-- The code of the label that is never passed. -/
abbrev neverCode : Nat := 0x10001

/-- The code points from `first` to `last`. Bounds out of order or beyond the code space are excluded
by the type, so no edge has such a range, however it is made. -/
structure CodeRange where
  first : Nat
  last : Nat
  first_le_last : first ≤ last := by omega
  last_le : last ≤ maxCode := by omega
  deriving DecidableEq, Repr

namespace CodeRange

def full : CodeRange := { first := 0, last := maxCode }

def ofBounds? (first last : Nat) : Option CodeRange :=
  if ordered : first ≤ last ∧ last ≤ maxCode then some ⟨first, last, ordered.1, ordered.2⟩ else none

def contains (r : CodeRange) (code : Nat) : Bool := r.first ≤ code && code ≤ r.last

def meet? (r s : CodeRange) : Option CodeRange :=
  if common : max r.first s.first ≤ min r.last s.last then
    some ⟨max r.first s.first, min r.last s.last, common,
      Nat.le_trans (Nat.min_le_left ..) r.last_le⟩
  else none

def before? (r : CodeRange) (code : Nat) : Option CodeRange :=
  if inside : r.first < code then
    some ⟨r.first, min r.last (code - 1), by have := r.first_le_last; omega,
      Nat.le_trans (Nat.min_le_left ..) r.last_le⟩
  else none

def after? (r : CodeRange) (code : Nat) : Option CodeRange :=
  if inside : code < r.last then
    some ⟨max r.first (code + 1), r.last, by have := r.first_le_last; omega, r.last_le⟩
  else none

theorem meet?_eq_some {r s shared : CodeRange} (h : r.meet? s = some shared) :
    shared.first = max r.first s.first ∧ shared.last = min r.last s.last := by
  unfold meet? at h
  split at h
  · cases h; exact ⟨rfl, rfl⟩
  · cases h

theorem meet?_eq_none {r s : CodeRange} (h : r.meet? s = none) :
    r.last < s.first ∨ s.last < r.first := by
  unfold meet? at h
  split at h
  · cases h
  · have := r.first_le_last
    have := s.first_le_last
    omega

theorem before?_eq_some {r part : CodeRange} {code : Nat} (h : r.before? code = some part) :
    r.first < code ∧ part.first = r.first ∧ part.last = min r.last (code - 1) := by
  unfold before? at h
  split at h
  · cases h; exact ⟨‹_›, rfl, rfl⟩
  · cases h

theorem after?_eq_some {r part : CodeRange} {code : Nat} (h : r.after? code = some part) :
    code < r.last ∧ part.first = max r.first (code + 1) ∧ part.last = r.last := by
  unfold after? at h
  split at h
  · cases h; exact ⟨‹_›, rfl, rfl⟩
  · cases h

theorem before?_eq_none {r : CodeRange} {code : Nat} (h : r.before? code = none) :
    code ≤ r.first := by
  unfold before? at h
  split at h
  · cases h
  · omega

theorem after?_eq_none {r : CodeRange} {code : Nat} (h : r.after? code = none) :
    r.last ≤ code := by
  unfold after? at h
  split at h
  · cases h
  · omega

def complement (r : CodeRange) : List CodeRange :=
  (full.before? r.first).toList ++ (full.after? r.last).toList

/-- The code points in ranges of both lists, for disjoint ascending lists: of the two first ranges,
the one that ends first meets no other. -/
def meetAll : List CodeRange → List CodeRange → List CodeRange
  | [], _ | _, [] => []
  | r :: rs, s :: ss =>
    (r.meet? s).toList ++
      if r.last < s.last then meetAll rs (s :: ss) else meetAll (r :: rs) ss
termination_by rs ss => rs.length + ss.length

def outside (rs : List CodeRange) : List CodeRange :=
  rs.foldl (fun allowed r => meetAll allowed r.complement) [full]

end CodeRange

end LongestMatch
