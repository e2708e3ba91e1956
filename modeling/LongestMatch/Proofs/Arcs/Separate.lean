import LongestMatch.Proofs.Arcs.Partition
import LongestMatch.Proofs.RedBlack.Intervals

namespace LongestMatch

namespace Arc

inductive Front (a b : Arc) : List Arc → Prop
  | even : a.range.first = b.range.first → Front a b []
  | left {p : Arc} : p.range.first = a.range.first → p.range.last + 1 = b.range.first →
      p.targets = a.targets → Front a b [p]
  | right {p : Arc} : p.range.first = b.range.first → p.range.last + 1 = a.range.first →
      p.targets = b.targets → Front a b [p]

inductive Back (a b : Arc) : List Arc → Prop
  | even : a.range.last = b.range.last → Back a b []
  | left {p : Arc} : p.range.first = b.range.last + 1 → p.range.last = a.range.last →
      p.targets = a.targets → Back a b [p]
  | right {p : Arc} : p.range.first = a.range.last + 1 → p.range.last = b.range.last →
      p.targets = b.targets → Back a b [p]

variable {a b : Arc} {shared : CodeRange} {pieces : List Arc}

theorem front_before? (meet : a.range.meet? b.range = some shared) :
    Front a b ((a.before? shared.first).toList ++ (b.before? shared.first).toList) := by
  have ⟨first, last⟩ := CodeRange.meet?_eq_some meet
  have ordered := shared.first_le_last
  cases left : a.before? shared.first with
  | none =>
      have := CodeRange.before?_eq_none (Option.map_eq_none_iff.1 left)
      cases right : b.before? shared.first with
      | none =>
          have := CodeRange.before?_eq_none (Option.map_eq_none_iff.1 right)
          exact .even (by omega)
      | some p =>
          obtain ⟨inside, first', last', targets⟩ := before?_eq_some right
          exact .right first' (by omega) targets
  | some p =>
      obtain ⟨inside, first', last', targets⟩ := before?_eq_some left
      cases right : b.before? shared.first with
      | none =>
          have := CodeRange.before?_eq_none (Option.map_eq_none_iff.1 right)
          exact .left first' (by omega) targets
      -- Not both of the arcs begin before what they share.
      | some q =>
          obtain ⟨inside', _⟩ := before?_eq_some right
          omega

theorem back_after? (meet : a.range.meet? b.range = some shared) :
    Back a b ((a.after? shared.last).toList ++ (b.after? shared.last).toList) := by
  have ⟨first, last⟩ := CodeRange.meet?_eq_some meet
  have ordered := shared.first_le_last
  cases left : a.after? shared.last with
  | none =>
      have := CodeRange.after?_eq_none (Option.map_eq_none_iff.1 left)
      cases right : b.after? shared.last with
      | none =>
          have := CodeRange.after?_eq_none (Option.map_eq_none_iff.1 right)
          exact .even (by omega)
      | some p =>
          obtain ⟨inside, first', last', targets⟩ := after?_eq_some right
          exact .right (by omega) last' targets
  | some p =>
      obtain ⟨inside, first', last', targets⟩ := after?_eq_some left
      cases right : b.after? shared.last with
      | none =>
          have := CodeRange.after?_eq_none (Option.map_eq_none_iff.1 right)
          exact .left (by omega) last' targets
      | some q =>
          obtain ⟨inside', _⟩ := after?_eq_some right
          omega

theorem Front.shape (front : Front a b pieces) : pieces = [] ∨
    ∃ p, pieces = [p] ∧ p.range.last + 1 = max a.range.first b.range.first := by
  cases front with
  | even => exact .inl rfl
  | @left p first last _ | @right p first last _ =>
      have := p.range.first_le_last
      exact .inr ⟨p, rfl, by omega⟩

theorem Back.shape (back : Back a b pieces) : pieces = [] ∨
    ∃ p, pieces = [p] ∧ p.range.first = min a.range.last b.range.last + 1 := by
  cases back with
  | even => exact .inl rfl
  | @left p first last _ | @right p first last _ =>
      have := p.range.first_le_last
      exact .inr ⟨p, rfl, by omega⟩

theorem separate_cases (a b : Arc) :
    (a.range.last < b.range.first ∨ b.range.last < a.range.first) ∧ a.separate b = [a, b] ∨
      ∃ front shared back, a.separate b =
          front ++ ⟨shared, NodeId.unite a.targets b.targets⟩ :: back ∧
        shared.first = max a.range.first b.range.first ∧
        shared.last = min a.range.last b.range.last ∧ Front a b front ∧ Back a b back := by
  rw [separate]
  cases meet : a.range.meet? b.range with
  | none => exact .inl ⟨CodeRange.meet?_eq_none meet, rfl⟩
  | some shared =>
      obtain ⟨first, last⟩ := CodeRange.meet?_eq_some meet
      refine .inr ⟨_, shared, _, ?_, first, last, front_before? meet, back_after? meet⟩
      simp [joint]

end Arc

namespace Edge

/-- A piece of two edges has codes of one of them alone and leads where that one does, or it has codes
of both and leads to the targets of the first, then to those of the second that are not among them,
once each. -/
inductive Stems (a b p : Edge) : Prop
  | left : (∀ code, p.contains code → a.contains code ∧ ¬ b.contains code) →
      p.targets = a.targets → Stems a b p
  | right : (∀ code, p.contains code → b.contains code ∧ ¬ a.contains code) →
      p.targets = b.targets → Stems a b p
  | both : (∀ code, p.contains code → a.contains code ∧ b.contains code) →
      p.targets = a.targets ++ (b.targets.removeAll a.targets).eraseDups → Stems a b p

structure Splits (a b : Edge) (pieces : List Edge) : Prop where
  some : pieces ≠ []
  few : pieces.length ≤ 3
  ordered : ∀ p ∈ pieces, p.first ≤ p.last
  adjacent : pieces.IsChain fun p q => q.first = p.last + 1
  covers : ∀ code, (∃ p ∈ pieces, p.contains code) ↔ a.contains code ∨ b.contains code
  stems : ∀ p ∈ pieces, Stems a b p

structure Slice where
  first : Nat
  last : Nat
  targets : List NodeId
  deriving DecidableEq, Repr

def slice (e : Edge) : Slice := ⟨e.first, e.last, e.targets⟩

def codeBefore? (code : Nat) : Option Nat := if 0 < code then some (code - 1) else none

def codeAfter? (code : Nat) : Option Nat := if code < maxCode then some (code + 1) else none

theorem codeBefore?_succ (code : Nat) : codeBefore? (code + 1) = some code :=
  if_pos (Nat.succ_pos code)

theorem codeAfter?_of_lt {code : Nat} (inside : code < maxCode) : codeAfter? code = some (code + 1) :=
  if_pos inside

def front? (a b : Edge) : Option (List Slice) :=
  if a.first < b.first then (codeBefore? b.first).map fun last => [⟨a.first, last, a.targets⟩]
  else if b.first < a.first then (codeBefore? a.first).map fun last => [⟨b.first, last, b.targets⟩]
  else some []

def back? (a b : Edge) : Option (List Slice) :=
  if b.last < a.last then (codeAfter? b.last).map fun first => [⟨first, a.last, a.targets⟩]
  else if a.last < b.last then (codeAfter? a.last).map fun first => [⟨first, b.last, b.targets⟩]
  else some []

/-- The pieces of two edges, computed from the bounds of the labels alone. There are none if a bound
would lie outside the code space. -/
def slices? (a b : Edge) : Option (List Slice) :=
  if a.compare b = .eq then do
    let front ← a.front? b
    let back ← a.back? b
    return front ++ ⟨max a.first b.first, min a.last b.last, NodeId.unite a.targets b.targets⟩ :: back
  else some [a.slice, b.slice]

section

variable {a b : Arc} {pieces : List Arc}
  (lower : a.range.first ≤ b.range.last) (upper : b.range.first ≤ a.range.last)

theorem front?_eq (front : Arc.Front a b pieces) :
    (arc a).front? (arc b) = some ((pieces.map arc).map slice) := by
  unfold front?
  cases front with
  | even same =>
      have same : (arc a).first = (arc b).first := same
      rw [same, if_neg (Nat.lt_irrefl _), if_neg (Nat.lt_irrefl _)]
      rfl
  | @left p first last targets =>
      have last : (arc b).first = p.range.last + 1 := last.symm
      have before : (arc a).first < (arc b).first := by
        have := p.range.first_le_last
        rw [last, Edge.first]
        omega
      rw [if_pos before, last, codeBefore?_succ]
      simp only [Option.map_some, List.map_singleton, slice, Edge.first, Edge.last, Edge.targets, first,
        targets]
  | @right p first last targets =>
      have last : (arc a).first = p.range.last + 1 := last.symm
      have before : (arc b).first < (arc a).first := by
        have := p.range.first_le_last
        rw [last, Edge.first]
        omega
      rw [if_neg (Nat.lt_asymm before), if_pos before, last, codeBefore?_succ]
      simp only [Option.map_some, List.map_singleton, slice, Edge.first, Edge.last, Edge.targets, first,
        targets]

theorem back?_eq (back : Arc.Back a b pieces) :
    (arc a).back? (arc b) = some ((pieces.map arc).map slice) := by
  unfold back?
  cases back with
  | even same =>
      have same : (arc a).last = (arc b).last := same
      rw [same, if_neg (Nat.lt_irrefl _), if_neg (Nat.lt_irrefl _)]
      rfl
  | @left p first last targets =>
      have behind : (arc b).last < (arc a).last := by
        have := p.range.first_le_last
        rw [Edge.last, Edge.last]
        omega
      rw [if_pos behind, codeAfter?_of_lt (Nat.lt_of_lt_of_le behind a.range.last_le)]
      simp only [Option.map_some, List.map_singleton, slice, Edge.first, Edge.last, Edge.targets, first,
        last, targets]
  | @right p first last targets =>
      have behind : (arc a).last < (arc b).last := by
        have := p.range.first_le_last
        rw [Edge.last, Edge.last]
        omega
      rw [if_neg (Nat.lt_asymm behind), if_pos behind,
        codeAfter?_of_lt (Nat.lt_of_lt_of_le behind b.range.last_le)]
      simp only [Option.map_some, List.map_singleton, slice, Edge.first, Edge.last, Edge.targets, first,
        last, targets]

theorem stems_left {p : Arc} (lower : a.range.first ≤ p.range.first) (upper : p.range.last ≤ a.range.last)
    (apart : p.range.last < b.range.first ∨ b.range.last < p.range.first)
    (targets : p.targets = a.targets) : Stems (arc a) (arc b) (arc p) := by
  refine .left (fun code inside => ?_) targets
  simp only [contains_arc, CodeRange.contains_iff] at inside ⊢
  omega

theorem stems_right {p : Arc} (lower : b.range.first ≤ p.range.first) (upper : p.range.last ≤ b.range.last)
    (apart : p.range.last < a.range.first ∨ a.range.last < p.range.first)
    (targets : p.targets = b.targets) : Stems (arc a) (arc b) (arc p) := by
  refine .right (fun code inside => ?_) targets
  simp only [contains_arc, CodeRange.contains_iff] at inside ⊢
  omega

include lower upper

theorem stems_front (front : Arc.Front a b pieces) :
    ∀ p ∈ pieces, Stems (arc a) (arc b) (arc p) := by
  intro p member
  cases front with
  | even _ => cases member
  | left first last targets =>
      rw [List.mem_singleton.1 member]
      exact stems_left (by omega) (by omega) (by omega) targets
  | right first last targets =>
      rw [List.mem_singleton.1 member]
      exact stems_right (by omega) (by omega) (by omega) targets

theorem stems_back (back : Arc.Back a b pieces) :
    ∀ p ∈ pieces, Stems (arc a) (arc b) (arc p) := by
  intro p member
  cases back with
  | even _ => cases member
  | left first last targets =>
      rw [List.mem_singleton.1 member]
      exact stems_left (by omega) (by omega) (by omega) targets
  | right first last targets =>
      rw [List.mem_singleton.1 member]
      exact stems_right (by omega) (by omega) (by omega) targets

theorem covers_front (front : Arc.Front a b pieces) (code : Nat) :
    (∃ p ∈ pieces, p.range.contains code) ↔ (a.range.contains code ∨ b.range.contains code) ∧
      code < max a.range.first b.range.first := by
  cases front with
  | even same =>
      simp only [List.not_mem_nil, false_and, exists_false, CodeRange.contains_iff, false_iff]
      omega
  | @left p first last _ | @right p first last _ =>
      have := p.range.first_le_last
      simp only [List.mem_singleton, exists_eq_left, CodeRange.contains_iff]
      omega

theorem covers_back (back : Arc.Back a b pieces) (code : Nat) :
    (∃ p ∈ pieces, p.range.contains code) ↔ (a.range.contains code ∨ b.range.contains code) ∧
      min a.range.last b.range.last < code := by
  cases back with
  | even same =>
      simp only [List.not_mem_nil, false_and, exists_false, CodeRange.contains_iff, false_iff]
      omega
  | @left p first last _ | @right p first last _ =>
      have := p.range.first_le_last
      simp only [List.mem_singleton, exists_eq_left, CodeRange.contains_iff]
      omega

end

theorem splits_arc {a b : Arc} (lower : a.range.first ≤ b.range.last)
    (upper : b.range.first ≤ a.range.last) :
    Splits (arc a) (arc b) ((a.separate b).map arc) := by
  rcases Arc.separate_cases a b with
    ⟨apart, _⟩ | ⟨front, shared, back, parts, first, last, before, behind⟩
  · omega
  rw [parts]
  refine ⟨by simp, ?_, ?_, ?_, ?_, ?_⟩
  · rcases before.shape with rfl | ⟨p, rfl, _⟩ <;>
      rcases behind.shape with rfl | ⟨q, rfl, _⟩ <;> simp
  · intro p _
    exact extent_wellFormed p
  · rcases before.shape with rfl | ⟨p, rfl, meets⟩ <;>
      rcases behind.shape with rfl | ⟨q, rfl, meets'⟩ <;>
        simp [Edge.first, Edge.last, *]
  · intro code
    have here := covers_front lower upper before code
    have there := covers_back lower upper behind code
    have ordered := a.range.first_le_last
    have ordered' := b.range.first_le_last
    have parts : (∃ p ∈ (front ++ ⟨shared, NodeId.unite a.targets b.targets⟩ :: back).map arc,
        p.contains code) ↔ (∃ p ∈ front, p.range.contains code) ∨ shared.contains code ∨
          ∃ p ∈ back, p.range.contains code := by
      simp [or_and_right, exists_or]
    rw [parts, here, there]
    simp only [contains_arc, CodeRange.contains_iff, first, last]
    omega
  · intro p member
    obtain ⟨p, piece, rfl⟩ := List.mem_map.1 member
    rcases List.mem_append.1 piece with early | piece
    · exact stems_front lower upper before p early
    rcases List.mem_cons.1 piece with rfl | late
    · refine .both (fun code inside => ?_) (NodeId.unite_eq_append ..)
      simp only [contains_arc, CodeRange.contains_iff] at inside ⊢
      omega
    · exact stems_back lower upper behind p late

variable {a b : Edge}

theorem compare_eq_eq_iff : a.compare b = .eq ↔ ∃ code, a.contains code ∧ b.contains code := by
  rw [compare_eq_extent, Extent.compare_eq_eq]
  simp only [contains_iff]
  constructor
  · rintro ⟨lower, upper⟩
    exact ⟨max a.first b.first, ⟨le_max_left .., max_le (extent_wellFormed a) upper⟩,
      le_max_right .., max_le lower (extent_wellFormed b)⟩
  · rintro ⟨code, inside, inside'⟩
    exact ⟨inside.1.trans inside'.2, inside'.1.trans inside.2⟩

theorem overlap_cases (overlap : ∃ code, a.contains code ∧ b.contains code) :
    (∃ x y, a = arc x ∧ b = arc y ∧ x.range.first ≤ y.range.last ∧ y.range.first ≤ x.range.last) ∨
      (∃ targets more, a = epsilon targets ∧ b = epsilon more) ∨ a = never ∧ b = never := by
  obtain ⟨code, inside, inside'⟩ := overlap
  cases a with
  | arc x =>
      have le := Arc.le_of_contains inside
      cases b with
      | arc y =>
          have here := contains_iff.1 inside
          have there := contains_iff.1 inside'
          exact .inl ⟨x, y, rfl, rfl, here.1.trans there.2, there.1.trans here.2⟩
      | epsilon more =>
          rw [contains_epsilon.1 inside'] at le
          exact absurd le (by decide)
      | never =>
          rw [contains_never.1 inside'] at le
          exact absurd le (by decide)
  | epsilon targets =>
      obtain rfl := contains_epsilon.1 inside
      cases b with
      | arc y => exact absurd (Arc.le_of_contains inside') (by decide)
      | epsilon more => exact .inr (.inl ⟨targets, more, rfl, rfl⟩)
      | never => exact absurd (contains_never.1 inside') (by decide)
  | never =>
      obtain rfl := contains_never.1 inside
      cases b with
      | arc y => exact absurd (Arc.le_of_contains inside') (by decide)
      | epsilon more => exact absurd (contains_epsilon.1 inside') (by decide)
      | never => exact .inr (.inr ⟨rfl, rfl⟩)

theorem splits_single (e : Edge) (first : ∀ code, e.contains code = a.contains code)
    (second : ∀ code, e.contains code = b.contains code)
    (targets : e.targets = NodeId.unite a.targets b.targets) : a.Splits b [e] where
  some := List.cons_ne_nil e []
  few := by simp
  ordered p _ := extent_wellFormed p
  adjacent := .singleton e
  covers code := by simp [← first, ← second]
  stems p member := by
    rw [List.mem_singleton.1 member]
    exact .both (fun code inside => ⟨first code ▸ inside, second code ▸ inside⟩)
      (targets.trans (NodeId.unite_eq_append ..))

theorem splits_separate (overlap : ∃ code, a.contains code ∧ b.contains code) :
    a.Splits b (a.separate b) := by
  rcases overlap_cases overlap with
    ⟨x, y, rfl, rfl, lower, upper⟩ | ⟨targets, more, rfl, rfl⟩ | ⟨rfl, rfl⟩
  · exact splits_arc lower upper
  · exact splits_single _ (fun _ => rfl) (fun _ => rfl) rfl
  · exact splits_single _ (fun _ => rfl) (fun _ => rfl) rfl

theorem separate_of_apart (apart : ¬ ∃ code, a.contains code ∧ b.contains code) :
    a.separate b = [a, b] := by
  cases a with
  | arc x =>
      cases b with
      | arc y =>
          rcases Arc.separate_cases x y with ⟨_, parts⟩ | ⟨_, shared, _, _, first, last, _⟩
          · rw [separate, parts]
            rfl
          · have := shared.first_le_last
            refine (apart ⟨shared.first, ?_⟩).elim
            simp only [contains_arc, CodeRange.contains_iff]
            omega
      | epsilon | never => rfl
  | epsilon targets =>
      cases b with
      | epsilon more => exact (apart ⟨epsilonCode, rfl, rfl⟩).elim
      | arc | never => rfl
  | never =>
      cases b with
      | never => exact (apart ⟨neverCode, rfl, rfl⟩).elim
      | arc | epsilon => rfl

theorem slices?_eq (a b : Edge) : a.slices? b = some ((a.separate b).map slice) := by
  rw [slices?]
  by_cases overlap : a.compare b = .eq
  · rw [if_pos overlap]
    rcases overlap_cases (compare_eq_eq_iff.1 overlap) with
      ⟨x, y, rfl, rfl, lower, upper⟩ | ⟨targets, more, rfl, rfl⟩ | ⟨rfl, rfl⟩
    · rcases Arc.separate_cases x y with
        ⟨apart, _⟩ | ⟨front, shared, back, parts, first, last, before, behind⟩
      · omega
      have middle : slice (arc ⟨shared, NodeId.unite x.targets y.targets⟩) =
          ⟨max (arc x).first (arc y).first, min (arc x).last (arc y).last,
            NodeId.unite (arc x).targets (arc y).targets⟩ := by
        rw [slice, Edge.first, Edge.last, first, last]
        rfl
      rw [front?_eq before, back?_eq behind, separate, parts, List.map_append, List.map_append,
        List.map_cons, List.map_cons, middle]
      rfl
    · rfl
    · rfl
  · rw [if_neg overlap, separate_of_apart (mt compare_eq_eq_iff.2 overlap)]
    rfl

/-- Two edges whose labels have a code in common split into adjacent pieces that together read what
the two read and lead where these lead; other edges stay what they are. The bounds of the pieces are
computed inside the code space. -/
theorem separate_splits (a b : Edge) :
    ((∃ code, a.contains code ∧ b.contains code) → a.Splits b (a.separate b)) ∧
      ((¬ ∃ code, a.contains code ∧ b.contains code) → a.separate b = [a, b]) ∧
        a.slices? b = some ((a.separate b).map slice) :=
  ⟨splits_separate, separate_of_apart, slices?_eq a b⟩

def outer : Edge := .arc ⟨⟨410, 460, by decide, by decide⟩, [7, 3]⟩

def inner : Edge := .arc ⟨⟨420, 440, by decide, by decide⟩, [5, 3, 5, 2]⟩

def following : Edge := .arc ⟨⟨461, 465, by decide, by decide⟩, [7, 3]⟩

theorem separate_splits_nested : (outer.contains 420 ∧ inner.contains 420) ∧
    outer.Splits inner (outer.separate inner) ∧
    outer.separate inner = [.arc ⟨⟨410, 419, by decide, by decide⟩, [7, 3]⟩,
      .arc ⟨⟨420, 440, by decide, by decide⟩, [7, 3, 5, 2]⟩,
      .arc ⟨⟨441, 460, by decide, by decide⟩, [7, 3]⟩] ∧
    (¬ ∃ code, outer.contains code ∧ following.contains code) ∧
    outer.separate following = [outer, following] :=
  have overlap : outer.contains 420 ∧ inner.contains 420 := by decide
  have apart : ¬ ∃ code, outer.contains code ∧ following.contains code :=
    compare_eq_eq_iff.not.1 (by decide)
  ⟨overlap, (separate_splits outer inner).1 ⟨420, overlap⟩, by decide, apart,
    (separate_splits outer following).2.1 apart⟩

end Edge

end LongestMatch
