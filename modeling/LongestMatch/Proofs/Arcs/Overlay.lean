import Mathlib.Tactic.Common
import LongestMatch.Graph

namespace LongestMatch

namespace NodeId

theorem unite_cons (targets : List NodeId) (m : NodeId) (more : List NodeId) :
    unite targets (m :: more) =
      unite (if m ∈ targets then targets else targets ++ [m]) more := rfl

theorem unite_append (targets more later : List NodeId) :
    unite targets (more ++ later) = unite (unite targets more) later := List.foldl_append

theorem unite_range_of_lt {m n : Nat} (old : m < n) : unite (List.range n) [m] = List.range n := by
  rw [unite_cons, if_pos (List.mem_range.2 old), unite, List.foldl_nil]

theorem unite_range_self (n : Nat) : unite (List.range n) [n] = List.range (n + 1) := by
  rw [unite_cons, if_neg (fun old => Nat.lt_irrefl n (List.mem_range.1 old)), unite, List.foldl_nil,
    List.range_succ]

theorem mem_unite {targets more : List NodeId} {n : NodeId} :
    n ∈ unite targets more ↔ n ∈ targets ∨ n ∈ more := by
  induction more generalizing targets with
  | nil => simp [unite]
  | cons m more ih =>
      rw [unite_cons, ih, List.mem_cons]
      split
      · rename_i there
        constructor
        · tauto
        · rintro (h | rfl | h)
          · exact .inl h
          · exact .inl there
          · exact .inr h
      · simp [or_assoc]

theorem unite_assoc (targets more later : List NodeId) :
    unite targets (unite more later) = unite (unite targets more) later := by
  induction later generalizing more with
  | nil => rfl
  | cons m later ih =>
      have first : unite targets (if m ∈ more then more else more ++ [m]) =
          if m ∈ unite targets more then unite targets more else unite targets more ++ [m] := by
        split
        · rename_i there
          rw [if_pos (mem_unite.2 (.inr there))]
        · rw [unite_append, unite_cons, unite, List.foldl_nil]
      rw [unite_cons, unite_cons, ih, first]

theorem nodup_unite {targets : List NodeId} (distinct : targets.Nodup) (more : List NodeId) :
    (unite targets more).Nodup := by
  induction more generalizing targets with
  | nil => exact distinct
  | cons m more ih =>
      rw [unite_cons]
      split
      · exact ih distinct
      · rename_i absent
        refine ih (List.nodup_append.2 ⟨distinct, by simp, ?_⟩)
        intro n member k single equal
        rw [List.mem_singleton.1 single] at equal
        exact absent (equal ▸ member)

theorem map_unite (f : NodeId → NodeId) {targets more : List NodeId}
    (injective : ∀ m ∈ unite targets more, ∀ n ∈ unite targets more, f m = f n → m = n) :
    (unite targets more).map f = unite (targets.map f) (more.map f) := by
  induction more generalizing targets with
  | nil => rfl
  | cons m more ih =>
      rw [unite_cons] at injective ⊢
      rw [List.map_cons, unite_cons, ih injective]
      by_cases there : m ∈ targets
      · rw [if_pos there, if_pos (List.mem_map_of_mem there)]
      · rw [if_neg there] at injective ⊢
        have absent : f m ∉ targets.map f := by
          intro image
          obtain ⟨n, member, same⟩ := List.mem_map.1 image
          have old : n ∈ unite (targets ++ [m]) more :=
            mem_unite.2 (.inl (List.mem_append_left _ member))
          have new : m ∈ unite (targets ++ [m]) more :=
            mem_unite.2 (.inl (List.mem_append_right _ List.mem_cons_self))
          exact there (injective n old m new same ▸ member)
        rw [if_neg absent, List.map_append, List.map_cons, List.map_nil]

theorem eraseDups_of_nodup {targets : List NodeId} (distinct : targets.Nodup) :
    targets.eraseDups = targets := by
  induction targets with
  | nil => rfl
  | cons n targets ih =>
      obtain ⟨absent, rest⟩ := List.nodup_cons.1 distinct
      have kept : targets.filter (fun m => !m == n) = targets :=
        List.filter_eq_self.2 fun m member => by
          simpa using fun equal : m = n => absent (equal ▸ member)
      rw [List.eraseDups_cons, kept, ih rest]

theorem unite_eq_append (targets more : List NodeId) :
    unite targets more = targets ++ (more.removeAll targets).eraseDups := by
  induction more generalizing targets with
  | nil => simp [unite]
  | cons m more ih =>
      rw [unite_cons, ih]
      split
      · rename_i there
        simp [List.removeAll, there]
      · rename_i absent
        have new : (m :: more).removeAll targets = m :: more.removeAll targets := by
          simp [List.removeAll, absent]
        have others : more.removeAll (targets ++ [m]) = (more.removeAll targets).filter (!· == m) := by
          simp [List.removeAll, List.filter_filter, Bool.and_comm, beq_eq_decide]
        rw [new, others, List.eraseDups_cons, List.append_assoc, List.singleton_append]

theorem unite_eq_eraseDups {targets : List NodeId} (distinct : targets.Nodup)
    (more : List NodeId) : unite targets more = (targets ++ more).eraseDups := by
  rw [unite_eq_append, List.eraseDups_append, eraseDups_of_nodup distinct]

end NodeId

namespace CodeRange

theorem contains_iff {r : CodeRange} {code : Nat} :
    r.contains code = true ↔ r.first ≤ code ∧ code ≤ r.last := by
  simp [contains]

end CodeRange

namespace Arc

def targetsAt (code : Nat) (arcs : List Arc) : Option (List NodeId) :=
  (arcs.find? (·.range.contains code)).map Arc.targets

theorem targetsAt_cons (code : Nat) (a : Arc) (arcs : List Arc) :
    targetsAt code (a :: arcs) =
      if a.range.contains code then some a.targets else targetsAt code arcs := by
  cases h : a.range.contains code <;> simp [targetsAt, h]

theorem targetsAt_append (code : Nat) (xs ys : List Arc) :
    targetsAt code (xs ++ ys) = (targetsAt code xs).or (targetsAt code ys) := by
  simp [targetsAt, List.find?_append, Option.map_or]

theorem targetsAt_eq_none {code : Nat} {arcs : List Arc} :
    targetsAt code arcs = none ↔ ∀ a ∈ arcs, a.range.contains code = false := by
  simp [targetsAt]

theorem targetsAt_of_mem {code : Nat} {arcs : List Arc} (disjoint : arcs.Pairwise Before) {a : Arc}
    (member : a ∈ arcs) (inside : a.range.contains code) : targetsAt code arcs = some a.targets := by
  induction arcs with
  | nil => cases member
  | cons x xs ih =>
      obtain ⟨head, tail⟩ := List.pairwise_cons.1 disjoint
      rw [targetsAt_cons]
      rcases List.mem_cons.1 member with rfl | member
      · rw [if_pos inside]
      · have apart := head a member
        have := CodeRange.contains_iff.1 inside
        have outside : ¬ x.range.contains code := by
          rw [CodeRange.contains_iff]
          simp only [Before] at apart
          omega
        rw [if_neg outside, ih tail member]

theorem contains_before? {a part : Arc} {bound : Nat} (cut : a.before? bound = some part) (code : Nat) :
    part.range.contains code ↔ a.range.contains code ∧ code < bound := by
  obtain ⟨inside, first, last, _⟩ := before?_eq_some cut
  rw [CodeRange.contains_iff, CodeRange.contains_iff, first, last]
  omega

theorem contains_after? {a part : Arc} {bound : Nat} (cut : a.after? bound = some part) (code : Nat) :
    part.range.contains code ↔ a.range.contains code ∧ bound < code := by
  obtain ⟨inside, first, last, _⟩ := after?_eq_some cut
  rw [CodeRange.contains_iff, CodeRange.contains_iff, first, last]
  omega

theorem not_contains_of_after?_eq_none {a : Arc} {bound : Nat} (uncut : a.after? bound = none)
    (code : Nat) : ¬ (a.range.contains code ∧ bound < code) := by
  have := CodeRange.after?_eq_none (Option.map_eq_none_iff.1 uncut)
  rw [CodeRange.contains_iff]
  omega

theorem targetsAt_before? (a : Arc) (bound code : Nat) :
    targetsAt code (a.before? bound).toList =
      if a.range.contains code ∧ code < bound then some a.targets else none := by
  cases cut : a.before? bound with
  | none =>
      have := CodeRange.before?_eq_none (Option.map_eq_none_iff.1 cut)
      rw [if_neg]
      · rfl
      · rw [CodeRange.contains_iff]; omega
  | some part =>
      obtain ⟨_, _, _, targets⟩ := before?_eq_some cut
      simp only [Option.toList_some, targetsAt_cons, targets, contains_before? cut]
      rfl

theorem targetsAt_after? (a : Arc) (bound code : Nat) :
    targetsAt code (a.after? bound).toList =
      if a.range.contains code ∧ bound < code then some a.targets else none := by
  cases cut : a.after? bound with
  | none =>
      rw [if_neg (not_contains_of_after?_eq_none cut code)]
      rfl
  | some part =>
      obtain ⟨_, _, _, targets⟩ := after?_eq_some cut
      simp only [Option.toList_some, targetsAt_cons, targets, contains_after? cut]
      rfl

theorem targetsAt_joint {a b : Arc} {shared : CodeRange}
    (meet : a.range.meet? b.range = some shared) (code : Nat) :
    targetsAt code (a.joint b shared) =
      if shared.last < code then none
      else if a.range.contains code then
        if b.range.contains code then some (NodeId.unite a.targets b.targets) else some a.targets
      else if b.range.contains code then some b.targets else none := by
  obtain ⟨first, last⟩ := CodeRange.meet?_eq_some meet
  simp only [joint, targetsAt_append, targetsAt_before?, targetsAt_cons, CodeRange.contains_iff]
  have := shared.first_le_last
  -- Before the shared part only one of the arcs reads, in it both do.
  split_ifs <;> first | rfl | omega

theorem targetsAt_eq_none_of_le {a : Arc} {arcs : List Arc} (before : ∀ x ∈ arcs, a.Before x)
    {code : Nat} (le : code ≤ a.range.last) : targetsAt code arcs = none := by
  rw [targetsAt_eq_none]
  intro x member
  have apart := before x member
  rw [Bool.eq_false_iff, ne_eq, CodeRange.contains_iff]
  simp only [Before] at apart
  omega

theorem overlay_cons_apart {a x : Arc} (apart : x.range.meet? a.range = none) (xs : List Arc) :
    a.overlay (x :: xs) = if a.Before x then a :: x :: xs else x :: a.overlay xs := by
  rw [overlay, apart]

theorem overlay_cons_meet {a x : Arc} {shared : CodeRange}
    (meet : x.range.meet? a.range = some shared) (xs : List Arc) :
    a.overlay (x :: xs) = x.joint a shared ++ (x.after? shared.last).toList ++
      (a.after? shared.last).elim xs (·.overlay xs) := by
  rw [overlay, meet]
  cases h : a.after? shared.last <;> simp [h]

theorem targetsAt_elim_after? (a : Arc) {arcs : List Arc} (bound : Nat) {code : Nat}
    (overlaid : ∀ b : Arc, targetsAt code (b.overlay arcs) =
      if b.range.contains code then
        some (((targetsAt code arcs).map (NodeId.unite · b.targets)).getD b.targets)
      else targetsAt code arcs) :
    targetsAt code ((a.after? bound).elim arcs (·.overlay arcs)) =
      if a.range.contains code ∧ bound < code then
        some (((targetsAt code arcs).map (NodeId.unite · a.targets)).getD a.targets)
      else targetsAt code arcs := by
  cases cut : a.after? bound with
  | none =>
      rw [if_neg (not_contains_of_after?_eq_none cut code)]
      rfl
  | some part =>
      obtain ⟨_, _, _, targets⟩ := after?_eq_some cut
      simp only [Option.elim_some, overlaid part, targets, contains_after? cut]

theorem targetsAt_overlay (a : Arc) {arcs : List Arc} (disjoint : arcs.Pairwise Before)
    (code : Nat) :
    targetsAt code (a.overlay arcs) =
      if a.range.contains code then
        some (((targetsAt code arcs).map (NodeId.unite · a.targets)).getD a.targets)
      else targetsAt code arcs := by
  induction arcs generalizing a with
  | nil => rw [overlay, targetsAt_cons]; rfl
  | cons x xs ih =>
      obtain ⟨head, tail⟩ := List.pairwise_cons.1 disjoint
      cases meet : x.range.meet? a.range with
      | none =>
          have apart := CodeRange.meet?_eq_none meet
          rw [overlay_cons_apart meet]
          by_cases first : a.Before x
          · rw [if_pos first, targetsAt_cons]
            by_cases inside : a.range.contains code
            · have nothing : targetsAt code (x :: xs) = none := by
                refine targetsAt_eq_none_of_le (fun y member => ?_) (CodeRange.contains_iff.1 inside).2
                rcases List.mem_cons.1 member with rfl | member
                · exact first
                · have := head y member
                  have := x.range.first_le_last
                  simp only [Before] at *; omega
              rw [if_pos inside, if_pos inside, nothing]
              rfl
            · rw [if_neg inside, if_neg inside]
          · rw [if_neg first, targetsAt_cons, targetsAt_cons, ih a tail]
            by_cases inside : x.range.contains code
            · have outside : ¬ a.range.contains code := by
                rw [CodeRange.contains_iff] at inside ⊢; omega
              rw [if_pos inside, if_pos inside, if_neg outside]
            · rw [if_neg inside, if_neg inside]
      | some shared =>
          obtain ⟨_, last⟩ := CodeRange.meet?_eq_some meet
          rw [overlay_cons_meet meet, targetsAt_append, targetsAt_append, targetsAt_joint meet,
            targetsAt_after?, targetsAt_elim_after? a shared.last fun b => ih b tail, targetsAt_cons]
          by_cases within : code ≤ shared.last
          · have nothing : targetsAt code xs = none := targetsAt_eq_none_of_le head (by omega)
            simp only [Nat.not_lt.2 within, and_false, if_false, Option.or_none]
            cases inX : x.range.contains code <;> cases inA : a.range.contains code <;>
              simp_all
          · have alone : x.range.contains code → a.range.contains code = false := by
              intro inside
              rw [Bool.eq_false_iff, ne_eq]
              rw [CodeRange.contains_iff] at inside ⊢
              omega
            simp only [Nat.not_le.1 within, and_true, if_true, Option.none_or]
            cases inX : x.range.contains code <;> cases inA : a.range.contains code <;>
              simp_all

def Joined (arcs : List Arc) (code : Nat) : Prop :=
  ∃ a ∈ arcs, a.range.contains code ∧ a.range.contains (code + 1)

theorem joined_cons {a : Arc} {arcs : List Arc} {code : Nat} :
    Joined (a :: arcs) code ↔
      (a.range.contains code ∧ a.range.contains (code + 1)) ∨ Joined arcs code := by
  simp [Joined]

theorem joined_append {xs ys : List Arc} {code : Nat} :
    Joined (xs ++ ys) code ↔ Joined xs code ∨ Joined ys code := by
  simp only [Joined, List.mem_append, or_and_right, exists_or]

theorem not_joined_nil {code : Nat} : ¬ Joined [] code := by
  simp [Joined]

theorem joined_before? {a : Arc} {bound code : Nat} :
    Joined (a.before? bound).toList code ↔
      a.range.first ≤ code ∧ code + 1 ≤ a.range.last ∧ code + 1 < bound := by
  cases part : a.before? bound with
  | none =>
      have := CodeRange.before?_eq_none (Option.map_eq_none_iff.1 part)
      simp only [Option.toList_none, not_joined_nil, false_iff]
      omega
  | some part' =>
      obtain ⟨inside, first, last, _⟩ := before?_eq_some part
      simp only [Option.toList_some, joined_cons, not_joined_nil, or_false,
        CodeRange.contains_iff, first, last]
      omega

theorem joined_after? {a : Arc} {bound code : Nat} :
    Joined (a.after? bound).toList code ↔
      a.range.first ≤ code ∧ code + 1 ≤ a.range.last ∧ bound < code := by
  cases part : a.after? bound with
  | none =>
      have := CodeRange.after?_eq_none (Option.map_eq_none_iff.1 part)
      simp only [Option.toList_none, not_joined_nil, false_iff]
      omega
  | some part' =>
      obtain ⟨inside, first, last, _⟩ := after?_eq_some part
      simp only [Option.toList_some, joined_cons, not_joined_nil, or_false,
        CodeRange.contains_iff, first, last]
      omega

theorem Joined.covered {arcs : List Arc} {code : Nat} (joined : Joined arcs code) :
    targetsAt code arcs ≠ none ∧ targetsAt (code + 1) arcs ≠ none := by
  obtain ⟨a, member, here, next⟩ := joined
  rw [ne_eq, ne_eq, targetsAt_eq_none, targetsAt_eq_none]
  exact ⟨fun none => by simp [none a member] at here, fun none => by simp [none a member] at next⟩

theorem joined_elim_after? (a : Arc) {arcs : List Arc} (bound : Nat) {code : Nat}
    (overlaid : ∀ b : Arc, Joined (b.overlay arcs) code ↔
      (b.range.contains code ↔ b.range.contains (code + 1)) ∧
        (Joined arcs code ∨ b.range.contains code ∧ targetsAt code arcs = none ∧
          targetsAt (code + 1) arcs = none)) :
    Joined ((a.after? bound).elim arcs (·.overlay arcs)) code ↔
      ((a.range.contains code ∧ bound < code) ↔
        (a.range.contains (code + 1) ∧ bound < code + 1)) ∧
        (Joined arcs code ∨ (a.range.contains code ∧ bound < code) ∧
          targetsAt code arcs = none ∧ targetsAt (code + 1) arcs = none) := by
  cases cut : a.after? bound with
  | none =>
      have outside := not_contains_of_after?_eq_none cut
      simp only [Option.elim_none, outside code, outside (code + 1), false_and, or_false, iff_self,
        true_and]
  | some part =>
      rw [Option.elim_some, overlaid part, contains_after? cut, contains_after? cut]

theorem joined_overlay (a : Arc) {arcs : List Arc} (disjoint : arcs.Pairwise Before) (code : Nat) :
    Joined (a.overlay arcs) code ↔
      (a.range.contains code ↔ a.range.contains (code + 1)) ∧
        (Joined arcs code ∨ a.range.contains code ∧ targetsAt code arcs = none ∧
          targetsAt (code + 1) arcs = none) := by
  induction arcs generalizing a with
  | nil =>
      simp only [overlay, joined_cons, not_joined_nil, or_false, false_or, targetsAt, List.find?_nil,
        Option.map_none, and_true]
      tauto
  | cons x xs ih =>
      obtain ⟨head, tail⟩ := List.pairwise_cons.1 disjoint
      have here : code ≤ x.range.last → targetsAt code xs = none := targetsAt_eq_none_of_le head
      have next : code + 1 ≤ x.range.last → targetsAt (code + 1) xs = none :=
        targetsAt_eq_none_of_le head
      have covered := fun joined : Joined xs code => joined.covered
      have ordered := x.range.first_le_last
      have ordered' := a.range.first_le_last
      cases meet : x.range.meet? a.range with
      | none =>
          have apart := CodeRange.meet?_eq_none meet
          rw [overlay_cons_apart meet]
          by_cases first : a.Before x
          · rw [if_pos first]
            simp only [Before] at first
            simp only [joined_cons, targetsAt_cons, CodeRange.contains_iff] at *
            grind
          · have ih := ih a tail
            rw [if_neg first]
            simp only [Before] at first
            simp only [joined_cons, targetsAt_cons, CodeRange.contains_iff, ih] at *
            grind
      | some shared =>
          obtain ⟨first, last⟩ := CodeRange.meet?_eq_some meet
          have rest := joined_elim_after? a shared.last fun b => ih b tail
          rw [overlay_cons_meet meet, joined_append, joined_append, joint, joined_append,
            joined_append, joined_before?, joined_before?, joined_after?, joined_cons, joined_cons,
            rest, targetsAt_cons, targetsAt_cons]
          simp only [CodeRange.contains_iff, not_joined_nil]
          -- The two code points lie before, across or after the end of the shared part.
          rcases Nat.lt_trichotomy code shared.last with before | across | after
          · grind
          · grind
          · grind

def Apart (a b : Arc) : Prop := a.Before b ∨ b.Before a

theorem Apart.symm {a b : Arc} (apart : a.Apart b) : b.Apart a := Or.symm apart

theorem Apart.meet?_eq_none {a b : Arc} (apart : a.Apart b) : b.range.meet? a.range = none := by
  rw [CodeRange.meet?, dif_neg]
  rcases apart with before | before <;>
    · simp only [Before] at before
      omega

theorem overlay_of_before {a : Arc} {xs : List Arc} (before : ∀ x ∈ xs, x.Before a) :
    a.overlay xs = xs ++ [a] := by
  induction xs with
  | nil => rfl
  | cons x xs ih =>
      have head := before x List.mem_cons_self
      have apart : a.Apart x := .inr head
      simp only [Before] at head
      have later : ¬ a.Before x := by
        have := a.range.first_le_last
        have := x.range.first_le_last
        simp only [Before]
        omega
      rw [overlay_cons_apart apart.meet?_eq_none, if_neg later,
        ih fun x member => before x (List.mem_cons_of_mem _ member), List.cons_append]

theorem overlay_perm {a : Arc} {arcs : List Arc} (apart : ∀ x ∈ arcs, a.Apart x) :
    (a.overlay arcs).Perm (a :: arcs) := by
  induction arcs with
  | nil => exact .refl _
  | cons x xs ih =>
      rw [overlay_cons_apart (apart x List.mem_cons_self).meet?_eq_none]
      split
      · exact .refl _
      · have later := ih fun y member => apart y (List.mem_cons_of_mem _ member)
        exact (later.cons x).trans (.swap a x xs)

def mapped (image : NodeId → NodeId) (a : Arc) : Arc := { a with targets := a.targets.map image }

theorem targetsAt_mapped (image : NodeId → NodeId) (code : Nat) (arcs : List Arc) :
    targetsAt code (arcs.map (mapped image)) = (targetsAt code arcs).map (List.map image) := by
  induction arcs with
  | nil => rfl
  | cons a arcs ih =>
      rw [List.map_cons, targetsAt_cons, targetsAt_cons, ih]
      by_cases inside : a.range.contains code
      · rw [if_pos inside, if_pos (show (a.mapped image).range.contains code from inside)]
        rfl
      · rw [if_neg inside, if_neg (show ¬ (a.mapped image).range.contains code from inside)]

theorem pairwise_mapped (image : NodeId → NodeId) {arcs : List Arc}
    (ascending : arcs.Pairwise Before) : (arcs.map (mapped image)).Pairwise Before :=
  List.pairwise_map.2 ascending

end Arc

end LongestMatch
