import Mathlib.Tactic.Order
import LongestMatch.Edge
import LongestMatch.Proofs.RedBlack.Requests

/-!
# Trees of intervals

A comparator that calls overlapping intervals equal is not an order: an interval can overlap two
disjoint ones. A tree under it is nevertheless a set of disjoint intervals in ascending order, as long as
no interval is added that overlaps more than one of them.
-/

namespace LongestMatch

variable {α β : Type}

structure Extent (α β : Type) where
  first : α → β
  last : α → β

namespace Extent

variable [LinearOrder β]

def WellFormed (e : Extent α β) (a : α) : Prop := e.first a ≤ e.last a

def Overlaps (e : Extent α β) (a b : α) : Prop := e.first a ≤ e.last b ∧ e.first b ≤ e.last a

def Before (e : Extent α β) (a b : α) : Prop := e.last a < e.first b

def compare (e : Extent α β) (a b : α) : Ordering :=
  if e.last a < e.first b then .lt else if e.last b < e.first a then .gt else .eq

variable {e : Extent α β} {a b x : α} {xs ys before after : List α} {found : Option α}

instance : Decidable (e.WellFormed a) := inferInstanceAs (Decidable (_ ≤ _))

instance : Decidable (e.Overlaps a b) := inferInstanceAs (Decidable (_ ∧ _))

theorem compare_eq_lt : e.compare a b = .lt ↔ e.Before a b := by
  unfold compare Before
  split_ifs <;> simp_all

theorem compare_eq_eq : e.compare a b = .eq ↔ e.Overlaps a b := by
  unfold compare Overlaps
  split_ifs <;> simp_all

theorem compare_eq_gt (first : e.WellFormed a) (second : e.WellFormed b) :
    e.compare a b = .gt ↔ e.Before b a := by
  unfold compare Before WellFormed at *
  split_ifs with less greater
  · simp only [false_iff]
    order
  · simp [greater]
  · simp [greater]

theorem Before.not_overlaps (before : e.Before a b) : ¬ e.Overlaps a b := fun overlaps =>
  absurd overlaps.2 (not_le_of_gt before)

theorem Before.not_overlaps' (before : e.Before a b) : ¬ e.Overlaps b a := fun overlaps =>
  absurd overlaps.1 (not_le_of_gt before)

theorem before_of_overlaps (apart : ¬ e.Overlaps a x) (ordered : e.WellFormed a)
    (before : e.Before a b) (overlaps : e.Overlaps b x) : e.Before a x := by
  unfold Overlaps Before WellFormed at *
  rw [not_and_or, not_le, not_le] at apart
  rcases apart with beyond | before
  · have := overlaps.1
    order
  · exact before

theorem before_of_overlaps' (apart : ¬ e.Overlaps a x) (ordered : e.WellFormed a)
    (beyond : e.Before b a) (overlaps : e.Overlaps b x) : e.Before x a := by
  unfold Overlaps Before WellFormed at *
  rw [not_and_or, not_le, not_le] at apart
  rcases apart with beyond | before
  · exact beyond
  · have := overlaps.2
    order

structure Arranged (e : Extent α β) (xs : List α) : Prop where
  wellFormed : ∀ x ∈ xs, e.WellFormed x
  ascending : xs.Pairwise e.Before

namespace Arranged

theorem nil : e.Arranged ([] : List α) := ⟨by simp, .nil⟩

theorem sublist (arranged : e.Arranged ys) (sub : xs.Sublist ys) : e.Arranged xs :=
  ⟨fun x member => arranged.wellFormed x (sub.mem member), arranged.ascending.sublist sub⟩

theorem insert (arranged : e.Arranged (before ++ after)) (ordered : e.WellFormed x)
    (below : ∀ y ∈ before, e.Before y x) (above : ∀ y ∈ after, e.Before x y) :
    e.Arranged (before ++ x :: after) where
  wellFormed := by
    intro y member
    rcases (by simpa [or_left_comm] using member : y = x ∨ y ∈ before ++ after) with rfl | member
    · exact ordered
    · exact arranged.wellFormed y member
  ascending := by
    obtain ⟨lower, upper, across⟩ := List.pairwise_append.1 arranged.ascending
    refine List.pairwise_append.2 ⟨lower, List.pairwise_cons.2 ⟨above, upper⟩, ?_⟩
    intro y first z second
    rcases List.mem_cons.1 second with rfl | second
    · exact below y first
    · exact across y first z second

theorem replace {v : α} (arranged : e.Arranged (before ++ v :: after)) (ordered : e.WellFormed x)
    (overlaps : e.Overlaps v x) (apart : ∀ y ∈ before ++ after, ¬ e.Overlaps y x) :
    e.Arranged (before ++ x :: after) := by
  have rest : e.Arranged (before ++ after) :=
    arranged.sublist ((List.sublist_cons_self v after).append_left before)
  obtain ⟨_, upper, across⟩ := List.pairwise_append.1 arranged.ascending
  refine rest.insert ordered (fun y member => ?_) fun y member => ?_
  · have member' := List.mem_append_left after member
    exact before_of_overlaps (apart y member') (rest.wellFormed y member')
      (across y member v List.mem_cons_self) overlaps
  · have member' := List.mem_append_right before member
    exact before_of_overlaps' (apart y member') (rest.wellFormed y member')
      (List.rel_of_pairwise_cons upper member) overlaps

end Arranged

theorem steers (probe : e.WellFormed x) (wellFormed : ∀ y ∈ xs, e.WellFormed y) :
    Steers e.compare x xs where
  below u _ v second less first := by
    have ordered := wellFormed v second
    rw [compare_eq_lt] at *
    unfold Before WellFormed at *
    order
  above u first v second less greater := by
    have u_ordered := wellFormed u first
    have v_ordered := wellFormed v second
    rw [compare_eq_lt] at less
    rw [compare_eq_gt u_ordered probe] at greater
    rw [compare_eq_gt v_ordered probe]
    unfold Before WellFormed at *
    order

theorem parts_of_none (arranged : e.Arranged (before ++ after)) (probe : e.WellFormed x)
    (locates : Locates e.compare x before none after) :
    (∀ y ∈ before, e.Before y x) ∧ ∀ y ∈ after, e.Before x y := by
  have ascending : (before ++ after).Pairwise (e.compare · · = .lt) :=
    arranged.ascending.imp compare_eq_lt.2
  obtain ⟨smaller, greater⟩ := locates.apart rfl (steers probe arranged.wellFormed) ascending
  refine ⟨fun y member => compare_eq_lt.1 (smaller y member), fun y member => ?_⟩
  have ordered := arranged.wellFormed y (List.mem_append_right _ member)
  exact (compare_eq_gt ordered probe).1 (greater y member)

theorem apart_of_none (arranged : e.Arranged (before ++ after)) (probe : e.WellFormed x)
    (locates : Locates e.compare x before none after) : ∀ y ∈ before ++ after, ¬ e.Overlaps y x := by
  obtain ⟨smaller, greater⟩ := parts_of_none arranged probe locates
  intro y member
  rcases List.mem_append.1 member with member | member
  · exact (smaller y member).not_overlaps
  · exact (greater y member).not_overlaps'

theorem apart_of_countP_le {v : α} {p : α → Prop} [DecidablePred p] (holds : p v)
    (single : (before ++ v :: after).countP (p ·) ≤ 1) : ∀ y ∈ before ++ after, ¬ p y := by
  rw [List.countP_append, List.countP_cons_of_pos (p := (p ·)) (decide_eq_true holds)] at single
  have none : (before ++ after).countP (p ·) = 0 := by
    rw [List.countP_append]
    omega
  simpa only [decide_eq_true_eq] using List.countP_eq_zero.1 none

/-- What a set of intervals, in order, does when it is asked. Where the probe overlaps several
intervals, the request may be about any of them. -/
inductive Responds (e : Extent α β) : List α → Request α → List α → Answer α → Prop where
  | insert {x : α} {before after : List α} (apart : ∀ y ∈ before ++ after, ¬ e.Overlaps y x) :
      Responds e (before ++ after) (.add x) (before ++ x :: after) (.element none)
  | replace {x v : α} {before after : List α} (overlaps : e.Overlaps v x)
      (apart : ∀ y ∈ before ++ after, ¬ e.Overlaps y x) :
      Responds e (before ++ v :: after) (.add x) (before ++ x :: after) (.element (some v))
  | remove {x v : α} {before after : List α} (overlaps : e.Overlaps v x) :
      Responds e (before ++ v :: after) (.remove x) (before ++ after) (.element (some v))
  | spare {x : α} {xs : List α} (apart : ∀ y ∈ xs, ¬ e.Overlaps y x) :
      Responds e xs (.remove x) xs (.element none)
  | find {x v : α} {xs : List α} (member : v ∈ xs) (overlaps : e.Overlaps v x) :
      Responds e xs (.find x) xs (.element (some v))
  | miss {x : α} {xs : List α} (apart : ∀ y ∈ xs, ¬ e.Overlaps y x) :
      Responds e xs (.find x) xs (.element none)
  | has (x : α) (xs : List α) : Responds e xs (.has x) xs (.truth (xs.any (e.Overlaps · x)))
  | list (xs : List α) : Responds e xs .list xs (.elements xs)
  | drain (xs : List α) : Responds e xs .drain [] (.elements xs)
  | size (xs : List α) : Responds e xs .size xs (.count xs.length)

def Admits (e : Extent α β) (xs : List α) : Request α → Prop
  | .add x => e.WellFormed x ∧ xs.countP (e.Overlaps · x) ≤ 1
  | .remove x | .find x | .has x => e.WellFormed x
  | .list | .drain | .size => True

theorem Admits.responds {request : Request α} {answer : Answer α} (admits : e.Admits xs request)
    (arranged : e.Arranged xs) (acts : LinkedTree.Acts e.compare xs request ys answer) :
    e.Responds xs request ys answer ∧ e.Arranged ys := by
  cases acts with
  | @add x before after found locates =>
      cases found with
      | none =>
          rw [Option.toList_none, List.append_nil] at *
          obtain ⟨below, above⟩ := parts_of_none arranged admits.1 locates
          exact ⟨.insert (apart_of_none arranged admits.1 locates),
            arranged.insert admits.1 below above⟩
      | some v =>
          rw [Option.toList_some, List.append_assoc, List.singleton_append] at *
          have overlaps := compare_eq_eq.1 (locates.equal v rfl)
          have apart := apart_of_countP_le (p := (e.Overlaps · x)) overlaps admits.2
          exact ⟨.replace overlaps apart, arranged.replace admits.1 overlaps apart⟩
  | @remove x before after found locates =>
      cases found with
      | none =>
          rw [Option.toList_none, List.append_nil] at *
          exact ⟨.spare (apart_of_none arranged admits locates), arranged⟩
      | some v =>
          rw [Option.toList_some, List.append_assoc, List.singleton_append] at *
          exact ⟨.remove (compare_eq_eq.1 (locates.equal v rfl)),
            arranged.sublist ((List.sublist_cons_self v after).append_left before)⟩
  | @find x before after found locates =>
      refine ⟨?_, arranged⟩
      cases found with
      | none =>
          rw [Option.toList_none, List.append_nil] at *
          exact .miss (apart_of_none arranged admits locates)
      | some v => exact .find (by simp) (compare_eq_eq.1 (locates.equal v rfl))
  | @has x before after found locates =>
      refine ⟨?_, arranged⟩
      have known : found.isSome =
          (before ++ found.toList ++ after).any (e.Overlaps · x) := by
        cases found with
        | none =>
            rw [Option.toList_none, List.append_nil] at *
            have apart := apart_of_none arranged admits locates
            exact (List.any_eq_false.2 fun y member => by simpa using apart y member).symm
        | some v => simpa using .inr (.inl (compare_eq_eq.1 (locates.equal v rfl)))
      rw [known]
      exact .has x _
  | list => exact ⟨.list xs, arranged⟩
  | drain => exact ⟨.drain xs, .nil⟩
  | size => exact ⟨.size xs, arranged⟩

instance decidableAdmits (e : Extent α β) (xs : List α) : (request : Request α) →
    Decidable (e.Admits xs request)
  | .add _ => inferInstanceAs (Decidable (_ ∧ _))
  | .remove _ | .find _ | .has _ => inferInstanceAs (Decidable (_ ≤ _))
  | .list | .drain | .size => inferInstanceAs (Decidable True)

def Fair (e : Extent α β) (t : LinkedTree α) : List (Request α) → Prop
  | [] => True
  | request :: requests =>
    (∀ xs, t.toList = .ok xs → e.Admits xs request) ∧
      ∀ next, t.perform e.compare request = .ok next → e.Fair next.1 requests

instance decidableForallOk {ε γ : Type} {p : γ → Prop} [∀ c, Decidable (p c)] :
    (result : Except ε γ) → Decidable (∀ c, result = .ok c → p c)
  | .ok c => decidable_of_iff (p c) ⟨fun holds _ eq => Except.ok.inj eq ▸ holds, fun all => all c rfl⟩
  | .error _ => .isTrue nofun

instance decidableFair (e : Extent α β) : (requests : List (Request α)) → (t : LinkedTree α) →
    Decidable (e.Fair t requests)
  | [], _ => inferInstanceAs (Decidable True)
  | _ :: requests, _ =>
    have (next : LinkedTree α × Answer α) := decidableFair e requests next.1
    inferInstanceAs (Decidable (_ ∧ _))

/-- The trees and answers are those of a set of intervals, which is listed as disjoint intervals in
ascending order after each request. -/
inductive Keeps (e : Extent α β) :
    List α → List (Request α) → List (LinkedTree α × Answer α) → Prop where
  | nil (xs : List α) : Keeps e xs [] []
  | cons {xs ys : List α} {request : Request α} {requests : List (Request α)} {t : LinkedTree α}
      {answer : Answer α} {served : List (LinkedTree α × Answer α)}
      (responds : e.Responds xs request ys answer) (listed : t.toList = .ok ys)
      (arranged : e.Arranged ys) (rest : Keeps e ys requests served) :
      Keeps e xs (request :: requests) ((t, answer) :: served)

theorem serve_keeps {t : LinkedTree α} (lists : t.Lists xs) (arranged : e.Arranged xs)
    (requests : List (Request α)) (fair : e.Fair t requests) :
    Succeeds (t.serve e.compare requests) (e.Keeps xs requests) := by
  induction requests generalizing t xs with
  | nil => exact .pure (.nil xs)
  | cons request requests ih =>
      obtain ⟨⟨t', answer⟩, performed, ys, lists', acts⟩ :=
        LinkedTree.perform_acts lists e.compare request
      obtain ⟨responds, arranged'⟩ := (fair.1 xs lists.toList_eq).responds arranged acts
      refine Succeeds.bind ⟨_, performed, rfl⟩ ?_
      rintro _ rfl
      refine (ih lists' arranged' (fair.2 _ performed)).bind fun served keeps => ?_
      exact .pure (.cons responds lists'.toList_eq arranged' keeps)

/-- A tree under the comparator that calls overlapping intervals equal answers all requests, and
answers them as a set of intervals does, as long as all intervals are well formed and no interval is
added that overlaps more than one of those in the tree. -/
theorem serve_intervals (e : Extent α β) (requests : List (Request α)) (fair : e.Fair {} requests) :
    ∃ served, ({} : LinkedTree α).serve e.compare requests = .ok served ∧
      e.Keeps [] requests served :=
  serve_keeps LinkedTree.lists_empty .nil requests fair

end Extent

namespace Edge

def extent : Extent Edge Nat := ⟨first, last⟩

theorem compare_eq_extent : compare = extent.compare := rfl

theorem extent_wellFormed (e : Edge) : extent.WellFormed e := by
  cases e with
  | arc a => exact a.range.first_le_last
  | epsilon | never => exact Nat.le_refl _

def crowd : List (Request Edge) :=
  [.add (.arc ⟨⟨300, 309, by decide, by decide⟩, [1]⟩),
    .add (.arc ⟨⟨340, 349, by decide, by decide⟩, [2]⟩), .add (.epsilon [3]),
    .add (.arc ⟨⟨320, 329, by decide, by decide⟩, [4]⟩),
    .find (.arc ⟨⟨305, 345, by decide, by decide⟩, []⟩),
    .add (.arc ⟨⟨325, 335, by decide, by decide⟩, [5]⟩),
    .has (.arc ⟨⟨310, 324, by decide, by decide⟩, []⟩),
    .remove (.arc ⟨⟨330, 360, by decide, by decide⟩, []⟩), .list]

theorem serve_intervals_crowd : ∃ served, ({} : LinkedTree Edge).serve compare crowd = .ok served ∧
    extent.Keeps [] crowd served ∧
    served.map Prod.snd =
      [.element none, .element none, .element none, .element none,
        .element (some (.arc ⟨⟨340, 349, by decide, by decide⟩, [2]⟩)),
        .element (some (.arc ⟨⟨320, 329, by decide, by decide⟩, [4]⟩)), .truth false,
        .element (some (.arc ⟨⟨340, 349, by decide, by decide⟩, [2]⟩)),
        .elements [.arc ⟨⟨300, 309, by decide, by decide⟩, [1]⟩,
          .arc ⟨⟨325, 335, by decide, by decide⟩, [5]⟩, .epsilon [3]]] := by
  rw [compare_eq_extent]
  obtain ⟨served, eq, keeps⟩ := extent.serve_intervals crowd (by decide +kernel)
  refine ⟨served, eq, keeps, ?_⟩
  have answers : (({} : LinkedTree Edge).serve extent.compare crowd).map (·.map Prod.snd) =
      .ok (served.map Prod.snd) := by rw [eq]; rfl
  exact Except.ok.inj (answers.symm.trans (by decide +kernel))

end Edge

end LongestMatch
