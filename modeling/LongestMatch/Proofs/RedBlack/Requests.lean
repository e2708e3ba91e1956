import LongestMatch.OrderedSet
import LongestMatch.Proofs.RedBlack.Remove

namespace LongestMatch

open Std

variable {α : Type} {cmp : α → α → Ordering}

inductive Request (α : Type) where
  | add (x : α)
  | remove (x : α)
  | find (x : α)
  | has (x : α)
  | list
  | drain
  | size

inductive Answer (α : Type) where
  | element (x : Option α)
  | truth (b : Bool)
  | elements (xs : List α)
  | count (n : Nat)
  deriving DecidableEq

namespace LinkedTree

variable {t : LinkedTree α} {xs : List α}

def perform (cmp : α → α → Ordering) (t : LinkedTree α) :
    Request α → Except BrokenTree (LinkedTree α × Answer α)
  | .add x => do
    let (t, replaced) ← t.insert cmp x
    return (t, .element replaced)
  | .remove x => do
    let (t, removed) ← t.remove cmp x
    return (t, .element removed)
  | .find x => return (t, .element (← t.find? cmp x))
  | .has x => return (t, .truth (← t.find? cmp x).isSome)
  | .list => return (t, .elements (← t.toList))
  | .drain => do
    let (t, elements) ← t.drain
    return (t, .elements elements)
  | .size => return (t, .count t.size)

def serve (cmp : α → α → Ordering) (t : LinkedTree α) :
    List (Request α) → Except BrokenTree (List (LinkedTree α × Answer α))
  | [] => return []
  | request :: requests => do
    let (t, answer) ← t.perform cmp request
    return (t, answer) :: (← t.serve cmp requests)

/-- The links show a red-black tree of all slots: it begins at the root, the links to children and
parents lead where the shape says, and every slot is in it once. -/
structure IsRedBlack (t : LinkedTree α) (s : Shape α) : Prop where
  root : t.root = s.link
  links : t.Holds none s
  slots : s.slots.Perm (List.range t.size)
  balanced : ∃ n, s.Balanced .black n

theorem Lists.isRedBlack (lists : t.Lists xs) : ∃ s, t.IsRedBlack s := by
  obtain ⟨s, n, stores, balanced, _⟩ := lists
  have placed := stores.placed
  rw [Way.around_nil] at placed
  exact ⟨s, stores.above, stores.below, placed, n, balanced⟩

end LinkedTree

def respond (cmp : α → α → Ordering) (xs : List α) : Request α → List α × Answer α
  | .add x => (put cmp x xs, .element (xs.find? (cmp · x = .eq)))
  | .remove x => (xs.eraseP (cmp · x = .eq), .element (xs.find? (cmp · x = .eq)))
  | .find x => (xs, .element (xs.find? (cmp · x = .eq)))
  | .has x => (xs, .truth (xs.find? (cmp · x = .eq)).isSome)
  | .list => (xs, .elements xs)
  | .drain => ([], .elements xs)
  | .size => (xs, .count xs.length)

def responses (cmp : α → α → Ordering) (xs : List α) : List (Request α) → List (List α × Answer α)
  | [] => []
  | request :: requests =>
    respond cmp xs request :: responses cmp (respond cmp xs request).1 requests

namespace LinkedTree

variable {t : LinkedTree α} {xs : List α}

theorem pairwise_respond [TransCmp cmp] (ascending : xs.Pairwise (cmp · · = .lt))
    (request : Request α) : (respond cmp xs request).1.Pairwise (cmp · · = .lt) := by
  cases request with
  | add x => exact pairwise_put x ascending
  | remove x => exact ascending.sublist List.eraseP_sublist
  | drain => exact .nil
  | find | has | list | size => exact ascending

inductive Acts (cmp : α → α → Ordering) : List α → Request α → List α → Answer α → Prop where
  | add {x : α} {before after : List α} {found : Option α} (locates : Locates cmp x before found after) :
      Acts cmp (before ++ found.toList ++ after) (.add x) (before ++ x :: after) (.element found)
  | remove {x : α} {before after : List α} {found : Option α}
      (locates : Locates cmp x before found after) :
      Acts cmp (before ++ found.toList ++ after) (.remove x) (before ++ after) (.element found)
  | find {x : α} {before after : List α} {found : Option α} (locates : Locates cmp x before found after) :
      Acts cmp (before ++ found.toList ++ after) (.find x) (before ++ found.toList ++ after)
        (.element found)
  | has {x : α} {before after : List α} {found : Option α} (locates : Locates cmp x before found after) :
      Acts cmp (before ++ found.toList ++ after) (.has x) (before ++ found.toList ++ after)
        (.truth found.isSome)
  | list (xs : List α) : Acts cmp xs .list xs (.elements xs)
  | drain (xs : List α) : Acts cmp xs .drain [] (.elements xs)
  | size (xs : List α) : Acts cmp xs .size xs (.count xs.length)

theorem perform_acts (lists : t.Lists xs) (cmp : α → α → Ordering) (request : Request α) :
    Succeeds (t.perform cmp request) fun (t', answer) =>
      ∃ ys, t'.Lists ys ∧ Acts cmp xs request ys answer := by
  cases request with
  | add x =>
      refine (insert_lists lists cmp x).bind ?_
      rintro ⟨t', old⟩ ⟨before, after, locates, rfl, lists'⟩
      exact .pure ⟨_, lists', .add locates⟩
  | remove x =>
      refine (remove_lists lists cmp x).bind ?_
      rintro ⟨t', old⟩ ⟨before, after, locates, rfl, lists'⟩
      exact .pure ⟨_, lists', .remove locates⟩
  | find x =>
      refine (find_lists lists cmp x).bind ?_
      rintro found ⟨before, after, locates, rfl⟩
      exact .pure ⟨_, lists, .find locates⟩
  | has x =>
      refine (find_lists lists cmp x).bind ?_
      rintro found ⟨before, after, locates, rfl⟩
      exact .pure ⟨_, lists, .has locates⟩
  | list =>
      rw [perform, lists.toList_eq]
      exact .pure ⟨_, lists, .list xs⟩
  | drain =>
      rw [perform, lists.drain_eq]
      exact .pure ⟨_, lists_empty, .drain xs⟩
  | size =>
      refine .pure ⟨_, lists, ?_⟩
      rw [← lists.length_eq]
      exact .size xs

theorem Acts.respond_eq [TransCmp cmp] {request : Request α} {ys : List α} {answer : Answer α}
    (acts : Acts cmp xs request ys answer) (ascending : xs.Pairwise (cmp · · = .lt)) :
    respond cmp xs request = (ys, answer) := by
  cases acts with
  | add locates => rw [respond, locates.put_eq ascending, locates.find?_eq ascending]
  | remove locates => rw [respond, locates.eraseP_eq ascending, locates.find?_eq ascending]
  | find locates | has locates => rw [respond, locates.find?_eq ascending]
  | list | drain | size => rfl

theorem serve_lists (lists : t.Lists xs) (cmp : α → α → Ordering) (requests : List (Request α)) :
    Succeeds (t.serve cmp requests) fun served => served.length = requests.length ∧
      (∀ state ∈ served, ∃ ys, state.1.Lists ys) ∧
      (TransCmp cmp → xs.Pairwise (cmp · · = .lt) →
        served.map Prod.snd = (responses cmp xs requests).map Prod.snd) := by
  induction requests generalizing t xs with
  | nil => exact .pure ⟨rfl, by simp, fun _ _ => rfl⟩
  | cons request requests ih =>
      refine (perform_acts lists cmp request).bind ?_
      rintro ⟨t', answer⟩ ⟨ys, lists', acts⟩
      refine (ih lists').bind ?_
      rintro served ⟨length, all, rest⟩
      refine .pure ⟨?_, ?_, ?_⟩
      · simp [length]
      · intro state member
        rcases List.mem_cons.1 member with rfl | member
        · exact ⟨ys, lists'⟩
        · exact all state member
      · intro lawful ascending
        have next := pairwise_respond ascending request
        rw [acts.respond_eq ascending] at next
        rw [responses, acts.respond_eq ascending, List.map_cons, List.map_cons, rest lawful next]

/-- Under any comparator every request succeeds, every request leaves a red-black tree, and a search in
a tree of `n` elements takes `k` comparisons with `2 ^ k ≤ (n + 1) ^ 2`. -/
theorem serve_isRedBlack (cmp : α → α → Ordering) (requests : List (Request α)) :
    ∃ served, ({} : LinkedTree α).serve cmp requests = .ok served ∧
      served.length = requests.length ∧
      ∀ t answer, (t, answer) ∈ served → (∃ s, t.IsRedBlack s) ∧
        ∀ x, ∃ trail, t.search cmp x = .ok trail ∧ 2 ^ trail.shown.length ≤ (t.size + 1) ^ 2 := by
  obtain ⟨served, eq, length, all, _⟩ := serve_lists lists_empty cmp requests
  refine ⟨served, eq, length, fun t answer member => ?_⟩
  obtain ⟨xs, lists⟩ := all _ member
  exact ⟨lists.isRedBlack, lists.two_pow_shown_le cmp⟩

theorem pairwise_responses [TransCmp cmp] (ascending : xs.Pairwise (cmp · · = .lt))
    (requests : List (Request α)) :
    ∀ state ∈ responses cmp xs requests, state.1.Pairwise (cmp · · = .lt) := by
  induction requests generalizing xs with
  | nil => simp [responses]
  | cons request requests ih =>
      have next := pairwise_respond ascending request
      exact List.forall_mem_cons.2 ⟨next, ih next⟩

theorem transCmp_of (reverse : ∀ a b, cmp a b = (cmp b a).swap)
    (less : ∀ a b c, cmp a b = .lt → cmp b c = .lt → cmp a c = .lt)
    (equal : ∀ a b c, cmp a b = .eq → cmp b c = .eq → cmp a c = .eq) : TransCmp cmp where
  eq_swap := reverse _ _
  isLE_trans {a b c} first second := by
    have back : cmp a c = .gt → cmp c a = .lt := fun greater => by rw [reverse, greater]; rfl
    have forth : ∀ {a b}, cmp a b = .lt → cmp b a ≠ .eq := fun {a b} lt eq => by
      rw [reverse, eq] at lt
      cases lt
    rw [← Ordering.ne_gt_iff_isLE]
    intro greater
    cases ab : cmp a b <;> cases bc : cmp b c <;> simp [ab, bc] at first second
    case lt.lt => exact absurd ((less _ _ _ ab bc).symm.trans greater) (by decide)
    case lt.eq => exact forth (less _ _ _ (back greater) ab) bc
    case eq.lt => exact forth (less _ _ _ bc (back greater)) ab
    case eq.eq => exact absurd ((equal _ _ _ ab bc).symm.trans greater) (by decide)

theorem serve_eq_responses (cmp : α → α → Ordering) (reverse : ∀ a b, cmp a b = (cmp b a).swap)
    (less : ∀ a b c, cmp a b = .lt → cmp b c = .lt → cmp a c = .lt)
    (equal : ∀ a b c, cmp a b = .eq → cmp b c = .eq → cmp a c = .eq)
    (requests : List (Request α)) :
    ∃ served, ({} : LinkedTree α).serve cmp requests = .ok served ∧
      served.map Prod.snd = (responses cmp [] requests).map Prod.snd ∧
      ∀ state ∈ responses cmp [] requests, state.1.Pairwise (cmp · · = .lt) := by
  have lawful := transCmp_of reverse less equal
  obtain ⟨served, eq, _, _, answers⟩ := serve_lists lists_empty cmp requests
  exact ⟨served, eq, answers lawful .nil, pairwise_responses .nil requests⟩

theorem serve_eq_responses_keyed : ∃ served,
    ({} : LinkedTree (Nat × Nat)).serve (fun a b => compare a.1 b.1)
      [.add (2, 0), .add (1, 0), .add (2, 7), .has (3, 0), .remove (1, 9), .list, .drain, .size] =
        .ok served ∧
      served.map Prod.snd = [.element none, .element none, .element (some (2, 0)), .truth false,
        .element (some (1, 0)), .elements [(2, 7)], .elements [(2, 7)], .count 0] := by
  obtain ⟨served, eq, answers, _⟩ := serve_eq_responses
    (fun a b : Nat × Nat => compare a.1 b.1) (fun a b => OrientedCmp.eq_swap)
    (fun a b c => TransCmp.lt_trans) (fun a b c => TransCmp.eq_trans)
    [.add (2, 0), .add (1, 0), .add (2, 7), .has (3, 0), .remove (1, 9), .list, .drain, .size]
  exact ⟨served, eq, answers.trans (by decide)⟩

end LinkedTree

end LongestMatch
