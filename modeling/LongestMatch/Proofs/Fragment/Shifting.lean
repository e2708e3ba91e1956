import LongestMatch.Proofs.Fragment.Copy
import LongestMatch.Proofs.Graph.Renamed
import LongestMatch.Proofs.Outcome

namespace LongestMatch

open Graph Recorded

variable {α β α' β' : Type} {g : Graph}

/-- What the first computation does to a graph, the second one does to it behind the nodes of `g`. -/
def Build.Shifts (g : Graph) (same : α → β → Prop) (work : Build α) (work' : Build β) : Prop :=
  Echoes g.followedBy same work work'

namespace Build.Shifts

variable {same : α → β → Prop} {same' : α' → β' → Prop} {work : Build α} {work' : Build β}
  {next : α → Build α'} {next' : β → Build β'}

theorem pure {a : α} {b : β} (equal : same a b) : Shifts g same (pure a) (pure b) :=
  Echoes.pure equal

theorem bind (first : Shifts g same work work')
    (rest : ∀ a b, same a b → Shifts g same' (next a) (next' b)) :
    Shifts g same' (work >>= next) (work' >>= next') := Echoes.bind first rest

end Build.Shifts

namespace Build

theorem shifts_alloc : Shifts g (fun p q => q = g.behind p) alloc alloc := by
  rintro x ⟨_, log⟩ rfl
  exact .ok (g.size_followedBy x.state) (g.followedBy_push x.state).symm

theorem shifts_node (p : NodeId) :
    Shifts g (fun n m => m = n.renamed g.behind) (node p) (node (g.behind p)) := by
  refine Echoes.bind .current ?_
  rintro k _ rfl
  rw [node?_followedBy]
  cases k.node? p with
  | none => exact .fault _
  | some n => exact .pure rfl

theorem shifts_modifyNode (p : NodeId) {change change' : Node → Node}
    (same : ∀ n, (change n).renamed g.behind = change' (n.renamed g.behind)) :
    Shifts g (fun _ _ => True) (modifyNode p change) (modifyNode (g.behind p) change') :=
  (shifts_node p).bind fun _ _ _ => .change fun k => (g.followedBy_modify k p same).symm

theorem shifts_addEdge (p : NodeId) (e : Edge) :
    Shifts g (fun _ _ => True) (addEdge p e) (addEdge (g.behind p) (e.renamed g.behind)) :=
  shifts_modifyNode p fun n => n.renamed_addEdge g.behind_injective e

theorem shifts_addHandler (p : NodeId) (h : HandlerId) :
    Shifts g (fun _ _ => True) (addHandler p h) (addHandler (g.behind p) h) :=
  shifts_modifyNode p fun _ => rfl

theorem shifts_range (first last : Nat) : Shifts g Eq (range first last) (range first last) := by
  rw [range]
  cases CodeRange.ofBounds first last with
  | ok r => exact .pure rfl
  | error e => exact .fail e

end Build

namespace Fragment

open Build

variable {f next other : Fragment}

theorem shifts_fresh : Shifts g (fun f f' => f' = f.renamed g.behind) fresh fresh := by
  refine shifts_alloc.bind ?_
  rintro entry _ rfl
  refine shifts_alloc.bind ?_
  rintro exit _ rfl
  exact .pure rfl

theorem shifts_addArcs (f : Fragment) (rs : List CodeRange) :
    Shifts g (fun _ _ => True) (f.addArcs rs) ((f.renamed g.behind).addArcs rs) := by
  induction rs with
  | nil => exact .pure trivial
  | cons r rs ih => exact (shifts_addEdge f.entry (.arc ⟨r, [f.exit]⟩)).bind fun _ _ _ => ih

theorem shifts_addBounds (f : Fragment) (bounds : List (Nat × Nat)) :
    Shifts g (fun _ _ => True) (f.addBounds bounds) ((f.renamed g.behind).addBounds bounds) := by
  induction bounds with
  | nil => exact .pure trivial
  | cons pair bounds ih =>
      refine (shifts_range pair.1 pair.2).bind ?_
      rintro r _ rfl
      exact (shifts_addEdge f.entry (.arc ⟨r, [f.exit]⟩)).bind fun _ _ _ => ih

theorem shifts_ranges (bounds : List (Nat × Nat)) :
    Shifts g Eq (ranges bounds) (ranges bounds) := by
  induction bounds with
  | nil => exact .pure rfl
  | cons pair bounds ih =>
      refine (shifts_range pair.1 pair.2).bind ?_
      rintro r _ rfl
      refine ih.bind ?_
      rintro rs _ rfl
      exact .pure rfl

theorem shifts_literal (first last : Nat) :
    Shifts g (fun f f' => f' = f.renamed g.behind) (literal first last) (literal first last) := by
  refine shifts_fresh.bind ?_
  rintro f _ rfl
  exact (shifts_addBounds f _).bind fun _ _ _ => .pure rfl

theorem shifts_any : Shifts g (fun f f' => f' = f.renamed g.behind) any any := by
  refine shifts_fresh.bind ?_
  rintro f _ rfl
  exact (shifts_addArcs f _).bind fun _ _ _ => .pure rfl

theorem shifts_ofClass (bounds : List (Nat × Nat)) :
    Shifts g (fun f f' => f' = f.renamed g.behind) (ofClass bounds) (ofClass bounds) := by
  rw [ofClass]
  split
  · exact Echoes.fail_bind _ _ _
  · refine shifts_fresh.bind ?_
    rintro f _ rfl
    exact (shifts_addBounds f _).bind fun _ _ _ => .pure rfl

theorem shifts_ofNegatedClass (bounds : List (Nat × Nat)) :
    Shifts g (fun f f' => f' = f.renamed g.behind) (ofNegatedClass bounds)
      (ofNegatedClass bounds) := by
  rw [ofNegatedClass]
  split
  · exact Echoes.fail_bind _ _ _
  · refine (shifts_ranges bounds).bind ?_
    rintro rs _ rfl
    refine shifts_fresh.bind ?_
    rintro f _ rfl
    exact (shifts_addArcs f _).bind fun _ _ _ => .pure rfl

theorem shifts_concatenate (f next : Fragment) :
    Shifts g (fun f f' => f' = f.renamed g.behind) (f.concatenate next)
      ((f.renamed g.behind).concatenate (next.renamed g.behind)) :=
  (shifts_addEdge f.exit (.epsilon [next.entry])).bind fun _ _ _ => .pure rfl

theorem shifts_union (f other : Fragment) :
    Shifts g (fun f f' => f' = f.renamed g.behind) (f.union other)
      ((f.renamed g.behind).union (other.renamed g.behind)) := by
  refine shifts_fresh.bind ?_
  rintro both _ rfl
  refine (shifts_addEdge both.entry (.epsilon [f.entry, other.entry])).bind fun _ _ _ => ?_
  refine (shifts_addEdge f.exit (.epsilon [both.exit])).bind fun _ _ _ => ?_
  exact (shifts_addEdge other.exit (.epsilon [both.exit])).bind fun _ _ _ => .pure rfl

theorem shifts_star (f : Fragment) :
    Shifts g (fun f f' => f' = f.renamed g.behind) f.star (f.renamed g.behind).star := by
  refine shifts_fresh.bind ?_
  rintro loop _ rfl
  refine (shifts_addEdge loop.entry (.epsilon [f.entry, loop.exit])).bind fun _ _ _ => ?_
  exact (shifts_addEdge f.exit (.epsilon [f.entry, loop.exit])).bind fun _ _ _ => .pure rfl

namespace Copying

structure Shifted (g : Graph) (c c' : Copying) : Prop where
  seen : c'.seen = c.seen.map g.behind
  image : ∀ n, c'.image? (g.behind n) = (c.image? n).map g.behind
  sorted : c.images.Sorted
  sorted' : c'.images.Sorted

variable {c c' : Copying}

theorem Shifted.push (shifted : Shifted g c c') (n copy : NodeId) :
    Shifted g ⟨c.seen.push n, (c.images.insert (n, copy)).1⟩
      ⟨c'.seen.push (g.behind n), (c'.images.insert (g.behind n, g.behind copy)).1⟩ where
  seen := by rw [Array.map_push, shifted.seen]
  image m := by
    rw [image?_insert shifted.sorted, image?_insert shifted.sorted', shifted.image]
    by_cases same : n = m
    · rw [if_pos same, if_pos (congrArg g.behind same), Option.map_some]
    · rw [if_neg same, if_neg fun equal => same (g.behind_injective equal)]
  sorted := OrderedSet.sorted_insert shifted.sorted _
  sorted' := OrderedSet.sorted_insert shifted.sorted' _

theorem shifts_image (shifted : Shifted g c c') (n : NodeId) :
    Shifts g (fun p q => q.1 = g.behind p.1 ∧ Shifted g p.2 q.2) (c.image n)
      (c'.image (g.behind n)) := by
  rw [image, image, shifted.image]
  cases c.image? n with
  | some copy => exact .pure ⟨rfl, shifted⟩
  | none =>
      refine shifts_alloc.bind ?_
      rintro copy _ rfl
      exact .pure ⟨rfl, shifted.push n copy⟩

theorem shifts_imageList (shifted : Shifted g c c') (ns : List NodeId) :
    Shifts g (fun p q => q.1 = p.1.map g.behind ∧ Shifted g p.2 q.2) (c.imageList ns)
      (c'.imageList (ns.map g.behind)) := by
  induction ns generalizing c c' with
  | nil => exact .pure ⟨rfl, shifted⟩
  | cons n ns ih =>
      refine (shifts_image shifted n).bind ?_
      rintro ⟨copy, c₁⟩ ⟨_, c₁'⟩ ⟨rfl, shifted⟩
      refine (ih shifted).bind ?_
      rintro ⟨copies, c₂⟩ ⟨_, c₂'⟩ ⟨rfl, shifted⟩
      exact .pure ⟨rfl, shifted⟩

theorem shifts_copyArcs (shifted : Shifted g c c') (copy : NodeId) (arcs : List Arc) :
    Shifts g (Shifted g) (c.copyArcs copy arcs)
      (c'.copyArcs (g.behind copy) (arcs.map (Arc.mapped g.behind))) := by
  induction arcs generalizing c c' with
  | nil => exact .pure shifted
  | cons a arcs ih =>
      refine (shifts_imageList shifted a.targets).bind ?_
      rintro ⟨targets, c₁⟩ ⟨_, c₁'⟩ ⟨rfl, shifted⟩
      exact (shifts_addEdge copy (.arc { a with targets })).bind fun _ _ _ => ih shifted

theorem shifts_addHandlers (copy : NodeId) (handlers : List HandlerId) :
    Shifts g (fun _ _ => True) (handlers.forM (addHandler copy))
      (handlers.forM (addHandler (g.behind copy))) := by
  induction handlers with
  | nil => exact .pure trivial
  | cons h handlers ih => exact (shifts_addHandler copy h).bind fun _ _ _ => ih

theorem shifts_copyNode (shifted : Shifted g c c') (copy : NodeId) (n : Node) :
    Shifts g (Shifted g) (c.copyNode copy n)
      (c'.copyNode (g.behind copy) (n.renamed g.behind)) := by
  have epsilon : (n.renamed g.behind).epsilonTargets = n.epsilonTargets.map g.behind :=
    n.targets_renamed g.behind none
  refine (shifts_addHandlers copy n.handlers).bind fun _ _ _ => ?_
  refine (shifts_copyArcs shifted copy n.arcs.arcs).bind ?_
  intro c₁ c₁' shifted
  rw [epsilon, List.isEmpty_map]
  split
  · exact .pure shifted
  · refine (shifts_imageList shifted n.epsilonTargets).bind ?_
    rintro ⟨targets, c₂⟩ ⟨_, c₂'⟩ ⟨rfl, shifted⟩
    exact (shifts_addEdge copy (.epsilon targets)).bind fun _ _ _ => .pure shifted

theorem shifts_finish (shifted : Shifted g c c') {bound bound' : Nat} (le : bound ≤ bound') (i : Nat) :
    Shifts g (Shifted g) (c.finish bound i) (c'.finish bound' i) := by
  induction bound generalizing bound' c c' i with
  | zero =>
      rw [finish, finish.eq_def, shifted.seen, Array.getElem?_map]
      cases c.seen[i]? with
      | none => exact .pure shifted
      | some n => exact .fault _
  | succ bound ih =>
      -- The bound is the number of nodes, so that more moves are allowed behind other nodes.
      obtain ⟨bound', rfl⟩ := Nat.exists_eq_succ_of_ne_zero (Nat.ne_zero_of_lt le)
      rw [finish, finish, shifted.seen, Array.getElem?_map]
      cases c.seen[i]? with
      | none => exact .pure shifted
      | some n =>
          simp only [Option.map_some, shifted.image]
          cases c.image? n with
          | none => exact .fault _
          | some copy =>
              refine (shifts_node n).bind ?_
              rintro copied _ rfl
              refine (shifts_copyNode shifted copy copied).bind fun _ _ shifted => ?_
              exact ih shifted (Nat.le_of_succ_le_succ le) (i + 1)

end Copying

theorem shifts_copy (f : Fragment) :
    Shifts g (fun f f' => f' = f.renamed g.behind) f.copy (f.renamed g.behind).copy := by
  have blank : Copying.Shifted g {} {} :=
    ⟨Array.map_empty.symm, fun _ => rfl, OrderedSet.sorted_empty, OrderedSet.sorted_empty⟩
  refine Echoes.bind .current ?_
  rintro k _ rfl
  refine (Copying.shifts_image blank f.entry).bind ?_
  rintro ⟨entry, c⟩ ⟨_, c'⟩ ⟨rfl, shifted⟩
  have more : copyBound k ≤ copyBound (g.followedBy k) := by
    rw [copyBound, copyBound, size_followedBy]
    omega
  refine (Copying.shifts_finish shifted more 0).bind fun c c' shifted => ?_
  have exit : c'.image? (f.renamed g.behind).exit = (c.image? f.exit).map g.behind :=
    shifted.image f.exit
  rw [exit]
  cases c.image? f.exit with
  | some exit =>
      have found : Shifts g (fun p q => q = g.behind p) (pure exit) (pure (g.behind exit)) :=
        .pure rfl
      refine found.bind ?_
      rintro exit _ rfl
      exact (Echoes.record _ _).bind fun _ _ _ => .pure rfl
  | none =>
      refine shifts_alloc.bind ?_
      rintro exit _ rfl
      exact (Echoes.record _ _).bind fun _ _ _ => .pure rfl

theorem shifts_plus (f : Fragment) :
    Shifts g (fun f f' => f' = f.renamed g.behind) f.plus (f.renamed g.behind).plus := by
  refine (shifts_copy f).bind ?_
  rintro once _ rfl
  refine (shifts_star f).bind ?_
  rintro loop _ rfl
  exact shifts_concatenate once loop

end Fragment

end LongestMatch
