import Mathlib.Data.Bool.Basic
import Mathlib.Data.List.Forall2
import Mathlib.Data.List.Perm.Basic
import LongestMatch.Proofs.Arcs.Overlay
import LongestMatch.Proofs.HandlerTable
import LongestMatch.Saved.Basic

/-!
# Which saved automata load

A saved automaton loads if it has a node and all its nodes are well formed, and only then
(`load_decided`). The ranges of a node are compared only with their neighbours, once they are
sorted; that this finds every overlap rests on the order (`overlapsNext_sortBounds`). Where nothing
overlaps, the overlay that builds a node only sorts its arcs (`foldl_overlay_perm`).
-/

namespace LongestMatch

variable {R : Type}

namespace ArcSet

theorem foldl_overlay_perm {arcs : List Arc} (apart : arcs.Pairwise Arc.Apart) (s : ArcSet)
    (across : ∀ a ∈ arcs, ∀ x ∈ s.arcs, a.Apart x) :
    (arcs.foldl ArcSet.overlay s).arcs.Perm (s.arcs ++ arcs) := by
  induction arcs generalizing s with
  | nil => rw [List.append_nil]; exact .refl _
  | cons a arcs ih =>
      obtain ⟨head, tail⟩ := List.pairwise_cons.1 apart
      have laid : (s.overlay a).arcs.Perm (a :: s.arcs) :=
        Arc.overlay_perm (across a List.mem_cons_self)
      have across' : ∀ b ∈ arcs, ∀ x ∈ (s.overlay a).arcs, b.Apart x := by
        intro b member x there
        rcases List.mem_cons.1 (laid.mem_iff.1 there) with rfl | old
        · exact (head b member).symm
        · exact across b (List.mem_cons_of_mem _ member) x old
      refine (ih tail (s.overlay a) across').trans ((laid.append_right arcs).trans ?_)
      exact List.perm_middle.symm

end ArcSet

theorem overlapsNext_eq_false {bounds : List (Nat × Nat)} (ordered : ∀ b ∈ bounds, b.1 ≤ b.2) :
    overlapsNext bounds = false ↔ bounds.Pairwise fun a b => a.2 < b.1 := by
  induction bounds with
  | nil => simp [overlapsNext]
  | cons a bounds ih =>
      have tail := ih fun b member => ordered b (List.mem_cons_of_mem _ member)
      cases bounds with
      | nil => simp [overlapsNext]
      | cons b bounds =>
          have next : b.1 ≤ b.2 := ordered b (List.mem_cons_of_mem _ List.mem_cons_self)
          rw [overlapsNext, Bool.or_eq_false_iff, tail, decide_eq_false_iff_not, Nat.not_le,
            List.pairwise_cons (a := a)]
          constructor
          · rintro ⟨first, rest⟩
            refine ⟨fun c member => ?_, rest⟩
            rcases List.mem_cons.1 member with rfl | later
            · exact first
            · have := (List.pairwise_cons.1 rest).1 c later
              omega
          · rintro ⟨first, rest⟩
            exact ⟨first b List.mem_cons_self, rest⟩

theorem sortBounds_perm (bounds : List (Nat × Nat)) : (sortBounds bounds).Perm bounds :=
  List.mergeSort_perm ..

theorem pairwise_sortBounds (bounds : List (Nat × Nat)) :
    (sortBounds bounds).Pairwise fun a b => a.1 ≤ b.1 := by
  have sorted : (sortBounds bounds).Pairwise fun a b => a.1 < b.1 || (a.1 == b.1 && a.2 ≤ b.2) :=
    List.pairwise_mergeSort (fun a b c => by grind) (fun a b => by grind) bounds
  refine sorted.imp fun {a b} le => ?_
  simp only [Bool.or_eq_true, Bool.and_eq_true, decide_eq_true_eq, beq_iff_eq] at le
  omega

theorem overlapsNext_sortBounds {bounds : List (Nat × Nat)} (ordered : ∀ b ∈ bounds, b.1 ≤ b.2) :
    overlapsNext (sortBounds bounds) = false ↔
      bounds.Pairwise fun a b => a.2 < b.1 ∨ b.2 < a.1 := by
  have perm := sortBounds_perm bounds
  have ordered' : ∀ b ∈ sortBounds bounds, b.1 ≤ b.2 := fun b member =>
    ordered b (perm.mem_iff.1 member)
  rw [overlapsNext_eq_false ordered', ← perm.pairwise_iff fun apart => Or.symm apart]
  constructor
  · exact fun before => before.imp Or.inl
  · intro apart
    refine (apart.and (pairwise_sortBounds bounds)).imp_of_mem fun {a b} _ member pair => ?_
    have := ordered' b member
    omega

section Forall₂

variable {α β : Type} {relation : α → β → Prop} {xs : List α} {ys : List β}

theorem exists_of_forall₂ (related : List.Forall₂ relation xs ys) {i : Nat} {x : α}
    (here : xs[i]? = some x) : ∃ y, ys[i]? = some y ∧ relation x y := by
  obtain ⟨inside, rfl⟩ := List.getElem?_eq_some_iff.1 here
  have inside' : i < ys.length := related.length_eq ▸ inside
  exact ⟨ys[i], List.getElem?_eq_getElem inside', related.get inside inside'⟩

theorem exists_mem_of_forall₂ (related : List.Forall₂ relation xs ys) {x : α} (member : x ∈ xs) :
    ∃ y ∈ ys, relation x y := by
  obtain ⟨i, here⟩ := List.mem_iff_getElem?.1 member
  obtain ⟨y, there, same⟩ := exists_of_forall₂ related here
  exact ⟨y, List.mem_of_getElem? there, same⟩

theorem forall₂_trans {γ : Type} {relation' : β → γ → Prop} {relation'' : α → γ → Prop} {zs : List γ}
    (left : List.Forall₂ relation xs ys) (right : List.Forall₂ relation' ys zs)
    (carried : ∀ {x y z}, relation x y → relation' y z → relation'' x z) :
    List.Forall₂ relation'' xs zs := by
  induction left generalizing zs with
  | nil =>
      cases right
      exact .nil
  | cons here _ ih =>
      cases right with
      | cons there rest => exact .cons (carried here there) (ih rest)

theorem pairwise_of_forall₂ {before : α → α → Prop} {before' : β → β → Prop}
    (related : List.Forall₂ relation xs ys)
    (carried : ∀ {x x' y y'}, relation x y → relation x' y' → before x x' → before' y y')
    (pairwise : xs.Pairwise before) : ys.Pairwise before' := by
  induction related with
  | nil => exact .nil
  | cons here rest ih =>
      obtain ⟨head, tail⟩ := List.pairwise_cons.1 pairwise
      refine List.pairwise_cons.2 ⟨fun y member => ?_, ih tail⟩
      obtain ⟨x, there, related⟩ := exists_mem_of_forall₂ rest.flip member
      exact carried here related (head x there)

end Forall₂

theorem mapM_cases {α β ε : Type} (f : α → Except ε β) (xs : List α) :
    (∃ ys, xs.mapM f = .ok ys ∧ List.Forall₂ (fun x y => f x = .ok y) xs ys) ∨
      ∃ x ∈ xs, ∃ e, f x = .error e ∧ xs.mapM f = .error e := by
  induction xs with
  | nil => exact .inl ⟨[], rfl, .nil⟩
  | cons x xs ih =>
      rw [List.mapM_cons]
      cases here : f x with
      | error e => exact .inr ⟨x, List.mem_cons_self, e, here, rfl⟩
      | ok y =>
          rcases ih with ⟨ys, all, each⟩ | ⟨x', member, e, fails, failed⟩
          · exact .inl ⟨y :: ys, by rw [all]; rfl, .cons here each⟩
          · exact .inr ⟨x', List.mem_cons_of_mem _ member, e, fails, by rw [failed]; rfl⟩

theorem exists_mapM {α β ε : Type} (f : α → Except ε β) (relation : α → β → Prop) {xs : List α}
    (each : ∀ x ∈ xs, ∃ y, f x = .ok y ∧ relation x y) :
    ∃ ys, xs.mapM f = .ok ys ∧ List.Forall₂ relation xs ys := by
  induction xs with
  | nil => exact ⟨[], rfl, .nil⟩
  | cons x xs ih =>
      obtain ⟨y, here, related⟩ := each x List.mem_cons_self
      obtain ⟨ys, rest, related'⟩ := ih fun x member => each x (List.mem_cons_of_mem _ member)
      exact ⟨y :: ys, by rw [List.mapM_cons, here, rest]; rfl, .cons related related'⟩

namespace SavedEdge

structure Valid (size : Nat) (e : SavedEdge) : Prop where
  target : e.target < size
  ordered : e.first ≤ e.last
  inside : e.last ≤ maxCode

def Apart (d e : SavedEdge) : Prop := d.last < e.first ∨ e.last < d.first

structure Restores (e : SavedEdge) (a : Arc) : Prop where
  first : a.range.first = e.first
  last : a.range.last = e.last
  targets : a.targets = [e.target]

theorem arc_cases (size place : Nat) (e : SavedEdge) :
    (∃ a, e.arc size place = .ok a ∧ e.Valid size ∧ e.Restores a) ∨
      (size ≤ e.target ∧ e.arc size place = .error (.badSaved (.missingNode place e.target))) ∨
      (¬ (e.first ≤ e.last ∧ e.last ≤ maxCode) ∧
        e.arc size place = .error (.malformedRange e.first e.last)) := by
  unfold arc CodeRange.ofBounds CodeRange.ofBounds?
  by_cases missing : size ≤ e.target
  · exact .inr (.inl ⟨missing, if_pos missing⟩)
  · rw [if_neg missing]
    by_cases bounds : e.first ≤ e.last ∧ e.last ≤ maxCode
    · rw [dif_pos bounds]
      exact .inl ⟨_, rfl, ⟨Nat.not_le.1 missing, bounds.1, bounds.2⟩, ⟨rfl, rfl, rfl⟩⟩
    · rw [dif_neg bounds]
      exact .inr (.inr ⟨bounds, rfl⟩)

theorem Restores.apart {d e : SavedEdge} {a b : Arc} (left : d.Restores a) (right : e.Restores b)
    (apart : d.Apart e) : a.Apart b := by
  unfold Arc.Apart Arc.Before
  rw [left.last, left.first, right.last, right.first]
  exact apart

end SavedEdge

namespace SavedNode

structure Valid (table : HandlerTable R) (size : Nat) (n : SavedNode) : Prop where
  tags : ∀ tag ∈ n.handlers, tag ∈ table.tags
  edges : ∀ e ∈ n.edges, e.Valid size
  apart : n.edges.Pairwise SavedEdge.Apart

inductive Defective (table : HandlerTable R) (size place : Nat) (n : SavedNode) : Error → Prop where
  | tag {tag : String} (member : tag ∈ n.handlers) (unknown : tag ∉ table.tags) :
      Defective table size place n (.badSaved (.unknownTag tag))
  | target {e : SavedEdge} (member : e ∈ n.edges) (missing : size ≤ e.target) :
      Defective table size place n (.badSaved (.missingNode place e.target))
  | range {e : SavedEdge} (member : e ∈ n.edges) (bounds : ¬ (e.first ≤ e.last ∧ e.last ≤ maxCode)) :
      Defective table size place n (.malformedRange e.first e.last)
  | overlap (shared : ¬ n.edges.Pairwise SavedEdge.Apart) :
      Defective table size place n (.badSaved (.overlappingEdges place))

structure Restores (table : HandlerTable R) (n : SavedNode) (m : Node) : Prop where
  arcs : ∃ edges, edges.Perm n.edges ∧ List.Forall₂ SavedEdge.Restores edges m.arcs.arcs
  ascending : m.arcs.arcs.Pairwise Arc.Before
  epsilon : m.epsilon = none
  handlers : List.Forall₂ (fun tag h => table.find? tag = some h) n.handlers m.handlers

theorem Defective.not_valid {table : HandlerTable R} {size place : Nat} {n : SavedNode} {e : Error}
    (defective : n.Defective table size place e) : ¬ n.Valid table size := by
  intro valid
  cases defective with
  | tag member unknown => exact unknown (valid.tags _ member)
  | target member missing => exact absurd (valid.edges _ member).target (Nat.not_lt.2 missing)
  | range member bounds =>
      have edge := valid.edges _ member
      exact bounds ⟨edge.ordered, edge.inside⟩
  | overlap shared => exact shared valid.apart

theorem resolve_cases (table : HandlerTable R) (tag : String) :
    (∃ h, resolve table tag = .ok h ∧ tag ∈ table.tags ∧ table.find? tag = some h) ∨
      (tag ∉ table.tags ∧ resolve table tag = .error (.badSaved (.unknownTag tag))) := by
  unfold resolve
  cases found : table.find? tag with
  | some h =>
      obtain ⟨_, known⟩ := HandlerTable.exists_entry? found
      exact .inl ⟨h, rfl, HandlerTable.mem_tags known, rfl⟩
  | none => exact .inr ⟨HandlerTable.find?_eq_none.1 found, rfl⟩

theorem handlers_cases (table : HandlerTable R) (tags : List String) :
    (∃ handlers, tags.mapM (resolve table) = .ok handlers ∧ (∀ tag ∈ tags, tag ∈ table.tags) ∧
        List.Forall₂ (fun tag h => table.find? tag = some h) tags handlers) ∨
      ∃ tag ∈ tags, tag ∉ table.tags ∧
        tags.mapM (resolve table) = .error (.badSaved (.unknownTag tag)) := by
  rcases mapM_cases (resolve table) tags with ⟨handlers, all, each⟩ | ⟨tag, member, _, fails, failed⟩
  · have found : List.Forall₂ (fun tag h => tag ∈ table.tags ∧ table.find? tag = some h)
        tags handlers := by
      refine each.imp fun tag h resolved => ?_
      rcases resolve_cases table tag with ⟨h', there, registered⟩ | ⟨_, fails⟩
      · cases resolved.symm.trans there
        exact registered
      · cases resolved.symm.trans fails
    exact .inl ⟨handlers, all, (List.forall₂_and_left ..).1 found⟩
  · rcases resolve_cases table tag with ⟨h, there, _⟩ | ⟨unknown, fails'⟩
    · cases fails.symm.trans there
    · cases fails.symm.trans fails'
      exact .inr ⟨tag, member, unknown, failed⟩

theorem arcs_cases (size place : Nat) (edges : List SavedEdge) :
    (∃ arcs, edges.mapM (·.arc size place) = .ok arcs ∧ (∀ e ∈ edges, e.Valid size) ∧
        List.Forall₂ SavedEdge.Restores edges arcs) ∨
      ∃ e ∈ edges,
        (size ≤ e.target ∧ edges.mapM (·.arc size place) =
          .error (.badSaved (.missingNode place e.target))) ∨
        (¬ (e.first ≤ e.last ∧ e.last ≤ maxCode) ∧ edges.mapM (·.arc size place) =
          .error (.malformedRange e.first e.last)) := by
  rcases mapM_cases (·.arc size place) edges with ⟨arcs, all, each⟩ | ⟨e, member, _, fails, failed⟩
  · have each' : List.Forall₂ (fun e a => e.Valid size ∧ SavedEdge.Restores e a) edges arcs := by
      refine each.imp fun e a restored => ?_
      rcases e.arc_cases size place with ⟨a', found, valid, restores⟩ | ⟨_, fails⟩ | ⟨_, fails⟩
      · cases restored.symm.trans found
        exact ⟨valid, restores⟩
      · cases restored.symm.trans fails
      · cases restored.symm.trans fails
    exact .inl ⟨arcs, all, (List.forall₂_and_left ..).1 each'⟩
  · refine .inr ⟨e, member, ?_⟩
    rcases e.arc_cases size place with ⟨a, found, _⟩ | ⟨missing, fails'⟩ | ⟨bounds, fails'⟩
    · cases fails.symm.trans found
    · cases fails.symm.trans fails'
      exact .inl ⟨missing, failed⟩
    · cases fails.symm.trans fails'
      exact .inr ⟨bounds, failed⟩

theorem restores_arcs {edges : List SavedEdge} {arcs : List Arc}
    (restored : List.Forall₂ SavedEdge.Restores edges arcs)
    (apart : edges.Pairwise SavedEdge.Apart) :
    ∃ sorted, sorted.Perm edges ∧
      List.Forall₂ SavedEdge.Restores sorted (arcs.foldl ArcSet.overlay ∅).arcs := by
  have apart' : arcs.Pairwise Arc.Apart :=
    pairwise_of_forall₂ restored (fun left right => left.apart right) apart
  have perm : (arcs.foldl ArcSet.overlay ∅).arcs.Perm arcs :=
    ArcSet.foldl_overlay_perm apart' ∅ fun _ _ _ member => nomatch member
  obtain ⟨sorted, each, same⟩ := List.perm_comp_forall₂ perm restored.flip
  exact ⟨sorted, same, each.flip⟩

theorem overlaps_iff {edges : List SavedEdge} {size : Nat} (valid : ∀ e ∈ edges, e.Valid size) :
    overlapsNext (sortBounds (edges.map SavedEdge.bounds)) = false ↔
      edges.Pairwise SavedEdge.Apart := by
  rw [overlapsNext_sortBounds, List.pairwise_map]
  · rfl
  · intro b member
    obtain ⟨e, there, rfl⟩ := List.mem_map.1 member
    exact (valid e there).ordered

theorem node_cases (table : HandlerTable R) (size place : Nat) (n : SavedNode) :
    (∃ m, n.node table size place = .ok m ∧ n.Valid table size ∧ n.Restores table m) ∨
      ∃ e, n.node table size place = .error e ∧ n.Defective table size place e := by
  unfold node
  rcases handlers_cases table n.handlers with ⟨handlers, found, tags, each⟩ | ⟨tag, member, unknown, failed⟩
  · rw [found]
    rcases arcs_cases size place n.edges with ⟨arcs, all, valid, restored⟩ | ⟨e, member, wrong⟩
    · simp only [all, bind, Except.bind]
      by_cases apart : n.edges.Pairwise SavedEdge.Apart
      · rw [(overlaps_iff valid).2 apart]
        exact .inl ⟨_, rfl, ⟨tags, valid, apart⟩, ⟨restores_arcs restored apart,
          (arcs.foldl ArcSet.overlay ∅).disjoint, rfl, each⟩⟩
      · rw [Bool.eq_true_of_not_eq_false (mt (overlaps_iff valid).1 apart)]
        exact .inr ⟨_, rfl, .overlap apart⟩
    · rcases wrong with ⟨missing, failed⟩ | ⟨bounds, failed⟩
      · exact .inr ⟨_, by rw [failed]; rfl, .target member missing⟩
      · exact .inr ⟨_, by rw [failed]; rfl, .range member bounds⟩
  · exact .inr ⟨_, by rw [failed]; rfl, .tag member unknown⟩

end SavedNode

namespace Saved

structure Valid (table : HandlerTable R) (s : Saved) : Prop where
  start : s.nodes ≠ []
  nodes : ∀ n ∈ s.nodes, n.Valid table s.nodes.length

structure Restores (table : HandlerTable R) (s : Saved) (a : Automaton R) : Prop where
  start : a.start = 0
  handlers : a.handlers = table
  nodes : List.Forall₂ (SavedNode.Restores table) s.nodes a.graph.nodes.toList

inductive Defective (table : HandlerTable R) (s : Saved) : Error → Prop where
  | start (none : s.nodes = []) : Defective table s (.badSaved .noStart)
  | node {place : Nat} {n : SavedNode} {e : Error} (listed : s.nodes[place]? = some n)
      (defective : n.Defective table s.nodes.length place e) : Defective table s e

theorem Defective.not_valid {table : HandlerTable R} {s : Saved} {e : Error}
    (defective : s.Defective table e) : ¬ s.Valid table := by
  intro valid
  cases defective with
  | start none => exact valid.start none
  | node listed defective =>
      exact defective.not_valid (valid.nodes _ (List.mem_of_getElem? listed))

theorem nodesFrom_cases (table : HandlerTable R) (size place : Nat) (ns : List SavedNode) :
    (∃ ms, nodesFrom table size place ns = .ok ms ∧ (∀ n ∈ ns, n.Valid table size) ∧
        List.Forall₂ (SavedNode.Restores table) ns ms) ∨
      ∃ e i, ∃ n : SavedNode, nodesFrom table size place ns = .error e ∧ ns[i]? = some n ∧
        n.Defective table size (place + i) e := by
  induction ns generalizing place with
  | nil => exact .inl ⟨[], rfl, List.forall_mem_nil _, .nil⟩
  | cons n ns ih =>
      rw [nodesFrom]
      rcases n.node_cases table size place with ⟨m, here, valid, restored⟩ | ⟨e, fails, defective⟩
      · rcases ih (place + 1) with ⟨ms, rest, valid', restored'⟩ | ⟨e, i, n', fails, listed, defective⟩
        · refine .inl ⟨m :: ms, by rw [here, rest]; rfl, ?_, .cons restored restored'⟩
          exact List.forall_mem_cons.2 ⟨valid, valid'⟩
        · refine .inr ⟨e, i + 1, n', by rw [here, fails]; rfl, listed, ?_⟩
          rwa [Nat.add_right_comm, Nat.add_assoc place i 1] at defective
      · exact .inr ⟨e, 0, n, by rw [fails]; rfl, rfl, defective⟩

theorem load_cases (table : HandlerTable R) (s : Saved) :
    (∃ a, s.load table = .ok a ∧ s.Valid table ∧ s.Restores table a) ∨
      ∃ e, s.load table = .error e ∧ s.Defective table e := by
  unfold load
  by_cases none : s.nodes = []
  · rw [none]
    exact .inr ⟨_, rfl, .start none⟩
  · rw [List.isEmpty_eq_false_iff.2 none]
    rcases nodesFrom_cases table s.nodes.length 0 s.nodes with
      ⟨ms, all, valid, restored⟩ | ⟨e, i, n, fails, listed, defective⟩
    · exact .inl ⟨_, by rw [all]; rfl, ⟨none, valid⟩, ⟨rfl, rfl, restored⟩⟩
    · rw [Nat.zero_add] at defective
      exact .inr ⟨e, by rw [fails]; rfl, .node listed defective⟩

theorem Defective.form {table : HandlerTable R} {s : Saved} {e : Error}
    (defective : s.Defective table e) :
    (∃ defect, e = .badSaved defect) ∨ ∃ first last, e = .malformedRange first last := by
  cases defective with
  | start none => exact .inl ⟨_, rfl⟩
  | node listed defective =>
      cases defective with
      | tag | target | overlap => exact .inl ⟨_, rfl⟩
      | range => exact .inr ⟨_, _, rfl⟩

theorem load_decided (table : HandlerTable R) (s : Saved) :
    ((∃ a, s.load table = .ok a) ↔ s.Valid table) ∧
      ((∃ a, s.load table = .ok a ∧ s.Restores table a) ∨
        ∃ e, s.load table = .error e ∧ s.Defective table e ∧
          ((∃ defect, e = .badSaved defect) ∨ ∃ first last, e = .malformedRange first last)) := by
  rcases s.load_cases table with ⟨a, loaded, valid, restored⟩ | ⟨e, failed, defective⟩
  · exact ⟨⟨fun _ => valid, fun _ => ⟨a, loaded⟩⟩, .inl ⟨a, loaded, restored⟩⟩
  · refine ⟨⟨fun ⟨a, loaded⟩ => ?_, fun valid => absurd valid defective.not_valid⟩,
      .inr ⟨e, failed, defective, defective.form⟩⟩
    cases failed.symm.trans loaded

end Saved

end LongestMatch
