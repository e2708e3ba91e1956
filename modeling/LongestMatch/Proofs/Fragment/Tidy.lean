import Mathlib.Data.Multiset.UnionInter
import LongestMatch.Proofs.Fragment.Copy
import LongestMatch.Proofs.Outcome

/-!
# Tidy graphs

While fragments are combined, no edge leads into their entries and none leads out of their exits. An
operation joins the exit of one fragment to the entry of another one, and gives up both of them.
-/

namespace LongestMatch

open Build

namespace Graph

structure Plain (g : Graph) : Prop where
  inside : ∀ p label, ∀ q ∈ g.targets p label, q < g.size
  bare : ∀ p, (g.nodeD p).handlers = []

/-- A plain graph with some entries, which no edge leads to, and some exits, which have no edges. No
two entries are the same, and no two exits. -/
structure Tidy (g : Graph) (ins outs : Multiset NodeId) : Prop extends Plain g where
  nodup_ins : ins.Nodup
  nodup_outs : outs.Nodup
  ins_lt : ∀ p ∈ ins, p < g.size
  outs_lt : ∀ p ∈ outs, p < g.size
  unreached : ∀ q ∈ ins, ∀ p label, q ∉ g.targets p label
  blank : ∀ p ∈ outs, g.nodeD p = {}

variable {g : Graph} {ins outs ins' outs' : Multiset NodeId} {p : NodeId}

theorem tidy_empty : Tidy ∅ 0 0 where
  inside p label q target := by
    rw [targets_of_size_le (Nat.zero_le p)] at target
    cases target
  bare p := by rw [nodeD_of_size_le (Nat.zero_le p)]
  nodup_ins := Multiset.nodup_zero
  nodup_outs := Multiset.nodup_zero
  ins_lt p member := absurd member (Multiset.notMem_zero p)
  outs_lt p member := absurd member (Multiset.notMem_zero p)
  unreached q member := absurd member (Multiset.notMem_zero q)
  blank p member := absurd member (Multiset.notMem_zero p)

namespace Tidy

theorem fewer (tidy : g.Tidy ins outs) (ins_le : ins' ≤ ins) (outs_le : outs' ≤ outs) :
    g.Tidy ins' outs' where
  toPlain := tidy.toPlain
  nodup_ins := Multiset.nodup_of_le ins_le tidy.nodup_ins
  nodup_outs := Multiset.nodup_of_le outs_le tidy.nodup_outs
  ins_lt p member := tidy.ins_lt p (Multiset.mem_of_le ins_le member)
  outs_lt p member := tidy.outs_lt p (Multiset.mem_of_le outs_le member)
  unreached q member := tidy.unreached q (Multiset.mem_of_le ins_le member)
  blank p member := tidy.blank p (Multiset.mem_of_le outs_le member)

theorem push (tidy : g.Tidy ins outs) : (g.push {}).Tidy ins outs where
  inside p label q target := by
    rw [targets, nodeD_push_empty] at target
    rw [size_push]
    exact Nat.lt_succ_of_lt (tidy.inside p label q target)
  bare p := by rw [nodeD_push_empty, tidy.bare]
  nodup_ins := tidy.nodup_ins
  nodup_outs := tidy.nodup_outs
  ins_lt p member := by
    rw [size_push]
    exact Nat.lt_succ_of_lt (tidy.ins_lt p member)
  outs_lt p member := by
    rw [size_push]
    exact Nat.lt_succ_of_lt (tidy.outs_lt p member)
  unreached q member p label target := by
    rw [targets, nodeD_push_empty] at target
    exact tidy.unreached q member p label target
  blank p member := by rw [nodeD_push_empty, tidy.blank p member]

theorem fresh (tidy : g.Tidy ins outs) :
    ((g.push {}).push {}).Tidy (g.size ::ₘ ins) ((g.size + 1) ::ₘ outs) where
  toPlain := tidy.push.push.toPlain
  nodup_ins := Multiset.nodup_cons.2 ⟨fun old => Nat.lt_irrefl _ (tidy.ins_lt _ old), tidy.nodup_ins⟩
  nodup_outs := Multiset.nodup_cons.2
    ⟨fun old => Nat.not_lt.2 (Nat.le_succ _) (tidy.outs_lt _ old), tidy.nodup_outs⟩
  ins_lt := by
    refine Multiset.forall_mem_cons.2 ⟨?_, tidy.push.push.ins_lt⟩
    rw [size_push, size_push]
    exact Nat.lt_succ_of_lt (Nat.lt_succ_self _)
  outs_lt := by
    refine Multiset.forall_mem_cons.2 ⟨?_, tidy.push.push.outs_lt⟩
    rw [size_push, size_push]
    exact Nat.lt_succ_self _
  unreached := by
    refine Multiset.forall_mem_cons.2 ⟨fun p label target => ?_, tidy.push.push.unreached⟩
    rw [targets, nodeD_push_empty, nodeD_push_empty] at target
    exact Nat.lt_irrefl _ (tidy.inside p label _ target)
  blank := by
    refine Multiset.forall_mem_cons.2 ⟨?_, tidy.push.push.blank⟩
    rw [nodeD_push_empty, nodeD_push_empty, nodeD_of_size_le (Nat.le_succ _)]

theorem addEdge (tidy : g.Tidy ins outs) {e : Edge} (inside : p < g.size) (free : p ∉ outs)
    (targets : ∀ q ∈ e.targets, q < g.size ∧ q ∉ ins) :
    (g.modify p (·.addEdge e)).Tidy ins outs where
  inside x label q target := by
    rw [size_modify]
    rcases (mem_targets_addEdge inside e x label q).1 target with old | ⟨_, _, new⟩
    · exact tidy.inside x label q old
    · exact (targets q new).1
  bare x := by
    by_cases same : x = p
    · rw [same, nodeD_modify_self _ inside, ← tidy.bare p]
      cases e <;> rfl
    · rw [nodeD_modify_of_ne _ same, tidy.bare]
  nodup_ins := tidy.nodup_ins
  nodup_outs := tidy.nodup_outs
  ins_lt x member := by
    rw [size_modify]
    exact tidy.ins_lt x member
  outs_lt x member := by
    rw [size_modify]
    exact tidy.outs_lt x member
  unreached q member x label target := by
    rcases (mem_targets_addEdge inside e x label q).1 target with old | ⟨_, _, new⟩
    · exact tidy.unreached q member x label old
    · exact (targets q new).2 member
  blank x member := by
    rw [nodeD_modify_of_ne _ fun same : x = p => free (same ▸ member), tidy.blank x member]

end Tidy

end Graph

def Build.StillPlain : Failure → Logged Graph → Prop
  | .error _, x => x.state.Plain
  | .fault _, _ => True

variable {α : Type} {x : Logged Graph} {ins outs : Multiset NodeId}

theorem Build.Yields.leaves {work : Build α} {done : α → Logged Graph → Prop}
    {failed : Failure → Logged Graph → Prop} {a : α} {h : Graph} (yields : Yields work x.state a h)
    (holds : ∀ log, done a ⟨h, log⟩) : Leaves work x done failed := by
  obtain ⟨log, result⟩ := yields x.log
  exact .of_ok result (holds log)

theorem Build.leaves_range (tidy : x.state.Tidy ins outs) (first last : Nat) :
    Leaves (range first last) x (fun _ y => y = x) StillPlain := by
  rw [range]
  cases CodeRange.ofBounds first last with
  | ok r => exact .of_ok rfl rfl
  | error e => exact .of_error rfl tidy.toPlain

theorem Build.leaves_addEdge (tidy : x.state.Tidy ins outs) {p : NodeId} (e : Edge)
    (inside : p < x.state.size) (free : p ∉ outs)
    (targets : ∀ q ∈ e.targets, q < x.state.size ∧ q ∉ ins) :
    Leaves (addEdge p e) x (fun _ y => y.state.Tidy ins outs ∧ y.state.size = x.state.size)
      StillPlain :=
  (yields_addEdge inside e).leaves fun _ => ⟨tidy.addEdge inside free targets, Graph.size_modify ..⟩

namespace Fragment

variable {f next other : Fragment}

def LeavesTidy (work : Build Fragment) (x : Logged Graph) (ins outs : Multiset NodeId) : Prop :=
  Leaves work x (fun f y => y.state.Tidy (f.entry ::ₘ ins) (f.exit ::ₘ outs)) StillPlain

structure Free (f : Fragment) (x : Logged Graph) (ins outs : Multiset NodeId) : Prop where
  tidy : x.state.Tidy ins outs
  entry_lt : x.state.HasNode f.entry
  exit_lt : x.state.HasNode f.exit
  entry : f.entry ∉ outs
  exit : f.exit ∉ ins

theorem leaves_fresh (tidy : x.state.Tidy ins outs) :
    Leaves fresh x (fun f y => f.Free y (f.entry ::ₘ ins) (f.exit ::ₘ outs)) StillPlain := by
  have tidy' := tidy.fresh
  refine (yields_fresh x.state).leaves fun _ => ⟨tidy', tidy'.ins_lt _ (Multiset.mem_cons_self _ _),
    tidy'.outs_lt _ (Multiset.mem_cons_self _ _), fun member => ?_, fun member => ?_⟩
  · rcases Multiset.mem_cons.1 member with same | old
    · exact Nat.succ_ne_self _ same.symm
    · exact Nat.lt_irrefl _ (tidy.outs_lt _ old)
  · rcases Multiset.mem_cons.1 member with same | old
    · exact Nat.succ_ne_self _ same
    · exact Nat.not_lt.2 (Nat.le_succ _) (tidy.ins_lt _ old)

theorem leaves_addArc (free : f.Free x ins outs) (r : CodeRange) :
    Leaves (addEdge f.entry (.arc ⟨r, [f.exit]⟩)) x (fun _ y => f.Free y ins outs) StillPlain := by
  refine (leaves_addEdge free.tidy _ free.entry_lt free.entry ?_).mono ?_
  · rintro q member
    rw [List.mem_singleton.1 member]
    exact ⟨free.exit_lt, free.exit⟩
  · rintro _ y ⟨tidy, size⟩
    exact ⟨tidy, Nat.lt_of_lt_of_eq free.entry_lt size.symm, Nat.lt_of_lt_of_eq free.exit_lt size.symm,
      free.entry, free.exit⟩

theorem leaves_addArcs (free : f.Free x ins outs) (rs : List CodeRange) :
    Leaves (f.addArcs rs) x (fun _ y => f.Free y ins outs) StillPlain := by
  induction rs generalizing x with
  | nil => exact .pure free
  | cons r rs ih => exact (leaves_addArc free r).bind fun _ _ free => ih free

theorem leaves_addBounds (free : f.Free x ins outs) (bounds : List (Nat × Nat)) :
    Leaves (f.addBounds bounds) x (fun _ y => f.Free y ins outs) StillPlain := by
  induction bounds generalizing x with
  | nil => exact .pure free
  | cons pair bounds ih =>
      refine (leaves_range free.tidy pair.1 pair.2).bind ?_
      rintro r y rfl
      exact (leaves_addArc free r).bind fun _ _ free => ih free

theorem leaves_ranges (tidy : x.state.Tidy ins outs) (bounds : List (Nat × Nat)) :
    Leaves (ranges bounds) x (fun _ y => y = x) StillPlain := by
  induction bounds with
  | nil => exact .pure rfl
  | cons pair bounds ih =>
      refine (leaves_range tidy pair.1 pair.2).bind ?_
      rintro r y rfl
      refine ih.bind ?_
      rintro rs y rfl
      exact .pure rfl

theorem leavesTidy_fresh (tidy : x.state.Tidy ins outs) {work : Fragment → Build Unit}
    (adds : ∀ {f y ins outs}, f.Free y ins outs →
      Leaves (work f) y (fun _ z => f.Free z ins outs) StillPlain) :
    LeavesTidy (do let f ← fresh; work f; return f) x ins outs := by
  refine (leaves_fresh tidy).bind fun f y free => ?_
  exact (adds free).bind fun _ z free => .pure free.tidy

theorem leavesTidy_literal (tidy : x.state.Tidy ins outs) (first last : Nat) :
    LeavesTidy (literal first last) x ins outs :=
  leavesTidy_fresh tidy fun free => leaves_addBounds free _

theorem leavesTidy_any (tidy : x.state.Tidy ins outs) : LeavesTidy any x ins outs :=
  leavesTidy_fresh tidy fun free => leaves_addArcs free _

theorem leavesTidy_ofClass (tidy : x.state.Tidy ins outs) (bounds : List (Nat × Nat)) :
    LeavesTidy (ofClass bounds) x ins outs := by
  rw [ofClass]
  split
  · exact .of_error rfl tidy.toPlain
  · exact leavesTidy_fresh tidy fun free => leaves_addBounds free bounds

theorem leavesTidy_ofNegatedClass (tidy : x.state.Tidy ins outs) (bounds : List (Nat × Nat)) :
    LeavesTidy (ofNegatedClass bounds) x ins outs := by
  rw [ofNegatedClass]
  split
  · exact .of_error rfl tidy.toPlain
  · refine (leaves_ranges tidy bounds).bind ?_
    rintro rs y rfl
    exact leavesTidy_fresh tidy fun free => leaves_addArcs free _

theorem leavesTidy_concatenate
    (tidy : x.state.Tidy (f.entry ::ₘ next.entry ::ₘ ins) (f.exit ::ₘ next.exit ::ₘ outs)) :
    LeavesTidy (f.concatenate next) x ins outs := by
  have nodup_ins := tidy.nodup_ins
  have nodup_outs := tidy.nodup_outs
  simp only [Multiset.nodup_cons, Multiset.mem_cons, not_or] at nodup_ins nodup_outs
  have kept : x.state.Tidy (f.entry ::ₘ ins) (next.exit ::ₘ outs) :=
    tidy.fewer (Multiset.cons_le_cons _ (Multiset.le_cons_self _ _)) (Multiset.le_cons_self _ _)
  have exit : f.exit ∉ next.exit ::ₘ outs := by
    rw [Multiset.mem_cons]
    tauto
  have entry : ∀ q ∈ [next.entry], q < x.state.size ∧ q ∉ f.entry ::ₘ ins := by
    rw [List.forall_mem_singleton, Multiset.mem_cons]
    exact ⟨tidy.ins_lt _ (by simp), by tauto⟩
  have joined := leaves_addEdge kept (.epsilon [next.entry]) (tidy.outs_lt _ (by simp)) exit entry
  exact joined.bind fun _ y left => .pure left.1

theorem leavesTidy_union
    (tidy : x.state.Tidy (f.entry ::ₘ other.entry ::ₘ ins) (f.exit ::ₘ other.exit ::ₘ outs)) :
    LeavesTidy (f.union other) x ins outs := by
  refine (leaves_fresh tidy).bind fun both y free => ?_
  have nodup_ins := free.tidy.nodup_ins
  have nodup_outs := free.tidy.nodup_outs
  have entry := free.entry
  have exit := free.exit
  simp only [Multiset.nodup_cons, Multiset.mem_cons, not_or] at nodup_ins nodup_outs entry exit
  have kept : y.state.Tidy (both.entry ::ₘ ins) (both.exit ::ₘ outs) :=
    free.tidy.fewer
      (Multiset.cons_le_cons _ ((Multiset.le_cons_self _ _).trans (Multiset.le_cons_self _ _)))
      (Multiset.cons_le_cons _ ((Multiset.le_cons_self _ _).trans (Multiset.le_cons_self _ _)))
  have exits : ∀ p, p = both.entry ∨ p = f.exit ∨ p = other.exit → p ∉ both.exit ::ₘ outs := by
    rintro p (rfl | rfl | rfl) <;> rw [Multiset.mem_cons] <;> tauto
  have start : ∀ q ∈ [f.entry, other.entry], q < y.state.size ∧ q ∉ both.entry ::ₘ ins := by
    simp only [Multiset.mem_cons]
    exact List.forall_mem_cons.2 ⟨⟨free.tidy.ins_lt _ (by simp), by tauto⟩,
      List.forall_mem_singleton.2 ⟨free.tidy.ins_lt _ (by simp), by tauto⟩⟩
  have stop : ∀ q ∈ [both.exit], q < y.state.size ∧ q ∉ both.entry ::ₘ ins := by
    rw [List.forall_mem_singleton, Multiset.mem_cons]
    exact ⟨free.exit_lt, by tauto⟩
  have split := leaves_addEdge kept (.epsilon [f.entry, other.entry]) free.entry_lt
    (exits _ (by simp)) start
  refine split.bind ?_
  rintro _ y₁ ⟨kept₁, size₁⟩
  rw [← size₁] at stop
  have ended := leaves_addEdge kept₁ (.epsilon [both.exit])
    (size₁ ▸ free.tidy.outs_lt f.exit (by simp)) (exits _ (by simp)) stop
  refine ended.bind ?_
  rintro _ y₂ ⟨kept₂, size₂⟩
  rw [← size₂] at stop
  have ended' := leaves_addEdge kept₂ (.epsilon [both.exit])
    (size₂.trans size₁ ▸ free.tidy.outs_lt other.exit (by simp)) (exits _ (by simp)) stop
  exact ended'.bind fun _ z left => .pure left.1

theorem leavesTidy_star (tidy : x.state.Tidy (f.entry ::ₘ ins) (f.exit ::ₘ outs)) :
    LeavesTidy f.star x ins outs := by
  refine (leaves_fresh tidy).bind fun loop y free => ?_
  have nodup_ins := free.tidy.nodup_ins
  have nodup_outs := free.tidy.nodup_outs
  have entry := free.entry
  have exit := free.exit
  simp only [Multiset.nodup_cons, Multiset.mem_cons, not_or] at nodup_ins nodup_outs entry exit
  have kept : y.state.Tidy (loop.entry ::ₘ ins) (loop.exit ::ₘ outs) :=
    free.tidy.fewer (Multiset.cons_le_cons _ (Multiset.le_cons_self _ _))
      (Multiset.cons_le_cons _ (Multiset.le_cons_self _ _))
  have exits : ∀ p, p = loop.entry ∨ p = f.exit → p ∉ loop.exit ::ₘ outs := by
    rintro p (rfl | rfl) <;> rw [Multiset.mem_cons] <;> tauto
  have next : ∀ q ∈ [f.entry, loop.exit], q < y.state.size ∧ q ∉ loop.entry ::ₘ ins := by
    simp only [Multiset.mem_cons]
    exact List.forall_mem_cons.2 ⟨⟨free.tidy.ins_lt _ (by simp), by tauto⟩,
      List.forall_mem_singleton.2 ⟨free.exit_lt, by tauto⟩⟩
  have entered := leaves_addEdge kept (.epsilon [f.entry, loop.exit]) free.entry_lt
    (exits _ (by simp)) next
  refine entered.bind ?_
  rintro _ y₁ ⟨kept₁, size₁⟩
  rw [← size₁] at next
  have ended := leaves_addEdge kept₁ (.epsilon [f.entry, loop.exit])
    (size₁ ▸ free.tidy.outs_lt f.exit (by simp)) (exits _ (by simp)) next
  exact ended.bind fun _ z left => .pure left.1

theorem tidy_copy {g h₀ h : Graph} {A : Set NodeId} {c : Copying} {last : NodeId}
    (tidy : g.Tidy ins outs) (entry : f.entry ∈ ins) (exit : f.exit ∈ outs)
    (copies : Copying.Copies g A c c.seen.size h₀) (first : c.seen[0]? = some f.entry)
    (ends : c.Ends g f h₀ last h) : h.Tidy (g.size ::ₘ ins) (last ::ₘ outs) := by
  have same := ends.nodeD_eq
  have size := ends.size_le
  have grown : g.size ≤ h.size := Nat.le_trans (copies.numbers.size ▸ Nat.le_add_right _ _) size
  -- The exit is copied with the other nodes, or it is added last where no path comes to it.
  have final_new : g.size ≤ last ∧ last < h.size ∧ h.nodeD last = {} := by
    cases ends with
    | @seen k here =>
        refine ⟨Nat.le_add_right _ _, copies.placed here, ?_⟩
        rw [(copies.done k (Array.getElem?_eq_some_iff.1 here).1 _ here).1, tidy.blank _ exit]
        rfl
    | unseen =>
        rw [Graph.size_push, Graph.nodeD_push_size, copies.numbers.size]
        exact ⟨Nat.le_add_right _ _, Nat.lt_succ_self _, rfl⟩
  have step : ∀ {p label q}, q ∈ h.targets p label → q ∈ g.targets p label ∨
      ∃ n j m : Nat, m ∈ g.targets n label ∧ c.seen[j]? = some m ∧ q = g.size + j := by
    intro p label q target
    rw [Graph.targets, same] at target
    exact copies.mem_targets target
  refine ⟨⟨?_, ?_⟩, ?_, ?_, ?_, ?_, ?_, ?_⟩
  · intro p label q target
    rcases step target with old | ⟨_, j, _, _, seen, rfl⟩
    · exact Nat.lt_of_lt_of_le (tidy.inside p label q old) grown
    · exact Nat.lt_of_lt_of_le (copies.placed seen) size
  · intro p
    rw [same]
    rcases Nat.lt_or_ge p g.size with old | new
    · rw [copies.old p old, tidy.bare]
    · rcases copies.cases new with ⟨k, n, rfl, _, copied⟩ | empty
      · rw [copied, Node.imaged, tidy.bare]
        rfl
      · rw [empty]
  · exact Multiset.nodup_cons.2 ⟨fun old => Nat.lt_irrefl _ (tidy.ins_lt _ old), tidy.nodup_ins⟩
  · exact Multiset.nodup_cons.2
      ⟨fun old => Nat.not_lt.2 final_new.1 (tidy.outs_lt _ old), tidy.nodup_outs⟩
  · exact Multiset.forall_mem_cons.2 ⟨Nat.lt_of_lt_of_le (copies.placed first) size,
      fun p old => Nat.lt_of_lt_of_le (tidy.ins_lt p old) grown⟩
  · exact Multiset.forall_mem_cons.2 ⟨final_new.2.1,
      fun p old => Nat.lt_of_lt_of_le (tidy.outs_lt p old) grown⟩
  · refine Multiset.forall_mem_cons.2 ⟨fun p label target => ?_, fun q old p label target => ?_⟩
    · rcases step target with old | ⟨n, j, m, target, seen, equal⟩
      · exact Nat.lt_irrefl _ (tidy.inside p label _ old)
      · -- The entry was the first node to be copied, and no edge leads to it.
        obtain rfl : j = 0 := (Nat.add_left_cancel equal).symm
        obtain rfl : f.entry = m := Option.some.inj (first.symm.trans seen)
        exact tidy.unreached _ entry n label target
    · rcases step target with old' | ⟨_, j, _, _, _, rfl⟩
      · exact tidy.unreached q old p label old'
      · exact Nat.not_lt.2 (Nat.le_add_right _ _) (tidy.ins_lt _ old)
  · refine Multiset.forall_mem_cons.2 ⟨final_new.2.2, fun p old => ?_⟩
    rw [same, copies.old p (tidy.outs_lt p old), tidy.blank p old]

theorem leavesTidy_copy (tidy : x.state.Tidy ins outs) (entry : f.entry ∈ ins) (exit : f.exit ∈ outs) :
    LeavesTidy f.copy x ins outs := by
  have closed : x.state.Closed {n | x.state.HasNode n} := fun p _ label q target =>
    tidy.inside p label q target
  obtain ⟨c, last, h₀, h, yields, copies, first, ends⟩ :=
    yields_copy closed (fun _ inside => inside) (tidy.ins_lt _ entry)
  exact yields.leaves fun _ => tidy_copy tidy entry exit copies first ends

theorem leavesTidy_plus (tidy : x.state.Tidy (f.entry ::ₘ ins) (f.exit ::ₘ outs)) :
    LeavesTidy f.plus x ins outs := by
  refine (leavesTidy_copy tidy (Multiset.mem_cons_self _ _) (Multiset.mem_cons_self _ _)).bind ?_
  intro once y tidy
  rw [Multiset.cons_swap, Multiset.cons_swap once.exit] at tidy
  refine (leavesTidy_star tidy).bind fun loop z tidy => ?_
  rw [Multiset.cons_swap, Multiset.cons_swap loop.exit] at tidy
  exact leavesTidy_concatenate tidy

end Fragment

end LongestMatch
