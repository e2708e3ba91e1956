import Mathlib.Data.Finset.Card
import LongestMatch.Fragment.Copy
import LongestMatch.Proofs.Fragment.Ownership
import LongestMatch.Proofs.RedBlack.Ordered

/-!
# Copies of fragments

A copy is made of new nodes in the order in which their originals are seen. The invariant of the
search says that what has been expanded is copied exactly, with its targets replaced by their
copies, and that the other new nodes are still empty. So the copy has the paths of the original.
-/

namespace LongestMatch

open Graph Build Std

theorem ArcSet.foldl_overlay {s : ArcSet} {arcs : List Arc}
    (ascending : (s.arcs ++ arcs).Pairwise Arc.Before) :
    arcs.foldl ArcSet.overlay s = ⟨s.arcs ++ arcs, ascending⟩ := by
  induction arcs generalizing s with
  | nil => cases s; simp
  | cons a arcs ih =>
      have last : (s.overlay a).arcs = s.arcs ++ [a] := Arc.overlay_of_before fun x member =>
        (List.pairwise_append.1 ascending).2.2 x member a List.mem_cons_self
      have rest : ((s.overlay a).arcs ++ arcs).Pairwise Arc.Before := by
        rwa [last, List.append_assoc, List.singleton_append]
      rw [List.foldl_cons, ih rest]
      simp only [last, List.append_assoc, List.singleton_append]

namespace Node

def imaged (image : NodeId → NodeId) (n : Node) : Node where
  arcs := ⟨n.arcs.arcs.map (Arc.mapped image), Arc.pairwise_mapped image n.arcs.disjoint⟩
  epsilon := if n.epsilonTargets.isEmpty then none else some (n.epsilonTargets.map image)
  handlers := Ascending.insertAll [] n.handlers

theorem imaged_congr {image image' : NodeId → NodeId} {n : Node}
    (same : ∀ m ∈ n.arcs.arcs.flatMap Arc.targets ++ n.epsilonTargets, image m = image' m) :
    n.imaged image = n.imaged image' := by
  have arcs : n.arcs.arcs.map (Arc.mapped image) = n.arcs.arcs.map (Arc.mapped image') :=
    List.map_congr_left fun a member => by
      rw [Arc.mapped, Arc.mapped, List.map_congr_left fun m target =>
        same m (List.mem_append_left _ (List.mem_flatMap_of_mem member target))]
  have epsilon : n.epsilonTargets.map image = n.epsilonTargets.map image' :=
    List.map_congr_left fun m target => same m (List.mem_append_right _ target)
  simp only [imaged, arcs, epsilon]

theorem targets_imaged (image : NodeId → NodeId) (n : Node) (label : Option Nat) :
    (n.imaged image).targets label = (n.targets label).map image := by
  cases label with
  | none =>
      rw [targets, targets, epsilonTargets, imaged]
      cases n.epsilonTargets <;> rfl
  | some code =>
      rw [targets, targets, imaged, Arc.targetsAt_mapped]
      cases Arc.targetsAt code n.arcs.arcs <;> rfl

end Node

namespace Fragment.Copying

def imageD (c : Copying) (n : NodeId) : NodeId := (c.image? n).getD n

structure Numbers (c : Copying) (base : Nat) (h : Graph) : Prop where
  sorted : c.images.Sorted
  size : h.size = base + c.seen.size
  image : ∀ n copy, c.image? n = some copy ↔ ∃ k : Nat, c.seen[k]? = some n ∧ copy = base + k

def Continues (c c' : Copying) : Prop := ∀ k n : Nat, c.seen[k]? = some n → c'.seen[k]? = some n

variable {c c' c'' : Copying} {base : Nat} {g h h' : Graph}

theorem Continues.refl (c : Copying) : c.Continues c := fun _ _ => id

theorem Continues.trans (first : c.Continues c') (second : c'.Continues c'') : c.Continues c'' :=
  fun k n found => second k n (first k n found)

theorem Continues.mem (more : c.Continues c') {n : NodeId} (member : n ∈ c.seen) : n ∈ c'.seen := by
  obtain ⟨k, found⟩ := Array.mem_iff_getElem?.1 member
  exact Array.mem_iff_getElem?.2 ⟨k, more k n found⟩

theorem Continues.size_le (more : c.Continues c') : c.seen.size ≤ c'.seen.size := by
  by_contra less
  have inside : c'.seen.size < c.seen.size := Nat.not_le.1 less
  have found := more _ _ (Array.getElem?_eq_getElem inside)
  simp at found

theorem Numbers.image?_eq (numbers : c.Numbers base h) {k n : Nat} (found : c.seen[k]? = some n) :
    c.image? n = some (base + k) := (numbers.image n (base + k)).2 ⟨k, found, rfl⟩

theorem Numbers.imageD (numbers : c.Numbers base h) {k n : Nat} (found : c.seen[k]? = some n) :
    c.imageD n = base + k := by
  rw [Copying.imageD, numbers.image?_eq found, Option.getD_some]

theorem Numbers.unique (numbers : c.Numbers base h) {k j n : Nat} (found : c.seen[k]? = some n)
    (again : c.seen[j]? = some n) : k = j :=
  Nat.add_left_cancel ((numbers.imageD found).symm.trans (numbers.imageD again))

theorem Numbers.nodup (numbers : c.Numbers base h) : c.seen.toList.Nodup := by
  rw [List.nodup_iff_injective_get]
  intro k j equal
  have found : c.seen[k.1]? = some (c.seen.toList.get k) := by
    rw [← Array.getElem?_toList]
    exact List.getElem?_eq_getElem k.2
  have again : c.seen[j.1]? = some (c.seen.toList.get k) := by
    rw [equal, ← Array.getElem?_toList]
    exact List.getElem?_eq_getElem j.2
  exact Fin.ext (numbers.unique found again)

theorem Numbers.imageD_eq (numbers : c.Numbers base h) (numbers' : c'.Numbers base h')
    (more : c.Continues c') {n : NodeId} (member : n ∈ c.seen) : c'.imageD n = c.imageD n := by
  obtain ⟨k, found⟩ := Array.mem_iff_getElem?.1 member
  rw [numbers.imageD found, numbers'.imageD (more k n found)]

theorem Numbers.of_size (numbers : c.Numbers base h) (size : h'.size = h.size) :
    c.Numbers base h' := ⟨numbers.sorted, size.trans numbers.size, numbers.image⟩

theorem numbers_empty (g : Graph) : Numbers {} g.size g where
  sorted := OrderedSet.sorted_empty
  size := rfl
  image n copy := by
    constructor
    · intro found; cases found
    · rintro ⟨k, found, _⟩; cases found

theorem image?_insert (sorted : c.images.Sorted) (seen : Array NodeId) (n copy m : NodeId) :
    image? ⟨seen, (c.images.insert (n, copy)).1⟩ m = if n = m then some copy else c.image? m := by
  rw [image?, OrderedSet.find?_insert sorted]
  simp only [compareOn, LawfulEqOrd.compare_eq_iff_eq]
  split <;> rfl

theorem Numbers.push (numbers : c.Numbers base h) {n : NodeId} (new : c.image? n = none) :
    Numbers ⟨c.seen.push n, (c.images.insert (n, h.size)).1⟩ base (h.push {}) where
  sorted := OrderedSet.sorted_insert numbers.sorted _
  size := by rw [size_push, numbers.size, Array.size_push, Nat.add_assoc]
  image m copy := by
    rw [image?_insert numbers.sorted]
    by_cases same : n = m
    · subst same
      rw [if_pos rfl, Option.some.injEq, numbers.size]
      constructor
      · rintro rfl
        exact ⟨c.seen.size, by simp, rfl⟩
      · rintro ⟨k, found, rfl⟩
        rw [Array.getElem?_push] at found
        split at found
        · rename_i last
          rw [last]
        · have old := (numbers.image n (base + k)).2 ⟨k, found, rfl⟩
          rw [new] at old
          cases old
    · rw [if_neg same, numbers.image]
      refine exists_congr fun k => and_congr_left fun _ => ?_
      rw [Array.getElem?_push]
      split
      · rename_i last
        subst last
        simp [same]
      · rfl

structure Advances (c : Copying) (base : Nat) (ns : List NodeId) (c' : Copying) (h' : Graph) :
    Prop where
  numbers : c'.Numbers base h'
  more : c.Continues c'
  seen : ∀ n ∈ ns, n ∈ c'.seen
  only : ∀ m ∈ c'.seen, m ∈ c.seen ∨ m ∈ ns

variable {ns ms : List NodeId}

theorem Advances.refl (numbers : c.Numbers base h) : c.Advances base [] c h :=
  ⟨numbers, .refl c, by simp, fun _ => .inl⟩

theorem Advances.trans (first : c.Advances base ns c' h) (second : c'.Advances base ms c'' h') :
    c.Advances base (ns ++ ms) c'' h' where
  numbers := second.numbers
  more := first.more.trans second.more
  seen n member := (List.mem_append.1 member).elim
    (fun member => second.more.mem (first.seen n member)) (second.seen n)
  only m member := by
    rcases second.only m member with member | member
    · exact (first.only m member).imp_right (List.mem_append_left _)
    · exact .inr (List.mem_append_right _ member)

theorem Advances.map_imageD (second : c.Advances base ms c' h') (numbers : c.Numbers base h)
    (seen : ∀ n ∈ ns, n ∈ c.seen) : ns.map c'.imageD = ns.map c.imageD :=
  List.map_congr_left fun n member => numbers.imageD_eq second.numbers second.more (seen n member)

theorem Advances.size_le (advances : c.Advances base ns c' h') (numbers : c.Numbers base h) :
    h.size ≤ h'.size := by
  rw [numbers.size, advances.numbers.size]
  exact Nat.add_le_add_left advances.more.size_le base

theorem yields_image (numbers : c.Numbers base h) (n : NodeId) :
    ∃ c' h', Yields (c.image n) h (c'.imageD n, c') h' ∧ c.Advances base [n] c' h' ∧
      ∀ m, h'.nodeD m = h.nodeD m := by
  rw [image]
  cases found : c.image? n with
  | some copy =>
      obtain ⟨k, seen, _⟩ := (numbers.image n copy).1 found
      refine ⟨c, h, ?_, ⟨numbers, .refl c, ?_, fun m => .inl⟩, fun _ => rfl⟩
      · rw [imageD, found]
        exact yields_pure _ _
      · rintro m member
        rw [List.mem_singleton.1 member]
        exact Array.mem_iff_getElem?.2 ⟨k, seen⟩
  | none =>
      have numbers' := numbers.push found
      have last : (c.seen.push n)[c.seen.size]? = some n := by simp
      refine ⟨_, _, ?_, ⟨numbers', ?_, ?_, ?_⟩, ?_⟩
      · rw [numbers'.imageD last, ← numbers.size]
        exact (yields_alloc h).bind (yields_pure _ _)
      · intro k m seen
        rw [Array.getElem?_push, if_neg, seen]
        rintro rfl
        simp at seen
      · intro m member
        rw [List.mem_singleton.1 member]
        exact Array.mem_push_self
      · exact fun m member => (Array.mem_push.1 member).imp_right List.mem_singleton.2
      · exact nodeD_push_empty h

theorem yields_imageList (numbers : c.Numbers base h) (ns : List NodeId) :
    ∃ c' h', Yields (c.imageList ns) h (ns.map c'.imageD, c') h' ∧ c.Advances base ns c' h' ∧
      ∀ m, h'.nodeD m = h.nodeD m := by
  induction ns generalizing c h with
  | nil => exact ⟨c, h, yields_pure _ _, .refl numbers, fun _ => rfl⟩
  | cons n ns ih =>
      obtain ⟨c₁, h₁, first, head, same₁⟩ := yields_image numbers n
      obtain ⟨c', h', rest, tail, same⟩ := ih head.numbers
      refine ⟨c', h', ?_, head.trans tail, fun m => (same m).trans (same₁ m)⟩
      rw [List.map_cons, head.numbers.imageD_eq tail.numbers tail.more (head.seen n (by simp))]
      exact first.bind (rest.bind (yields_pure _ _))

theorem yields_copyArcs (numbers : c.Numbers base h) {copy : NodeId} (inside : copy < h.size)
    (arcs : List Arc) : ∃ c' h', Yields (c.copyArcs copy arcs) h c' h' ∧
      c.Advances base (arcs.flatMap Arc.targets) c' h' ∧
        (∀ m, m ≠ copy → h'.nodeD m = h.nodeD m) ∧
          h'.nodeD copy = { h.nodeD copy with
            arcs := (arcs.map (Arc.mapped c'.imageD)).foldl ArcSet.overlay (h.nodeD copy).arcs } := by
  induction arcs generalizing c h with
  | nil => exact ⟨c, h, yields_pure _ _, .refl numbers, fun _ _ => rfl, rfl⟩
  | cons a arcs ih =>
      obtain ⟨c₁, h₁, first, head, same₁⟩ := yields_imageList numbers a.targets
      have inside₁ := Nat.lt_of_lt_of_le inside (head.size_le numbers)
      let arc : Edge := .arc (a.mapped c₁.imageD)
      have numbers₁ := head.numbers.of_size (size_modify h₁ copy (·.addEdge arc))
      obtain ⟨c', h', rest, tail, same, final⟩ := ih numbers₁ (by rwa [size_modify])
      refine ⟨c', h', first.bind ((yields_addEdge inside₁ arc).bind rest), head.trans tail, ?_, ?_⟩
      · intro m other
        rw [same m other, nodeD_modify_of_ne _ other, same₁]
      · have image : arc = .arc (a.mapped c'.imageD) := by
          simp only [arc, Arc.mapped, tail.map_imageD numbers₁ head.seen]
        rw [final, nodeD_modify_self _ inside₁, same₁, image]
        rfl

theorem handlers_forM {copy : NodeId} (inside : copy < h.size) (handlers : List HandlerId) :
    ∃ h', Yields (handlers.forM (addHandler copy)) h () h' ∧ h'.size = h.size ∧
      (∀ m, m ≠ copy → h'.nodeD m = h.nodeD m) ∧ h'.nodeD copy = { h.nodeD copy with
        handlers := Ascending.insertAll (h.nodeD copy).handlers handlers } := by
  induction handlers generalizing h with
  | nil => exact ⟨h, yields_pure _ _, rfl, fun _ _ => rfl, rfl⟩
  | cons handler handlers ih =>
      obtain ⟨h', rest, size, same, final⟩ :=
        ih (h := h.modify copy (·.addHandler handler)) (by rwa [size_modify])
      refine ⟨h', (yields_addHandler inside handler).bind rest, size.trans (size_modify ..), ?_, ?_⟩
      · intro m other
        rw [same m other, nodeD_modify_of_ne _ other]
      · rw [final, nodeD_modify_self _ inside]
        rfl

def allTargets (n : Node) : List NodeId := n.arcs.arcs.flatMap Arc.targets ++ n.epsilonTargets

theorem yields_copyNode (numbers : c.Numbers base h) {copy : NodeId} (inside : copy < h.size)
    (empty : h.nodeD copy = {}) (n : Node) : ∃ c' h', Yields (c.copyNode copy n) h c' h' ∧
      c.Advances base (allTargets n) c' h' ∧ (∀ m, m ≠ copy → h'.nodeD m = h.nodeD m) ∧
        h'.nodeD copy = n.imaged c'.imageD := by
  obtain ⟨h₁, first, size₁, same₁, final₁⟩ := handlers_forM inside n.handlers
  obtain ⟨c₂, h₂, second, arcs, same₂, final₂⟩ :=
    yields_copyArcs (numbers.of_size size₁) (size₁ ▸ inside) n.arcs.arcs
  rw [final₁, empty, ArcSet.foldl_overlay (Arc.pairwise_mapped _ n.arcs.disjoint)] at final₂
  by_cases none : n.epsilonTargets.isEmpty
  · refine ⟨c₂, h₂, ?_, ?_, fun m other => (same₂ m other).trans (same₁ m other), ?_⟩
    · rw [copyNode]
      refine first.bind (second.bind ?_)
      rw [if_pos none]
      exact yields_pure _ _
    · rw [allTargets, List.isEmpty_iff.1 none, List.append_nil]
      exact arcs
    · rw [final₂, Node.imaged, if_pos none]
      rfl
  · obtain ⟨c', h₃, third, targets, same₃⟩ := yields_imageList arcs.numbers n.epsilonTargets
    have inside₃ := Nat.lt_of_lt_of_le (size₁ ▸ inside)
      (Nat.le_trans (arcs.size_le (numbers.of_size size₁)) (targets.size_le arcs.numbers))
    let epsilon : Edge := .epsilon (n.epsilonTargets.map c'.imageD)
    refine ⟨c', h₃.modify copy (·.addEdge epsilon), ?_, ?_, ?_, ?_⟩
    · rw [copyNode]
      refine first.bind (second.bind ?_)
      rw [if_neg none]
      exact third.bind ((yields_addEdge inside₃ epsilon).bind (yields_pure _ _))
    · have both := arcs.trans targets
      exact ⟨both.numbers.of_size (size_modify ..), both.more, both.seen, both.only⟩
    · intro m other
      rw [nodeD_modify_of_ne _ other, same₃, same₂ m other, same₁ m other]
    · have images : n.arcs.arcs.map (Arc.mapped c'.imageD) = n.arcs.arcs.map (Arc.mapped c₂.imageD) :=
        List.map_congr_left fun a member => by
          rw [Arc.mapped, Arc.mapped, targets.map_imageD arcs.numbers fun m inside =>
            arcs.seen m (List.mem_flatMap_of_mem member inside)]
      rw [nodeD_modify_self _ inside₃, same₃, final₂, Node.imaged, if_neg none]
      simp only [images]
      rfl

theorem mem_allTargets {n : Node} {m : NodeId} :
    m ∈ allTargets n ↔ ∃ label, m ∈ n.targets label := by
  rw [allTargets, List.mem_append, List.mem_flatMap]
  constructor
  · rintro (⟨a, member, target⟩ | target)
    · have first : a.range.contains a.range.first :=
        CodeRange.contains_iff.2 ⟨Nat.le_refl _, a.range.first_le_last⟩
      refine ⟨some a.range.first, ?_⟩
      rwa [Node.targets, Arc.targetsAt_of_mem n.arcs.disjoint member first]
    · exact ⟨none, target⟩
  · rintro ⟨none | code, target⟩
    · exact .inr target
    · rw [Node.targets] at target
      cases found : Arc.targetsAt code n.arcs.arcs with
      | none => rw [found] at target; cases target
      | some targets =>
          rw [found] at target
          obtain ⟨a, arc, rfl⟩ := Option.map_eq_some_iff.1 found
          exact .inl ⟨a, List.mem_of_find?_eq_some arc, target⟩

/-- The nodes seen before place `i` are copied exactly and have all their targets seen. -/
structure Copies (g : Graph) (A : Set NodeId) (c : Copying) (i : Nat) (h : Graph) : Prop where
  numbers : c.Numbers g.size h
  within : ∀ n ∈ c.seen, n ∈ A
  done : ∀ k < i, ∀ n : Nat, c.seen[k]? = some n →
    h.nodeD (g.size + k) = (g.nodeD n).imaged c.imageD ∧ ∀ m ∈ allTargets (g.nodeD n), m ∈ c.seen
  empty : ∀ k, i ≤ k → h.nodeD (g.size + k) = {}
  old : ∀ n < g.size, h.nodeD n = g.nodeD n

variable {A : Set NodeId} {i : Nat}

theorem Copies.size_le (copies : Copies g A c i h) (inside : ∀ n ∈ A, n < g.size) :
    c.seen.size ≤ g.size := by
  have subset : c.seen.toList ⊆ List.range g.size := fun n member =>
    List.mem_range.2 (inside n (copies.within n (Array.mem_toList_iff.1 member)))
  simpa using (List.subperm_of_subset copies.numbers.nodup subset).length_le

theorem Copies.done_all (copies : Copies g A c i h) (all : c.seen.size ≤ i) :
    Copies g A c c.seen.size h where
  numbers := copies.numbers
  within := copies.within
  done k lt := copies.done k (Nat.lt_of_lt_of_le lt all)
  empty k le := nodeD_of_size_le (by rw [copies.numbers.size]; exact Nat.add_le_add_left le _)
  old := copies.old

theorem Copies.step (copies : Copies g A c i h) (closed : g.Closed A) {n : Nat} (found : c.seen[i]? = some n) :
    ∃ c' h', Yields (c.copyNode (c.imageD n) (g.nodeD n)) h c' h' ∧ Copies g A c' (i + 1) h' ∧
      c.Continues c' := by
  have member := copies.within n (Array.mem_iff_getElem?.2 ⟨i, found⟩)
  have image := copies.numbers.imageD found
  have bounded : g.size + i < h.size := by
    rw [copies.numbers.size]
    exact Nat.add_lt_add_left (Array.getElem?_eq_some_iff.1 found).1 _
  obtain ⟨c', h', yields, advances, same, final⟩ :=
    yields_copyNode copies.numbers (image ▸ bounded) (image ▸ copies.empty i (Nat.le_refl _))
      (g.nodeD n)
  rw [image] at same final
  refine ⟨c', h', yields, ⟨advances.numbers, ?_, ?_, ?_, ?_⟩, advances.more⟩
  · intro m seen
    rcases advances.only m seen with seen | target
    · exact copies.within m seen
    · obtain ⟨label, target⟩ := mem_allTargets.1 target
      exact closed n member label m target
  · intro k lt m seen
    rcases Nat.lt_or_eq_of_le (Nat.le_of_lt_succ lt) with lt | rfl
    · obtain ⟨m', seen'⟩ : ∃ m', c.seen[k]? = some m' :=
        ⟨_, Array.getElem?_eq_getElem (Nat.lt_trans lt (Array.getElem?_eq_some_iff.1 found).1)⟩
      obtain rfl : m = m' := Option.some.inj (seen.symm.trans (advances.more k m' seen'))
      obtain ⟨exact_, targets⟩ := copies.done k lt m seen'
      refine ⟨?_, fun q target => advances.more.mem (targets q target)⟩
      rw [same _ (by simpa using Nat.ne_of_lt lt), exact_]
      exact Node.imaged_congr fun q target =>
        (copies.numbers.imageD_eq advances.numbers advances.more (targets q target)).symm
    · obtain rfl : m = n := Option.some.inj (seen.symm.trans (advances.more k n found))
      exact ⟨final, advances.seen⟩
  · intro k le
    rw [same _ (by simpa using Nat.ne_of_gt le), copies.empty k (Nat.le_of_succ_le le)]
  · intro m old
    rw [same m (Nat.ne_of_lt (Nat.lt_of_lt_of_le old (Nat.le_add_right _ _))), copies.old m old]

theorem Copies.finish (copies : Copies g A c i h) (closed : g.Closed A)
    (inside : ∀ n ∈ A, n < g.size) {bound : Nat} (enough : g.size ≤ i + bound) :
    ∃ c' h', Yields (c.finish bound i) h c' h' ∧ Copies g A c' c'.seen.size h' ∧ c.Continues c' := by
  induction bound generalizing c i h with
  | zero =>
      have all : c.seen.size ≤ i := Nat.le_trans (copies.size_le inside) enough
      refine ⟨c, h, ?_, copies.done_all all, .refl c⟩
      rw [Copying.finish, Array.getElem?_eq_none all]
      exact yields_pure _ _
  | succ bound ih =>
      cases found : c.seen[i]? with
      | none =>
          refine ⟨c, h, ?_, copies.done_all (Array.getElem?_eq_none_iff.1 found), .refl c⟩
          rw [Copying.finish, found]
          exact yields_pure _ _
      | some n =>
          have member := inside n (copies.within n (Array.mem_iff_getElem?.2 ⟨i, found⟩))
          have read : Yields (node n) h (g.nodeD n) h := by
            rw [← copies.old n member]
            apply yields_node
            rw [copies.numbers.size]
            exact Nat.lt_of_lt_of_le member (Nat.le_add_right _ _)
          obtain ⟨c₁, h₁, step, copies₁, more₁⟩ := copies.step closed found
          obtain ⟨c', h', rest, copies', more⟩ := ih copies₁ (by omega)
          refine ⟨c', h', ?_, copies', more₁.trans more⟩
          have image := copies.numbers.image?_eq found
          rw [copies.numbers.imageD found] at step
          rw [Copying.finish, found]
          simp only [image]
          exact read.bind (step.bind rest)

theorem Copies.closed (copies : Copies g A c c.seen.size h) : g.Closed {n | n ∈ c.seen} := by
  intro n member label m target
  obtain ⟨k, seen⟩ := Array.mem_iff_getElem?.1 member
  exact (copies.done k (Array.getElem?_eq_some_iff.1 seen).1 n seen).2 m
    (mem_allTargets.2 ⟨label, target⟩)

theorem Copies.targets_eq (copies : Copies g A c c.seen.size h) {k n : Nat}
    (found : c.seen[k]? = some n) (label : Option Nat) :
    h.targets (g.size + k) label = (g.targets n label).map c.imageD ∧
      ∀ m ∈ g.targets n label, m ∈ c.seen := by
  obtain ⟨exact_, seen⟩ := copies.done k (Array.getElem?_eq_some_iff.1 found).1 n found
  rw [Graph.targets, exact_, Node.targets_imaged]
  exact ⟨rfl, fun m target => seen m (mem_allTargets.2 ⟨label, target⟩)⟩

theorem Copies.placed (copies : Copies g A c i h) {k n : Nat} (found : c.seen[k]? = some n) :
    g.size + k < h.size := by
  rw [copies.numbers.size]
  exact Nat.add_lt_add_left (Array.getElem?_eq_some_iff.1 found).1 _

theorem Copies.cases (copies : Copies g A c c.seen.size h) {p : Nat} (new : g.size ≤ p) :
    (∃ k n : Nat, p = g.size + k ∧ c.seen[k]? = some n ∧ h.nodeD p = (g.nodeD n).imaged c.imageD) ∨
      h.nodeD p = {} := by
  obtain ⟨k, rfl⟩ := Nat.exists_eq_add_of_le new
  rcases Nat.lt_or_ge k c.seen.size with inside | beyond
  · have found : c.seen[k]? = some c.seen[k] := Array.getElem?_eq_getElem inside
    exact .inl ⟨k, _, rfl, found, (copies.done k inside _ found).1⟩
  · exact .inr (copies.empty k beyond)

theorem Copies.mem_targets (copies : Copies g A c c.seen.size h) {p q : NodeId} {label : Option Nat}
    (target : q ∈ h.targets p label) : q ∈ g.targets p label ∨
      ∃ n j m : Nat, m ∈ g.targets n label ∧ c.seen[j]? = some m ∧ q = g.size + j := by
  rcases Nat.lt_or_ge p g.size with old | new
  · rw [Graph.targets, copies.old p old] at target
    exact .inl target
  · rcases copies.cases new with ⟨k, n, rfl, seen, _⟩ | empty
    · obtain ⟨images, inside⟩ := copies.targets_eq seen label
      rw [images] at target
      obtain ⟨m, original, rfl⟩ := List.mem_map.1 target
      obtain ⟨j, seen'⟩ := Array.mem_iff_getElem?.1 (inside m original)
      exact .inr ⟨n, j, m, original, seen', copies.numbers.imageD seen'⟩
    · rw [Graph.targets, empty] at target
      cases label <;> cases target

theorem Copies.reads_iff (copies : Copies g A c c.seen.size h) {k n : Nat}
    (found : c.seen[k]? = some n) {word : List Nat} {q : NodeId} :
    h.Reads (g.size + k) word q ↔
      ∃ j m : Nat, c.seen[j]? = some m ∧ q = g.size + j ∧ g.Reads n word m := by
  constructor
  · generalize start : g.size + k = p
    intro path
    induction path generalizing k n with
    | stay p => exact ⟨k, n, found, start.symm, .stay n⟩
    | @step p p' r label word next path ih =>
        subst start
        rw [(copies.targets_eq found label).1] at next
        obtain ⟨m, target, rfl⟩ := List.mem_map.1 next
        obtain ⟨j, seen⟩ := Array.mem_iff_getElem?.1 ((copies.targets_eq found label).2 m target)
        obtain ⟨j', m', seen', equal, rest⟩ := ih seen (copies.numbers.imageD seen).symm
        exact ⟨j', m', seen', equal, .step target rest⟩
  · rintro ⟨j, m, seen, rfl, path⟩
    induction path generalizing k with
    | stay p =>
        rw [copies.numbers.unique found seen]
        exact .stay _
    | @step n n' m label word next path ih =>
        obtain ⟨j', seen'⟩ := Array.mem_iff_getElem?.1 ((copies.targets_eq found label).2 n' next)
        refine .step (q := g.size + j') ?_ (ih seen' seen)
        rw [(copies.targets_eq found label).1, ← copies.numbers.imageD seen']
        exact List.mem_map_of_mem next

inductive Ends (g : Graph) (f : Fragment) (c : Copying) (h₀ : Graph) : NodeId → Graph → Prop
  | seen {k : Nat} (here : c.seen[k]? = some f.exit) : Ends g f c h₀ (g.size + k) h₀
  | unseen (missing : f.exit ∉ c.seen) : Ends g f c h₀ h₀.size (h₀.push {})

variable {f : Fragment} {h₀ : Graph} {exit : NodeId}

theorem Ends.nodeD_eq (ends : c.Ends g f h₀ exit h) (n : NodeId) : h.nodeD n = h₀.nodeD n := by
  cases ends with
  | seen => rfl
  | unseen => exact nodeD_push_empty h₀ n

theorem Ends.size_le (ends : c.Ends g f h₀ exit h) : h₀.size ≤ h.size := by
  cases ends with
  | seen => exact Nat.le_refl _
  | unseen =>
      rw [size_push]
      exact Nat.le_succ _

theorem Copies.language_eq (copies : Copies g A c c.seen.size h₀) (start : c.seen[0]? = some f.entry)
    (ends : c.Ends g f h₀ exit h) : (Fragment.mk g.size exit).language h₀ = f.language g := by
  ext word
  rw [mem_language, mem_language, ← Nat.add_zero g.size, copies.reads_iff start]
  constructor
  · rintro ⟨j, m, seen, equal, path⟩
    cases ends with
    | seen here =>
        obtain rfl := Nat.add_left_cancel equal
        rwa [Option.some.inj (here.symm.trans seen)]
    | unseen =>
        rw [copies.numbers.size] at equal
        have := (Array.getElem?_eq_some_iff.1 seen).1
        have := Nat.add_left_cancel equal
        omega
  · intro path
    have member : f.exit ∈ c.seen :=
      path.mem copies.closed (Array.mem_iff_getElem?.2 ⟨0, start⟩)
    cases ends with
    | @seen k here => exact ⟨k, f.exit, here, rfl, path⟩
    | unseen missing => exact (missing member).elim

end Copying

variable {A : Set NodeId} {g : Graph} {f : Fragment} {L : Language Nat}

theorem yields_copy (closed : g.Closed A) (inside : ∀ n ∈ A, n < g.size) (entry : f.entry ∈ A) :
    ∃ c exit h₀ h, Yields f.copy g ⟨g.size, exit⟩ h ∧ Copying.Copies g A c c.seen.size h₀ ∧
      c.seen[0]? = some f.entry ∧ c.Ends g f h₀ exit h := by
  have bound : g.size ≤ 0 + copyBound g := by
    rw [copyBound]
    omega
  obtain ⟨c₁, h₁, first, advances, same₁⟩ :=
    Copying.yields_image (Copying.numbers_empty g) f.entry
  have only : ∀ n ∈ c₁.seen, n = f.entry := fun n member =>
    (advances.only n member).elim (fun none => absurd none (Array.not_mem_empty n))
      List.mem_singleton.1
  have start : c₁.seen[0]? = some f.entry := by
    have some := Array.size_pos_of_mem (advances.seen f.entry (List.mem_singleton_self _))
    rw [Array.getElem?_eq_getElem some, only _ (Array.getElem_mem some)]
  have copies₁ : Copying.Copies g A c₁ 0 h₁ := by
    refine ⟨advances.numbers, fun n member => only n member ▸ entry,
      fun k lt => absurd lt (Nat.not_lt_zero k), fun k _ => ?_, fun n _ => same₁ n⟩
    rw [same₁, nodeD_of_size_le (Nat.le_add_right _ _)]
  obtain ⟨c, h₀, search, copies, more⟩ := copies₁.finish closed inside bound
  rw [advances.numbers.imageD start] at first
  cases found : c.image? f.exit with
  | some exit =>
      obtain ⟨k, seen, rfl⟩ := (copies.numbers.image f.exit exit).1 found
      refine ⟨c, _, h₀, h₀, ?_, copies, more 0 _ start, .seen seen⟩
      refine (yields_current g).bind (first.bind (search.bind ?_))
      rw [found]
      exact (yields_pure _ _).bind ((yields_record _ _).bind (yields_pure _ _))
  | none =>
      have unseen : f.exit ∉ c.seen := by
        intro member
        obtain ⟨k, seen⟩ := Array.mem_iff_getElem?.1 member
        rw [(copies.numbers.image f.exit (g.size + k)).2 ⟨k, seen, rfl⟩] at found
        cases found
      refine ⟨c, _, h₀, h₀.push {}, ?_, copies, more 0 _ start, .unseen unseen⟩
      refine (yields_current g).bind (first.bind (search.bind ?_))
      rw [found]
      exact (yields_alloc h₀).bind ((yields_record _ _).bind (yields_pure _ _))

theorem exists_copy (closed : g.Closed A) (inside : ∀ n ∈ A, n < g.size) (entry : f.entry ∈ A) :
    ∃ once h, Yields f.copy g once h ∧ once.LivesIn h (Set.Ico g.size h.size) ∧
      once.language h = f.language g ∧ g.Grows ∅ h ∧
        ∀ n ∈ Set.Ico g.size h.size, (h.nodeD n).handlers = [] ∨
          ∃ m ∈ A, (h.nodeD n).handlers = Ascending.insertAll [] (g.nodeD m).handlers := by
  obtain ⟨c, exit, h₀, h, yields, copies, start, ends⟩ := yields_copy closed inside entry
  have targets : ∀ n label, h.targets n label = h₀.targets n label := fun n label => by
    rw [Graph.targets, Graph.targets, ends.nodeD_eq]
  have placed : ∀ {j m : Nat}, c.seen[j]? = some m → g.size + j < h.size := fun seen =>
    Nat.lt_of_lt_of_le (copies.placed seen) ends.size_le
  have lives : (Fragment.mk g.size exit).LivesIn h (Set.Ico g.size h.size) := by
    refine ⟨?_, ⟨Nat.le_refl _, placed start⟩, ?_⟩
    · rintro p ⟨new, _⟩ label q next
      rcases copies.cases new with ⟨k, m, rfl, seen, _⟩ | empty
      · rw [targets] at next
        obtain ⟨j, _, seen, rfl, _⟩ := (copies.reads_iff seen).1 (.step next (.stay q))
        exact ⟨Nat.le_add_right _ _, placed seen⟩
      · rw [Graph.targets, ends.nodeD_eq, empty] at next
        cases label <;> cases next
    · cases ends with
      | seen here => exact ⟨Nat.le_add_right _ _, placed here⟩
      | unseen =>
          rw [copies.numbers.size, Set.mem_Ico, size_push, copies.numbers.size]
          exact ⟨Nat.le_add_right _ _, Nat.lt_succ_self _⟩
  refine ⟨⟨g.size, exit⟩, h, yields, lives, ?_, ⟨?_, ?_⟩, ?_⟩
  · rw [← (lives.of_targets fun n _ label => (targets n label).symm).2]
    exact copies.language_eq start ends
  · exact Nat.le_trans (copies.numbers.size ▸ Nat.le_add_right _ _) ends.size_le
  · exact fun n old _ => (ends.nodeD_eq n).trans (copies.old n old)
  · rintro n ⟨new, _⟩
    rcases copies.cases new with ⟨k, m, _, seen, copied⟩ | empty
    · refine .inr ⟨m, copies.within m (Array.mem_iff_getElem?.2 ⟨k, seen⟩), ?_⟩
      rw [ends.nodeD_eq, copied, Node.imaged]
    · rw [ends.nodeD_eq, empty]
      exact .inl rfl

theorem makes_copy (owns : f.Owns g A L) : f.copy.Makes g ∅ L := by
  obtain ⟨once, h, yields, lives, language, grown, handlers⟩ :=
    exists_copy owns.lives.closed owns.inside owns.lives.entry
  refine ⟨once, h, yields, ?_, grown⟩
  rw [Set.empty_union]
  refine ⟨lives, fun n member => member.2, fun n member => ?_, language.trans owns.language⟩
  rcases handlers n member with none | ⟨m, member, copied⟩
  · exact none
  · rw [copied, owns.bare m member]
    rfl

open scoped Computability in
theorem makes_plus (owns : f.Owns g A L) : f.plus.Makes g A (L * L∗) := by
  obtain ⟨once, h₁, copied, ownsOnce, grown₁⟩ := makes_copy owns
  have ownsOld := owns.of_grows grown₁ (Set.disjoint_empty A)
  obtain ⟨loop, h₂, looped, ownsLoop, grown₂⟩ := makes_star ownsOld
  have apart : Disjoint (∅ ∪ Set.Ico g.size h₁.size) A := by
    rw [Set.empty_union, Set.disjoint_right]
    exact fun n member new => Nat.not_lt.2 new.1 (owns.inside n member)
  have ownsOnce' := ownsOnce.of_grows grown₂ apart
  have apart' : Disjoint (∅ ∪ Set.Ico g.size h₁.size) (A ∪ Set.Ico h₁.size h₂.size) := by
    rw [Set.disjoint_union_right]
    refine ⟨apart, ?_⟩
    rw [Set.empty_union, Set.disjoint_left]
    exact fun n old new => Nat.not_lt.2 new.1 old.2
  obtain ⟨both, h, joined, ownsBoth, grown⟩ := makes_concatenate ownsOnce' ownsLoop apart'
  have nodes : ∅ ∪ Set.Ico g.size h₁.size ∪ (A ∪ Set.Ico h₁.size h₂.size) ∪ Set.Ico h₂.size h.size =
      A ∪ Set.Ico g.size h.size := by
    rw [Set.empty_union, ← Set.Ico_union_Ico_eq_Ico
      (Nat.le_trans grown₁.size_le grown₂.size_le) grown.size_le,
      ← Set.Ico_union_Ico_eq_Ico grown₁.size_le grown₂.size_le]
    ac_rfl
  rw [nodes] at ownsBoth
  refine ⟨both, h, copied.bind (looped.bind joined), ownsBoth, ?_⟩
  refine ((grown₁.mono (Set.empty_subset A)).trans grown₂ fun _ _ member => member).trans grown ?_
  rintro n old ((none | new) | (member | new))
  · exact none.elim
  · exact (Nat.not_lt.2 new.1 old).elim
  · exact member
  · exact (Nat.not_lt.2 (Nat.le_trans grown₁.size_le new.1) old).elim

end Fragment

end LongestMatch
