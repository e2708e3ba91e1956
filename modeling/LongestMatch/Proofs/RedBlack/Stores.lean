import LongestMatch.RedBlack.Linked
import LongestMatch.Proofs.RedBlack.Shape

/-!
# Shapes in the slots of a linked tree

`Stores` says that a linked tree consists of a subtree and the way from there up to the root: all
links lead where the shape says, to the parent as well, and no slot is used twice. Each operation on
links is described by what it does to the subtree; what it does not touch stays by `Holds.same` and
`HoldsAbove.same`.
-/

namespace LongestMatch

variable {α β γ : Type}

def Succeeds (result : Except BrokenTree β) (good : β → Prop) : Prop := ∃ b, result = .ok b ∧ good b

namespace Succeeds

variable {result : Except BrokenTree β} {good good' : β → Prop}

theorem pure {b : β} (holds : good b) : Succeeds (.ok b) good := ⟨b, rfl, holds⟩

theorem imp (succeeds : Succeeds result good) (weaker : ∀ b, good b → good' b) :
    Succeeds result good' := by
  obtain ⟨b, eq, holds⟩ := succeeds
  exact ⟨b, eq, weaker b holds⟩

theorem bind {next : β → Except BrokenTree γ} {best : γ → Prop} (first : Succeeds result good)
    (rest : ∀ b, good b → Succeeds (next b) best) : Succeeds (result >>= next) best := by
  obtain ⟨b, rfl, holds⟩ := first
  exact rest b holds

end Succeeds

theorem Shape.join_other (side : Side) (c : Color) (near far : Shape α) (i : Nat) (v : α) :
    Shape.join side.other c near i v far = Shape.join side c far i v near := by
  cases side <;> rfl

namespace Slot

def facing (side : Side) (value : α) (color : Color) (parent near far : Option Nat) : Slot α :=
  match side with
  | .left => ⟨value, color, parent, near, far⟩
  | .right => ⟨value, color, parent, far, near⟩

variable (side : Side) (v : α) (c d : Color) (p q near far link : Option Nat)

@[simp]
theorem value_facing : (facing side v c p near far).value = v := by cases side <;> rfl

@[simp]
theorem color_facing : (facing side v c p near far).color = c := by cases side <;> rfl

@[simp]
theorem parent_facing : (facing side v c p near far).parent = p := by cases side <;> rfl

@[simp]
theorem child_facing : (facing side v c p near far).child side = near := by cases side <;> rfl

@[simp]
theorem child_facing_other : (facing side v c p near far).child side.other = far := by
  cases side <;> rfl

@[simp]
theorem withChild_facing :
    (facing side v c p near far).withChild side link = facing side v c p link far := by
  cases side <;> rfl

@[simp]
theorem withChild_facing_other :
    (facing side v c p near far).withChild side.other link = facing side v c p near link := by
  cases side <;> rfl

@[simp]
theorem paint_facing :
    { facing side v c p near far with color := d } = facing side v d p near far := by
  cases side <;> rfl

@[simp]
theorem adopt_facing :
    { facing side v c p near far with parent := q } = facing side v c q near far := by
  cases side <;> rfl

theorem sideOf_facing {i : Nat} (differ : far ≠ some i) :
    (facing side v c p (some i) far).sideOf i = side := by
  cases side <;> simp [facing, sideOf, differ]

end Slot

namespace LinkedTree

variable {t t' : LinkedTree α} {s : Shape α} {fs : Way α} {f : Frame α}

def Holds (t : LinkedTree α) : Option Nat → Shape α → Prop
  | _, .leaf => True
  | parent, .node c l i v r =>
      t.slots[i]? = some ⟨v, c, parent, l.link, r.link⟩ ∧ t.Holds (some i) l ∧ t.Holds (some i) r

def HoldsAbove (t : LinkedTree α) : Option Nat → Way α → Prop
  | link, [] => t.root = link
  | link, f :: fs =>
      t.slots[f.slot]? = some (.facing f.side f.value f.color (Way.parent fs) link f.sibling.link) ∧
        t.Holds (some f.slot) f.sibling ∧ t.HoldsAbove (some f.slot) fs

/-- The tree consists of a subtree and the way from there up. Only the `loose` slots, to which no
link leads, do not belong to it. -/
structure Stores (t : LinkedTree α) (loose : List Nat) (fs : Way α) (s : Shape α) : Prop where
  above : t.HoldsAbove s.link fs
  below : t.Holds (Way.parent fs) s
  placed : (loose ++ (fs.around s.entries).map Prod.fst).Perm (List.range t.size)

theorem holds_join {side : Side} {c : Color} {near far : Shape α} {i : Nat} {v : α}
    {p : Option Nat} : t.Holds p (.join side c near i v far) ↔
      t.slots[i]? = some (.facing side v c p near.link far.link) ∧ t.Holds (some i) near ∧
        t.Holds (some i) far := by
  cases side
  · rfl
  · exact and_congr_right fun _ => and_comm

def SameBut (t : LinkedTree α) (changed : List Nat) (t' : LinkedTree α) : Prop :=
  t'.size = t.size ∧ ∀ i ∉ changed, t'.slots[i]? = t.slots[i]?

theorem Holds.same {p : Option Nat} (holds : t.Holds p s)
    (same : ∀ i ∈ s.slots, t'.slots[i]? = t.slots[i]?) : t'.Holds p s := by
  induction s generalizing p with
  | leaf => trivial
  | node c l i v r ihl ihr =>
      obtain ⟨here, left, right⟩ := holds
      simp only [Shape.slots_node, List.mem_append, List.mem_cons] at same
      exact ⟨(same i (.inr (.inl rfl))).trans here, ihl left fun j member => same j (.inl member),
        ihr right fun j member => same j (.inr (.inr member))⟩

theorem HoldsAbove.same {link : Option Nat} (holds : t.HoldsAbove link fs) (root : t'.root = t.root)
    (same : ∀ i ∈ fs.slots, t'.slots[i]? = t.slots[i]?) : t'.HoldsAbove link fs := by
  induction fs generalizing link with
  | nil => exact root.trans holds
  | cons f fs ih =>
      obtain ⟨here, beside, above⟩ := holds
      simp only [Way.mem_slots_cons] at same
      exact ⟨(same _ (.inl rfl)).trans here, beside.same fun i member => same i (.inr (.inl member)),
        ih above fun i member => same i (.inr (.inr member))⟩

theorem SameBut.trans {t'' : LinkedTree α} {changed changed' : List Nat}
    (first : t.SameBut changed t') (second : t'.SameBut changed' t'') :
    t.SameBut (changed ++ changed') t'' :=
  ⟨second.1.trans first.1, fun i member => by
    rw [List.mem_append, not_or] at member
    exact (second.2 i member.2).trans (first.2 i member.1)⟩

def write (t : LinkedTree α) (i : Nat) (n : Slot α) : LinkedTree α :=
  { t with slots := t.slots.setIfInBounds i n }

theorem slot_eq {i : Nat} {n : Slot α} (held : t.slots[i]? = some n) : t.slot i = .ok n := by
  rw [slot, held]

theorem slot_bind {i : Nat} {n : Slot α} (held : t.slots[i]? = some n)
    (next : Slot α → Except BrokenTree β) : (t.slot i >>= next) = next n := by
  rw [slot_eq held]
  rfl

theorem change_eq {i : Nat} {n : Slot α} (held : t.slots[i]? = some n) (g : Slot α → Slot α) :
    t.change i g = .ok (t.write i (g n)) := by
  obtain ⟨bound, here⟩ := Array.getElem?_eq_some_iff.1 held
  rw [change, slot_eq held, write]
  have same : t.slots.modify i g = t.slots.setIfInBounds i (g n) := by
    refine Array.ext (by simp) fun j _ _ => ?_
    rw [Array.getElem_modify, Array.getElem_setIfInBounds]
    split
    · rename_i same
      subst same
      rw [here]
    · rfl
  rw [← same]
  rfl

theorem change_bind {i : Nat} {n : Slot α} (held : t.slots[i]? = some n) (g : Slot α → Slot α)
    (next : LinkedTree α → Except BrokenTree β) :
    (t.change i g >>= next) = next (t.write i (g n)) := by
  rw [change_eq held]
  rfl

theorem write_same {i : Nat} {m n : Slot α} (held : t.slots[i]? = some m) :
    (t.write i n).slots[i]? = some n := by
  obtain ⟨bound, _⟩ := Array.getElem?_eq_some_iff.1 held
  simp [write, bound]

theorem sameBut_write (t : LinkedTree α) (i : Nat) (n : Slot α) : t.SameBut [i] (t.write i n) := by
  refine ⟨by simp [write, size], fun j member => ?_⟩
  rw [List.mem_singleton] at member
  simp [write, Ne.symm member]

theorem Holds.write {p : Option Nat} (holds : t.Holds p s) {i : Nat} (new : i ∉ s.slots)
    (n : Slot α) : (t.write i n).Holds p s :=
  holds.same fun j member => (sameBut_write t i n).2 j (by grind)

theorem Holds.rewrite {p q : Option Nat} {c d : Color} {l r : Shape α} {i : Nat} {v w : α}
    (holds : t.Holds p (.node c l i v r)) (distinct : (Shape.node c l i v r).slots.Nodup) :
    (t.write i ⟨w, d, q, l.link, r.link⟩).Holds q (.node d l i w r) := by
  obtain ⟨here, left, right⟩ := holds
  rw [Shape.slots_node] at distinct
  exact ⟨write_same here, left.write (by grind) _, right.write (by grind) _⟩

theorem HoldsAbove.write {link : Option Nat} (holds : t.HoldsAbove link fs) {i : Nat}
    (new : i ∉ fs.slots) (n : Slot α) : (t.write i n).HoldsAbove link fs :=
  holds.same rfl fun j member => (sameBut_write t i n).2 j (by grind)

theorem adopt_holds {p : Option Nat} (holds : t.Holds p s) (distinct : s.slots.Nodup)
    (q : Option Nat) : Succeeds (t.adopt s.link q) fun t' =>
      t'.Holds q s ∧ t'.root = t.root ∧ t.SameBut s.slots t' := by
  cases s with
  | leaf => exact .pure ⟨trivial, rfl, rfl, fun _ _ => rfl⟩
  | node c l i v r =>
      have same := sameBut_write t i ⟨v, c, q, l.link, r.link⟩
      refine ⟨_, change_eq holds.1 _, holds.rewrite distinct, rfl, same.1, fun j member => ?_⟩
      exact same.2 j (by grind [Shape.slots_node])

theorem relink_holds {i : Nat} (holds : t.HoldsAbove (some i) fs) (distinct : fs.slots.Nodup)
    (new : i ∉ fs.slots) (link : Option Nat) : Succeeds (t.relink fs.parent i link) fun t' =>
      t'.HoldsAbove link fs ∧ t.SameBut fs.slots t' := by
  cases fs with
  | nil => exact .pure ⟨rfl, rfl, fun _ _ => rfl⟩
  | cons f fs =>
      obtain ⟨here, beside, above⟩ := holds
      rw [Way.nodup_slots_cons] at distinct
      rw [Way.mem_slots_cons] at new
      have differ : f.sibling.link ≠ some i := fun same =>
        new (.inr (.inl (Shape.mem_slots_of_link same)))
      have same := sameBut_write t f.slot
        (.facing f.side f.value f.color (Way.parent fs) link f.sibling.link)
      refine ⟨_, ?_, ⟨write_same here, beside.write (by grind) _,
        above.write (by grind) _⟩, same.1, fun j member => same.2 j ?_⟩
      · rw [Way.parent_cons, relink, slot_bind here, Slot.sideOf_facing _ _ _ _ _ differ,
          change_eq here, Slot.withChild_facing]
      · grind [Way.mem_slots_cons]

theorem replace_holds {i : Nat} {n : Slot α} {q : Option Nat} (held : t.slots[i]? = some n)
    (parent : n.parent = fs.parent) (above : t.HoldsAbove (some i) fs) (below : t.Holds q s)
    (distinct : (s.slots ++ fs.slots).Nodup) (new : i ∉ fs.slots) :
    Succeeds (t.replace i s.link) fun t' =>
      t'.HoldsAbove s.link fs ∧ t'.Holds fs.parent s ∧ t.SameBut (fs.slots ++ s.slots) t' := by
  rw [List.nodup_append] at distinct
  obtain ⟨distinct, distinct', apart⟩ := distinct
  rw [replace, slot_eq held]
  change Succeeds (t.relink n.parent i s.link >>= fun t' => t'.adopt s.link n.parent) _
  rw [parent]
  refine (relink_holds above distinct' new s.link).bind ?_
  rintro t₁ ⟨above₁, same₁⟩
  have below₁ := below.same fun j member => same₁.2 j (by grind)
  refine (adopt_holds below₁ distinct fs.parent).imp ?_
  rintro t₂ ⟨below₂, root, same₂⟩
  exact ⟨above₁.same root fun j member => same₂.2 j (by grind), below₂, same₁.trans same₂⟩

namespace Stores

variable {loose : List Nat} {side : Side} {c d : Color} {near inner far : Shape α} {i j : Nat}
  {v w : α}

theorem placed_iff : (loose ++ (fs.around s.entries).map Prod.fst).Perm (List.range t.size) ↔
    (loose ++ (s.slots ++ fs.slots)).Perm (List.range t.size) := by
  have same := (Way.slots_around_perm fs s.entries).append_left loose
  exact ⟨same.symm.trans, same.trans⟩

theorem distinct (stores : t.Stores loose fs s) : (loose ++ (s.slots ++ fs.slots)).Nodup :=
  (placed_iff.1 stores.placed).nodup_iff.2 List.nodup_range

theorem lt_size (stores : t.Stores loose fs s) (member : i ∈ loose ++ (s.slots ++ fs.slots)) :
    i < t.size := by
  rwa [(placed_iff.1 stores.placed).mem_iff, List.mem_range] at member

theorem cons_iff : t.Stores loose (f :: fs) s ↔ t.Stores loose fs (f.fill s) := by
  constructor
  · rintro ⟨⟨here, beside, above⟩, below, placed⟩
    exact ⟨by rwa [Frame.link_fill], holds_join.2 ⟨here, below, beside⟩, by rwa [Way.around_fill]⟩
  · rintro ⟨above, below, placed⟩
    obtain ⟨here, below, beside⟩ := holds_join.1 below
    rw [Frame.link_fill] at above
    rw [Way.around_fill] at placed
    exact ⟨⟨here, beside, above⟩, below, placed⟩

theorem plug_iff {inner : Way α} :
    t.Stores loose (inner ++ fs) s ↔ t.Stores loose fs (Way.plug inner s) := by
  induction inner generalizing s with
  | nil => rfl
  | cons f inner ih => exact cons_iff.trans ih

theorem link_sibling_ne (stores : t.Stores loose (f :: fs) s) (root : s.link = some i) :
    f.sibling.link ≠ some i := by
  intro same
  have distinct := (List.nodup_append.1 stores.distinct).2.1
  rw [((Way.slots_cons_perm _ _).append_left _).nodup_iff] at distinct
  have := Shape.mem_slots_of_link same
  have := Shape.mem_slots_of_link root
  grind

theorem sideOf_eq (stores : t.Stores loose (f :: fs) s) (root : s.link = some i) (p : Option Nat) :
    (Slot.facing f.side f.value f.color p (some i) f.sibling.link).sideOf i = f.side :=
  Slot.sideOf_facing _ _ _ _ _ (stores.link_sibling_ne root)

theorem exists_held (stores : t.Stores loose fs s) (root : s.link = some i) :
    ∃ n, t.slots[i]? = some n ∧ n.parent = fs.parent := by
  obtain ⟨c, l, v, r, rfl⟩ := Shape.exists_node_of_link root
  exact ⟨_, stores.below.1, rfl⟩

theorem turn_iff : t.Stores loose (⟨side, c, i, v, far⟩ :: fs) near ↔
    t.Stores loose (⟨side.other, c, i, v, near⟩ :: fs) far := by
  rw [cons_iff, cons_iff, Frame.fill, Frame.fill, Shape.join_other]

theorem apart_join (stores : t.Stores loose fs (.join side c near i v far)) :
    (i :: (near.slots ++ far.slots) ++ fs.slots).Nodup :=
  ((Shape.slots_join_perm ..).append_right _).nodup_iff.1 (List.nodup_append.1 stores.distinct).2.1

theorem change (stores : t.Stores loose fs (.join side c near i v far)) {g : Slot α → Slot α}
    (changed : ∀ p near far, g (.facing side v c p near far) = .facing side w d p near far) :
    Succeeds (t.change i g) (·.Stores loose fs (.join side d near i w far)) := by
  have apart := stores.apart_join
  obtain ⟨above, below, placed⟩ := stores
  obtain ⟨here, nearHeld, farHeld⟩ := holds_join.1 below
  refine ⟨_, change_eq here g, ?_, ?_, ?_⟩
  · rw [Shape.link_join] at above ⊢
    exact above.write (by grind) _
  · rw [changed]
    exact holds_join.2 ⟨write_same here, nearHeld.write (by grind) _, farHeld.write (by grind) _⟩
  · rw [(sameBut_write t i _).1]
    cases side <;> simpa [Shape.join, Way.around] using placed

theorem paint (stores : t.Stores loose fs (.join side c near i v far)) (d : Color) :
    Succeeds (t.paint i d) (·.Stores loose fs (.join side d near i v far)) :=
  stores.change fun _ _ _ => Slot.paint_facing ..

theorem change_node {l r : Shape α} (stores : t.Stores loose fs (.node c l i v r))
    {g : Slot α → Slot α} (changed : ∀ p left right, g ⟨v, c, p, left, right⟩ = ⟨w, d, p, left, right⟩) :
    Succeeds (t.change i g) (·.Stores loose fs (.node d l i w r)) :=
  (show t.Stores loose fs (.join .left c l i v r) from stores).change changed

theorem paint_node {l r : Shape α} (stores : t.Stores loose fs (.node c l i v r)) (d : Color) :
    Succeeds (t.paint i d) (·.Stores loose fs (.node d l i v r)) :=
  stores.change_node fun _ _ _ => rfl

theorem apart_join_join
    (stores : t.Stores loose fs (.join side c near i v (.join side d inner j w far))) :
    ((Shape.join side d inner j w far).slots ++ fs.slots).Nodup ∧ i ≠ j ∧
      (i ∉ near.slots ∧ i ∉ inner.slots ∧ i ∉ far.slots ∧ i ∉ fs.slots) ∧
      (j ∉ near.slots ∧ j ∉ inner.slots ∧ j ∉ far.slots ∧ j ∉ fs.slots) ∧ inner.slots.Nodup ∧
      (∀ k ∈ near.slots, k ∉ inner.slots ∧ k ∉ far.slots ∧ k ∉ fs.slots) ∧
      (∀ k ∈ far.slots, k ∉ inner.slots) ∧ ∀ k ∈ fs.slots, k ∉ inner.slots := by
  have pivotSlots := Shape.slots_join_perm side d inner far j w
  have apart : (i :: (near.slots ++ (j :: (inner.slots ++ far.slots))) ++ fs.slots).Nodup :=
    (((pivotSlots.append_left _).cons i).append_right _).nodup_iff.1 stores.apart_join
  refine ⟨(pivotSlots.append_right _).nodup_iff.2 ?_, ?_⟩ <;> grind

theorem rotate (stores : t.Stores loose fs (.join side c near i v (.join side d inner j w far))) :
    Succeeds (t.rotate side i)
      (·.Stores loose fs (.join side d (.join side c near i v inner) j w far)) := by
  have pivotSlots := Shape.slots_join_perm side d inner far j w
  obtain ⟨distinct, differ, ⟨iNear, iInner, iFar, iFrames⟩, ⟨jNear, jInner, jFar, jFrames⟩, innerDistinct,
    nearApart, farApart, framesApart⟩ := stores.apart_join_join
  obtain ⟨above, below, placed⟩ := stores
  obtain ⟨heldI, nearHeld, pivotHeld⟩ := holds_join.1 below
  obtain ⟨heldJ, innerHeld, farHeld⟩ := holds_join.1 pivotHeld
  rw [Shape.link_join] at above heldI
  rw [LinkedTree.rotate, slot_bind heldI, Slot.child_facing_other]
  dsimp only
  rw [slot_bind heldJ, Slot.child_facing]
  -- The child takes the place of the node,
  have replaced := replace_holds heldI (by simp) above pivotHeld distinct iFrames
  rw [Shape.link_join] at replaced
  refine replaced.bind ?_
  rintro t₁ ⟨above₁, pivotHeld₁, same₁⟩
  obtain ⟨heldJ₁, innerHeld₁, farHeld₁⟩ := holds_join.1 pivotHeld₁
  have kept₁ : ∀ k, k ∉ fs.slots → k ≠ j → k ∉ inner.slots → k ∉ far.slots →
      t₁.slots[k]? = t.slots[k]? := fun k frames other inside outside =>
    same₁.2 k (by simp [pivotSlots.mem_iff, frames, other, inside, outside])
  have heldI₁ := (kept₁ i iFrames differ iInner iFar).trans heldI
  have nearHeld₁ := nearHeld.same fun k member =>
    kept₁ k (nearApart k member).2.2 (ne_of_mem_of_not_mem member jNear) (nearApart k member).1
      (nearApart k member).2.1
  -- gives its inner subtree to the node,
  rw [change_bind heldI₁, Slot.withChild_facing_other]
  refine (adopt_holds (innerHeld₁.write iInner _) innerDistinct (some i)).bind ?_
  rintro t₂ ⟨innerHeld₂, root₂, same₂⟩
  have heldI₂ := (same₂.2 i iInner).trans (write_same heldI₁)
  have heldJ₂ := (same₂.2 j jInner).trans
    (((sameBut_write t₁ i _).2 j (by simp [differ.symm])).trans heldJ₁)
  have nearHeld₂ := (nearHeld₁.write iNear _).same fun k member => same₂.2 k (nearApart k member).1
  have farHeld₂ := (farHeld₁.write iFar _).same fun k member => same₂.2 k (farApart k member)
  have above₂ := (above₁.write iFrames _).same root₂ fun k member => same₂.2 k (framesApart k member)
  -- and takes the node as its child.
  rw [change_bind heldJ₂, Slot.withChild_facing]
  have heldI₃ := ((sameBut_write t₂ j
    (.facing side w d fs.parent (some i) far.link)).2 i (by simp [differ])).trans heldI₂
  rw [adopt, change_eq heldI₃, Slot.adopt_facing]
  refine .pure ⟨?_, holds_join.2 ⟨?_, holds_join.2 ⟨write_same heldI₃, ?_, ?_⟩, ?_⟩, ?_⟩
  · rw [Shape.link_join]
    exact (above₂.write jFrames _).write iFrames _
  · rw [Shape.link_join]
    exact ((sameBut_write _ i _).2 j (by simp [differ.symm])).trans (write_same heldJ₂)
  · exact (nearHeld₂.write jNear _).write iNear _
  · exact (innerHeld₂.write jInner _).write iInner _
  · exact (farHeld₂.write jFar _).write iFar _
  · have size : ((t₂.write j (.facing side w d fs.parent (some i) far.link)).write i
        (.facing side v c (some j) near.link inner.link)).size = t.size := by
      rw [(sameBut_write ..).1, (sameBut_write ..).1, same₂.1, (sameBut_write ..).1, same₁.1]
    rw [size]
    cases side <;> simpa [Shape.join] using placed

theorem replace {s' : Shape α} {q : Option Nat} (stores : t.Stores loose fs s)
    (root : s.link = some i) (below : t.Holds q s') (slots : s.slots.Perm (i :: s'.slots)) :
    Succeeds (t.replace i s'.link) fun t' =>
      t'.Stores (i :: loose) fs s' ∧ t'.slots[i]? = t.slots[i]? := by
  have apart : (loose ++ (i :: s'.slots ++ fs.slots)).Nodup :=
    ((slots.append_right _).append_left _).nodup_iff.1 stores.distinct
  obtain ⟨above, held, placed⟩ := stores
  obtain ⟨c, l, v, r, rfl⟩ := Shape.exists_node_of_link root
  rw [Shape.link] at above
  refine (replace_holds held.1 rfl above below (by grind) (by grind)).imp ?_
  rintro t' ⟨above', below', same⟩
  refine ⟨⟨above', below', ?_⟩, same.2 i (by grind)⟩
  rw [placed_iff] at placed ⊢
  rw [same.1]
  refine (List.Perm.trans ?_ ((slots.append_right _).append_left _).symm).trans placed
  exact List.perm_middle.symm

end Stores

end LinkedTree

end LongestMatch
