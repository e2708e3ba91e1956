import LongestMatch.RedBlack.Remove
import LongestMatch.Proofs.RedBlack.Insert

namespace LongestMatch.LinkedTree

variable {α : Type} {t : LinkedTree α} {s : Shape α} {fs : Way α} {loose : List Nat} {side : Side}
  {c : Color} {i j k n : Nat} {v w x : α}

section Turn

variable {near far a b : Shape α}

theorem Stores.turnRed
    (stores : t.Stores loose (⟨side, c, k, x, .join side .red near j w far⟩ :: fs) s) :
    Succeeds (t.turnRed side k j)
      (·.Stores loose (⟨side, .red, k, x, near⟩ :: ⟨side, .black, j, w, far⟩ :: fs) s) := by
  refine (Stores.paint (turn_iff.1 stores) .black).bind fun t₁ stores₁ => ?_
  refine (Stores.paint (cons_iff.1 (turn_iff.2 stores₁)) .red).bind fun t₂ stores₂ => ?_
  exact stores₂.rotate.imp fun t₃ stores₃ => cons_iff.2 (cons_iff.2 stores₃)

theorem Stores.turnNear (stores : t.Stores loose
      (⟨side, c, k, x, .join side .black (.join side .red a i v b) j w far⟩ :: fs) s) :
    Succeeds (t.turnNear side j (some i)) (·.Stores loose
      (⟨side, c, k, x, .join side .black a i v (.join side .red b j w far)⟩ :: fs) s) :=
  (Stores.raise (turn_iff.1 stores)).imp fun _ stores' => turn_iff.2 stores'

theorem Stores.turnFar (stores : t.Stores loose
      (⟨side, c, k, x, .join side .black near j w (.join side .red a i v b)⟩ :: fs) s) :
    Succeeds (t.turnFar side k j c (some i)) (·.Stores loose
      (⟨side, .black, k, x, near⟩ :: ⟨side, c, j, w, .join side .black a i v b⟩ :: fs) s) := by
  refine (Stores.paint (turn_iff.1 stores) c).bind fun t₁ stores₁ => ?_
  refine (Stores.paint (cons_iff.1 (turn_iff.2 stores₁)) .black).bind fun t₂ stores₂ => ?_
  have sibling : t₂.Stores loose (⟨side.other, .black, k, x, s⟩ :: fs)
      (.join side c near j w (.join side .red a i v b)) := turn_iff.1 (cons_iff.2 stores₂)
  have nephew : t₂.Stores loose (⟨side.other, c, j, w, near⟩ :: ⟨side.other, .black, k, x, s⟩ :: fs)
      (.join side .red a i v b) := by
    rw [cons_iff, Frame.fill, Shape.join_other]
    exact sibling
  refine (nephew.paint .black).bind fun t₃ stores₃ => ?_
  rw [cons_iff, Frame.fill, Shape.join_other] at stores₃
  refine (Stores.rotate (cons_iff.1 (turn_iff.2 stores₃))).imp fun t₄ stores₄ => ?_
  exact cons_iff.2 (cons_iff.2 stores₄)

end Turn

/-- The way has changed to suit a subtree that is one black node shorter, while the subtree has kept
its place among the values. -/
def Refits (fs : Way α) (s : Shape α) (n : Nat) (t : LinkedTree α) : Prop :=
  ∃ fs', t.Stores [] fs' s ∧ fs'.Suits .black n ∧ ∀ entries, fs'.around entries = fs.around entries

variable {sibling : Shape α} {bound : Nat}

section Step

variable {near far : Shape α} {b d e : Color}

theorem repairShort_eq
    (stores : t.Stores loose (⟨side, c, k, x, .join side b near j w far⟩ :: fs) s)
    (root : s.link = some i) (nearBalanced : near.Balanced d n) (farBalanced : far.Balanced e n) :
    t.repairShort (bound + 1) i =
      match b, d, e with
      | .red, _, _ => do (← t.turnRed side k j).repairShort bound i
      | .black, .black, .black => do
        let t ← t.paint j .red
        if c = .red then t.paint k .black else t.repairShort bound k
      | .black, .red, .black => do (← t.turnNear side j near.link).repairShort bound i
      | .black, _, .red => t.turnFar side k j c far.link := by
  obtain ⟨m, here, parent⟩ := stores.exists_held root
  obtain ⟨parentHeld, siblingHeld, _⟩ := stores.above
  obtain ⟨nodeHeld, nearHeld, farHeld⟩ := holds_join.1 siblingHeld
  rw [root] at parentHeld
  rw [repairShort, slot_bind here, parent, Way.parent_cons]
  dsimp only
  rw [slot_bind parentHeld, stores.sideOf_eq root]
  dsimp only
  rw [Slot.child_facing_other, Shape.link_join]
  dsimp only
  rw [slot_bind nodeHeld, Slot.color_facing, Slot.child_facing, Slot.child_facing_other,
    isRed_holds nearHeld nearBalanced, isRed_holds farHeld farBalanced, Slot.color_facing]
  cases b <;> cases d <;> cases e <;> rfl

theorem repairShort_far
    (stores : t.Stores [] (⟨side, c, k, x, .join side .black near j w far⟩ :: fs) s)
    (root : s.link = some i)
    (suits : Way.Suits (⟨side, c, k, x, .join side .black near j w far⟩ :: fs) .black (n + 1))
    (nearBalanced : near.Balanced d n) (farBalanced : far.Balanced .red n) :
    Succeeds (t.repairShort (bound + 1) i)
      (Refits (⟨side, c, k, x, .join side .black near j w far⟩ :: fs) s n) := by
  have step : t.repairShort (bound + 1) i = t.turnFar side k j c far.link := by
    rw [repairShort_eq stores root nearBalanced farBalanced]
    cases d <;> rfl
  obtain ⟨a, l, v, b, rfl, left, right⟩ := farBalanced.exists_join_red side
  rw [step, Shape.link_join]
  refine (Stores.turnFar stores).imp fun t' stores' => ⟨_, stores', ?_, fun entries => ?_⟩
  · exact .black (suits.reseat (Shape.balanced_join_black.2 ⟨rfl, n, _, _, rfl, left, right⟩))
      nearBalanced
  · cases side <;> simp [Way.around, Way.before, Way.after, Frame.before, Frame.after, Shape.join]

theorem repairShort_black
    (stores : t.Stores [] (⟨side, c, k, x, .join side .black near j w far⟩ :: fs) s)
    (root : s.link = some i)
    (suits : Way.Suits (⟨side, c, k, x, .join side .black near j w far⟩ :: fs) .black (n + 1))
    (nearBalanced : near.Balanced d n) (farBalanced : far.Balanced e n)
    (up : c = .black → ∀ {t : LinkedTree α} {s : Shape α}, t.Stores [] fs s → s.link = some k →
      fs.Suits .black (n + 2) → Succeeds (t.repairShort (bound + 1) k) (Refits fs s (n + 1))) :
    Succeeds (t.repairShort (bound + 2) i)
      (Refits (⟨side, c, k, x, .join side .black near j w far⟩ :: fs) s n) := by
  cases e with
  | red => exact repairShort_far stores root suits nearBalanced farBalanced
  | black =>
      rw [repairShort_eq stores root nearBalanced farBalanced]
      cases d with
      | red =>
          obtain ⟨a, l, v, b, rfl, left, right⟩ := nearBalanced.exists_join_red side
          rw [Shape.link_join]
          refine (Stores.turnNear stores).bind fun t₁ stores₁ => ?_
          have sibling : (Shape.join side .black a l v (.join side .red b j w far)).Balanced .black
              (n + 1) := Shape.balanced_join_black.2
            ⟨rfl, n, _, _, rfl, left, Shape.balanced_join_red.2 ⟨rfl, right, farBalanced⟩⟩
          refine (repairShort_far stores₁ root (suits.reseat sibling) left
            (Shape.balanced_join_red.2 ⟨rfl, right, farBalanced⟩)).imp ?_
          rintro t₂ ⟨fs', stores₂, suits₂, listed⟩
          refine ⟨fs', stores₂, suits₂, fun entries => ?_⟩
          rw [listed]
          exact Way.around_recolor (by cases side <;> simp [Shape.join]) fs entries
      | black =>
          have sibling : (Shape.join side .red near j w far).Balanced .red n :=
            Shape.balanced_join_red.2 ⟨rfl, nearBalanced, farBalanced⟩
          have listed : ∀ c' entries, Way.around (⟨side, c', k, x, .join side .red near j w far⟩ :: fs)
              entries = Way.around (⟨side, c, k, x, .join side .black near j w far⟩ :: fs) entries :=
            fun c' entries => Way.around_recolor (by cases side <;> rfl) fs entries
          refine (Stores.paint (Stores.turn_iff.1 stores) .red).bind fun t₁ stores₁ => ?_
          have parent := Stores.cons_iff.1 (Stores.turn_iff.2 stores₁)
          cases suits with
          | red above _ =>
              rw [if_pos rfl]
              refine (Stores.paint parent .black).imp fun t₂ stores₂ => ?_
              exact ⟨_, Stores.cons_iff.2 stores₂, .black above.toBlack sibling, listed .black⟩
          | black above _ =>
              rw [if_neg (by decide)]
              refine (up rfl parent (Shape.link_join ..) above).imp ?_
              rintro t₂ ⟨fs', stores₂, suits₂, around⟩
              refine ⟨_, Stores.cons_iff.2 stores₂, .black suits₂ sibling, fun entries => ?_⟩
              rw [← listed .black, Way.around_cons, Way.around_cons, around]

end Step

theorem repairShort_refits (stores : t.Stores [] fs s) (root : s.link = some i)
    (suits : fs.Suits .black (n + 1)) (enough : fs.length + 3 ≤ bound) :
    Succeeds (t.repairShort bound i) (Refits fs s n) := by
  induction fs generalizing t s i n bound with
  | nil =>
      obtain ⟨bound, rfl⟩ := Nat.exists_eq_add_of_le' (Nat.le_of_add_left_le enough)
      obtain ⟨m, here, parent⟩ := stores.exists_held root
      rw [repairShort, slot_bind here, parent]
      exact .pure ⟨[], stores, .root, fun _ => rfl⟩
  | cons f fs ih =>
      obtain ⟨side, c, k, x, sibling⟩ := f
      rw [List.length_cons] at enough
      obtain ⟨bound, rfl⟩ := Nat.exists_eq_add_of_le' (show 3 ≤ bound by omega)
      have black : ∀ {d}, d = .black → sibling.Balanced d (n + 1) →
          Succeeds (t.repairShort (bound + 3) i) (Refits (⟨side, c, k, x, sibling⟩ :: fs) s n) := by
        rintro _ rfl beside
        obtain ⟨d, e, near, j, w, far, rfl, nearBalanced, farBalanced⟩ :=
          beside.exists_join_black side
        exact repairShort_black stores root suits nearBalanced farBalanced
          fun _ _ _ stores' root' suits' => ih stores' root' suits' (by omega)
      cases suits with
      | red above beside => exact black rfl beside
      | @black _ _ _ _ _ _ d _ above beside =>
          cases d with
          | black => exact black rfl beside
          | red =>
              obtain ⟨near, j, w, far, rfl, nearBalanced, farBalanced⟩ :=
                beside.exists_join_red side
              rw [repairShort_eq stores root nearBalanced farBalanced]
              refine (Stores.turnRed stores).bind fun t₁ stores₁ => ?_
              obtain ⟨d, e, near', l, v, far', rfl, left, right⟩ :=
                nearBalanced.exists_join_black side
              have suits₁ : Way.Suits (⟨side, .red, k, x, .join side .black near' l v far'⟩ ::
                  ⟨side, .black, j, w, far⟩ :: fs) .black (n + 1) :=
                .red (.black above farBalanced) nearBalanced
              refine (repairShort_black stores₁ root suits₁ left right fun h => by cases h).imp ?_
              rintro t₂ ⟨fs', stores₂, suits₂, listed⟩
              refine ⟨fs', stores₂, suits₂, fun entries => ?_⟩
              rw [listed]
              cases side <;> simp [Way.around, Way.before, Way.after, Frame.before, Frame.after,
                Shape.join]

structure Unlinked (fs : Way α) (entries : List (Nat × α)) (i : Nat) (v : α) (t : LinkedTree α) :
    Prop where
  rest : ∃ fs' s n, t.Stores [i] fs' s ∧ (Way.plug fs' s).Balanced .black n ∧
    fs'.around s.entries = fs.around entries
  held : ∃ node, t.slots[i]? = some node ∧ node.value = v

theorem replace_unlinked {near : Shape α} (stores : t.Stores [] fs (.join side c near i v .leaf))
    (balanced : (Way.plug fs near).Balanced .black n) :
    Succeeds (t.replace i near.link) (Unlinked fs near.entries i v) := by
  obtain ⟨held, below, _⟩ := holds_join.1 stores.below
  have slots : (Shape.join side c near i v .leaf).slots.Perm (i :: near.slots) := by
    simpa using Shape.slots_join_perm side c near .leaf i v
  refine (stores.replace (Shape.link_join ..) below slots).imp ?_
  rintro t' ⟨stores', same⟩
  exact ⟨⟨fs, near, n, stores', balanced, rfl⟩, _, same.trans held, Slot.value_facing ..⟩

theorem unlink_unlinked {m : Nat} {near : Shape α} {d : Color}
    (stores : t.Stores [] fs (.join side c near i v .leaf)) (suits : fs.Suits d m)
    (balanced : (Shape.join side c near i v .leaf).Balanced d m) :
    Succeeds (t.unlink i) (Unlinked fs near.entries i v) := by
  have held := (holds_join.1 stores.below).1
  rw [unlink, slot_bind held]
  cases near with
  | leaf =>
      have alone : ((Slot.facing side v c fs.parent none none).left <|>
          (Slot.facing side v c fs.parent none none).right) = none := by cases side <;> rfl
      rw [Shape.link, alone]
      dsimp only
      rw [Slot.color_facing]
      cases c with
      | red =>
          obtain ⟨rfl, bare, _⟩ := Shape.balanced_join_red.1 balanced
          cases bare
          obtain ⟨_, whole⟩ := suits.toBlack.plug .leaf
          exact replace_unlinked stores whole
      | black =>
          obtain ⟨rfl, _, _, _, rfl, bare, _⟩ := Shape.balanced_join_black.1 balanced
          cases bare
          rw [if_pos rfl]
          have enough : fs.length + 3 ≤ t.size + 3 := by
            have := stores.length_slots
            have := Way.length_le fs
            omega
          refine (repairShort_refits stores (Shape.link_join ..) suits enough).bind ?_
          rintro t₁ ⟨fs', stores₁, suits₁, listed⟩
          obtain ⟨_, whole⟩ := suits₁.plug .leaf
          refine (replace_unlinked stores₁ whole).imp ?_
          rintro t₂ ⟨⟨fs₂, s₂, n, stores₂, balanced₂, listed₂⟩, held₂⟩
          exact ⟨⟨fs₂, s₂, n, stores₂, balanced₂, listed₂.trans (listed _)⟩, held₂⟩
  | node e l j w r =>
      have child : ((Slot.facing side v c fs.parent (some j) none).left <|>
          (Slot.facing side v c fs.parent (some j) none).right) = some j := by cases side <;> rfl
      rw [Shape.link, Shape.link, child]
      -- The node is black, and the child a red node without children.
      cases c with
      | red =>
          obtain ⟨rfl, beside, bare⟩ := Shape.balanced_join_red.1 balanced
          cases bare
          cases beside
      | black =>
          obtain ⟨rfl, _, _, _, rfl, beside, bare⟩ := Shape.balanced_join_black.1 balanced
          cases bare
          cases beside with
          | red left right =>
              have below : t.Stores [] (⟨side, .black, i, v, .leaf⟩ :: fs) (.node .red l j w r) :=
                Stores.cons_iff.2 stores
              refine (below.paint_node .black).bind fun t₁ stores₁ => ?_
              obtain ⟨_, whole⟩ := suits.plug (.black left right)
              exact replace_unlinked (Stores.cons_iff.1 stores₁) whole

def moveLast (t : LinkedTree α) (i : Nat) (moved : Slot α) : LinkedTree α :=
  { t with slots := (t.slots.setIfInBounds i moved).pop }

theorem size_moveLast (t : LinkedTree α) (i : Nat) (moved : Slot α) :
    (t.moveLast i moved).size = t.size - 1 := by simp [moveLast, size]

theorem moveLast_other (moved : Slot α) {l : Nat} (less : l < t.size - 1) (differ : i ≠ l) :
    (t.moveLast i moved).slots[l]? = t.slots[l]? := by
  rw [moveLast, Array.getElem?_pop, Array.size_setIfInBounds,
    if_pos (show l < t.slots.size - 1 from less), Array.getElem?_setIfInBounds_ne differ]

theorem moveLast_same (moved : Slot α) (less : i < t.size - 1) :
    (t.moveLast i moved).slots[i]? = some moved := by
  have bound : i < t.slots.size := Nat.lt_of_lt_of_le less (Nat.sub_le ..)
  rw [moveLast, Array.getElem?_pop, Array.size_setIfInBounds,
    if_pos (show i < t.slots.size - 1 from less), Array.getElem?_setIfInBounds_self_of_lt bound]

theorem perm_range_of_cons {slots : List Nat} {m last : Nat} (placed : (last :: slots).Perm (List.range m))
    (eq : last = m - 1) : slots.Perm (List.range (m - 1)) := by
  have positive : m ≠ 0 := by
    rintro rfl
    simpa using placed.length_eq
  rw [show m = m - 1 + 1 by omega, List.range_succ, ← eq] at placed
  rw [← eq]
  exact (placed.trans List.perm_append_comm).cons_inv

theorem Stores.release_last (stores : t.Stores [i] fs s) (last : i = t.size - 1) {m : Slot α}
    (held : t.slots[i]? = some m) :
    Succeeds (t.release i) fun (t', v) => v = m.value ∧ t'.Stores [] fs s := by
  have distinct := stores.distinct
  have same : ∀ l ∈ s.slots ++ fs.slots, (t.moveLast i m).slots[l]? = t.slots[l]? := fun l member => by
    have := stores.lt_size (List.mem_append_right _ member)
    exact moveLast_other m (by grind) (by grind)
  rw [release, slot_bind held]
  dsimp only
  rw [if_pos last, ← last]
  change Succeeds (t.slot i >>= fun moved => Pure.pure (t.moveLast i moved, m.value)) _
  rw [slot_bind held]
  refine .pure ⟨rfl, stores.above.same rfl fun l member => same l (List.mem_append_right _ member),
    stores.below.same fun l member => same l (List.mem_append_left _ member), ?_⟩
  rw [placed_iff, size_moveLast]
  exact perm_range_of_cons (placed_iff.1 stores.placed) last

theorem redirect_holds {l r : Shape α} {last : Nat} (above : t.HoldsAbove (some last) fs)
    (below : t.Holds fs.parent (.node c l last v r))
    (distinct : (l.slots ++ last :: r.slots ++ fs.slots).Nodup) (i : Nat) :
    Succeeds (t.redirect last i) fun t' => t'.HoldsAbove (some i) fs ∧ t'.Holds (some i) l ∧
      t'.Holds (some i) r ∧ t'.slots[last]? = t.slots[last]? ∧ t'.size = t.size := by
  obtain ⟨here, left, right⟩ := below
  rw [redirect, slot_bind here]
  refine (relink_holds above (by grind) (by grind) (some i)).bind ?_
  rintro t₁ ⟨above₁, same₁⟩
  have left₁ := left.same fun j member => same₁.2 j (by grind)
  have right₁ := right.same fun j member => same₁.2 j (by grind)
  refine (adopt_holds left₁ (by grind) (some i)).bind ?_
  rintro t₂ ⟨left₂, root₂, same₂⟩
  have above₂ := above₁.same root₂ fun j member => same₂.2 j (by grind)
  have right₂ := right₁.same fun j member => same₂.2 j (by grind)
  refine (adopt_holds right₂ (by grind) (some i)).imp ?_
  rintro t₃ ⟨right₃, root₃, same₃⟩
  refine ⟨above₂.same root₃ fun j member => same₃.2 j (by grind),
    left₂.same fun j member => same₃.2 j (by grind), right₃, ?_, ?_⟩
  · rw [same₃.2 last (by grind), same₂.2 last (by grind), same₁.2 last (by grind)]
  · rw [same₃.1, same₂.1, same₁.1]

theorem Stores.release_other {l r : Shape α} {last : Nat}
    (stores : t.Stores [i] fs (.node c l last v r)) (eq : last = t.size - 1) {m : Slot α}
    (held : t.slots[i]? = some m) :
    Succeeds (t.release i) fun (t', w) => w = m.value ∧ t'.Stores [] fs (.node c l i v r) := by
  have distinct := stores.distinct
  have small : ∀ j ∈ i :: (l.slots ++ last :: r.slots ++ fs.slots), j < t.size := fun j member =>
    stores.lt_size (by simpa using member)
  simp only [Shape.slots_node] at distinct
  rw [release, slot_bind held]
  dsimp only
  rw [if_neg (by grind), ← eq]
  refine (redirect_holds stores.above stores.below (List.nodup_append.1 distinct).2.1 i).bind ?_
  rintro t' ⟨above, left, right, kept, size⟩
  rw [slot_bind (kept.trans stores.below.1)]
  have same : ∀ j ∈ l.slots ++ r.slots ++ fs.slots,
      (t'.moveLast i ⟨v, c, fs.parent, l.link, r.link⟩).slots[j]? = t'.slots[j]? := fun j member => by
    have := small j (by grind)
    exact moveLast_other _ (by grind) (by grind)
  have last_lt := small last (by grind)
  refine .pure ⟨rfl, above.same rfl fun j member => same j (by grind), ⟨?_,
    left.same fun j member => same j (by grind), right.same fun j member => same j (by grind)⟩, ?_⟩
  · have := small i (by grind)
    exact moveLast_same _ (by grind)
  · have placed := placed_iff.1 stores.placed
    have swap : (last :: (l.slots ++ i :: r.slots ++ fs.slots)).Perm
        (i :: (l.slots ++ last :: r.slots ++ fs.slots)) :=
      ((List.perm_middle.append_right _).cons last).trans
        ((List.Perm.swap i last _).trans ((List.perm_middle.symm.append_right _).cons i))
    rw [Shape.slots_node] at placed
    have size' : (t'.moveLast i ⟨v, c, fs.parent, l.link, r.link⟩).size = t.size - 1 :=
      (size_moveLast ..).trans (congrArg (· - 1) size)
    refine placed_iff.2 (.trans (.of_eq ?_) ((perm_range_of_cons (swap.trans placed) eq).trans
      (.of_eq (congrArg List.range size'.symm))))
    simp

theorem Unlinked.release {entries : List (Nat × α)} (unlinked : t.Unlinked fs entries i v) :
    Succeeds (t.release i) fun (t', w) => w = v ∧ t'.Lists ((fs.around entries).map Prod.snd) := by
  obtain ⟨⟨fs', s, n, stores, balanced, listed⟩, m, held, rfl⟩ := unlinked
  rw [← listed]
  by_cases last : i = t.size - 1
  · refine (stores.release_last last held).imp ?_
    rintro ⟨t', w⟩ ⟨eq, stores'⟩
    exact ⟨eq, stores'.lists balanced⟩
  · have whole : t.Stores [i] [] (Way.plug fs' s) := Stores.plug_iff.1 (by rwa [List.append_nil])
    have member : t.size - 1 ∈ (Way.plug fs' s).slots := by
      have bound := stores.lt_size (i := i) (by simp)
      have placed : t.size - 1 ∈ [i] ++ ((Way.plug fs' s).slots ++ Way.slots ([] : Way α)) := by
        rw [(Stores.placed_iff.1 whole.placed).mem_iff, List.mem_range]
        omega
      simpa [Way.slots, Ne.symm last] using placed
    obtain ⟨fs₁, c, l, w, r, plugged⟩ := Way.exists_plug_of_mem member
    rw [plugged] at whole balanced
    have moved := Stores.plug_iff.2 whole
    rw [List.append_nil] at moved
    refine (moved.release_other rfl held).imp ?_
    rintro ⟨t', w'⟩ ⟨eq, stores'⟩
    refine ⟨eq, ?_⟩
    obtain ⟨_, _, suits, fits⟩ := Way.Suits.of_plug balanced
    obtain ⟨_, balanced'⟩ := suits.plug (fits.relabel i w)
    have lists := stores'.lists balanced'
    rw [← Way.entries_plug, plugged, Way.entries_plug]
    simpa [Way.around] using lists

theorem Stores.exchange {inner : Way α} {l l' r' : Shape α} {e : Color}
    (stores : t.Stores [] fs (.node c l i v (inner.plug (.node e l' j w r')))) :
    Succeeds (t.exchange i j)
      (·.Stores [] fs (.node c l i w (inner.plug (.node e l' j v r')))) := by
  have lower : ∀ {t : LinkedTree α} {v w : α},
      t.Stores [] fs (.node c l i v (inner.plug (.node e l' j w r'))) ↔
        t.Stores [] (inner ++ ⟨.right, c, i, v, l⟩ :: fs) (.node e l' j w r') :=
    (plug_iff.trans (cons_iff (f := ⟨.right, c, i, _, l⟩))).symm
  rw [LinkedTree.exchange, slot_bind stores.below.1, slot_bind (lower.1 stores).below.1]
  refine (stores.change_node (w := w) fun _ _ _ => rfl).bind
    fun t₁ stores₁ => ?_
  exact ((lower.1 stores₁).change_node (w := v) fun _ _ _ => rfl).imp
    fun t₂ stores₂ => lower.2 stores₂

def Isolated (v : α) (others : List α) (result : LinkedTree α × Nat) : Prop :=
  ∃ fs side c near d m, result.1.Stores [] fs (.join side c near result.2 v .leaf) ∧
    fs.Suits d m ∧ (Shape.join side c near result.2 v .leaf).Balanced d m ∧
    (fs.around near.entries).map Prod.snd = others

theorem isolate_isolated {l r : Shape α} {d : Color} {m : Nat}
    (stores : t.Stores [] fs (.node c l i v r)) (suits : fs.Suits d m)
    (balanced : (Shape.node c l i v r).Balanced d m) :
    Succeeds (t.isolate i) (Isolated v ((fs.around (l.entries ++ r.entries)).map Prod.snd)) := by
  rw [isolate, slot_bind stores.below.1]
  cases leftRoot : l.link with
  | none =>
      cases Shape.link_eq_none.1 leftRoot
      exact .pure ⟨fs, .right, c, r, d, m, stores, suits, balanced, by simp⟩
  | some a =>
      cases rightRoot : r.link with
      | none =>
          cases Shape.link_eq_none.1 rightRoot
          exact .pure ⟨fs, .left, c, l, d, m, stores, suits, balanced, by simp⟩
      | some b =>
          have enough : r.height ≤ t.size + 1 := by
            have := stores.length_slots
            have := r.height_le_length
            rw [Shape.slots_node, List.length_append, List.length_cons] at *
            omega
          refine (leftmost_holds stores.below.2.2 rightRoot enough).bind ?_
          rintro j ⟨inner, e, w, r', plugged, first⟩
          subst plugged
          refine (Stores.exchange stores).bind fun t' stores' => .pure ?_
          obtain ⟨_, whole⟩ := suits.plug (balanced.relabel i w)
          have split : Way.plug fs (.node c l i w (inner.plug (.node e .leaf j w r'))) =
              Way.plug (inner ++ ⟨.right, c, i, w, l⟩ :: fs) (.node e .leaf j w r') :=
            (Way.plug_append inner (⟨.right, c, i, w, l⟩ :: fs) _).symm
          rw [split] at whole
          obtain ⟨_, _, suits', fits⟩ := Way.Suits.of_plug whole
          refine ⟨_, .right, e, r', _, _, Stores.plug_iff.2 (Stores.cons_iff.2 stores'), suits',
            fits.relabel j v, ?_⟩
          rw [Way.entries_plug]
          simp [Way.around, Way.before_append, Way.after_append, Way.before, Way.after, Frame.before,
            Frame.after, first]

theorem remove_lists {xs : List α} (lists : t.Lists xs) (cmp : α → α → Ordering) (x : α) :
    Succeeds (t.remove cmp x) fun (t', old) => ∃ before after, Locates cmp x before old after ∧
      xs = before ++ old.toList ++ after ∧ t'.Lists (before ++ after) := by
  have kept := lists
  obtain ⟨s, n, stores, balanced, rfl⟩ := lists
  refine (stores.search_ends cmp x).bind ?_
  rintro trail ⟨fs, s', plugged, towards, ends, _⟩
  subst plugged
  obtain ⟨_, m, suits, fits⟩ := Way.Suits.of_plug balanced
  have here : t.Stores [] (fs ++ []) s' := Stores.plug_iff.2 stores
  rw [List.append_nil] at here
  obtain ⟨spot, shown⟩ := trail
  rw [Shape.toList, Way.entries_plug] at kept ⊢
  cases ends with
  | free =>
      refine .pure ⟨(Way.before fs).map Prod.snd, (Way.after fs).map Prod.snd, towards.locates,
        by simp [Way.around], ?_⟩
      simpa [Way.around] using kept
  | @taken c l r i v equal =>
      refine (isolate_isolated here suits fits).bind ?_
      rintro ⟨t₁, j⟩ ⟨fs₁, side, c₁, near, d₁, m₁, stores₁, suits₁, fits₁, others⟩
      refine (unlink_unlinked stores₁ suits₁ fits₁).bind fun t₂ unlinked => ?_
      refine unlinked.release.bind ?_
      rintro ⟨t₃, w⟩ ⟨eq, lists⟩
      refine .pure ?_
      subst eq
      refine ⟨(Way.before fs ++ l.entries).map Prod.snd, (r.entries ++ Way.after fs).map Prod.snd,
        .of_equal equal, by simp [Way.around], ?_⟩
      rw [others] at lists
      simpa [Way.around] using lists

end LongestMatch.LinkedTree
