import LongestMatch.RedBlack.Insert
import LongestMatch.Proofs.RedBlack.Search

namespace LongestMatch.LinkedTree

variable {α : Type} {t : LinkedTree α} {s : Shape α} {f : Frame α} {fs : Way α} {loose : List Nat}

theorem blackenRoot_lists (stores : t.Stores [] fs s) {c : Color} {n : Nat}
    (balanced : (Way.plug fs s).Balanced c n) :
    Succeeds t.blackenRoot (·.Lists ((fs.around s.entries).map Prod.snd)) := by
  have whole : t.Stores [] [] (Way.plug fs s) := Stores.plug_iff.1 (by rwa [List.append_nil])
  rw [← Way.entries_plug]
  generalize Way.plug fs s = s at whole balanced
  have root : t.root = s.link := whole.above
  cases balanced with
  | leaf => 
      rw [blackenRoot, root]
      exact .pure ⟨.leaf, 0, whole, .leaf, rfl⟩
  | red left right => 
      rw [blackenRoot, root]
      exact (whole.paint_node .black).imp fun t' stores' =>
        ⟨_, _, stores', .black left right, rfl⟩
  | black left right =>
      rw [blackenRoot, root]
      exact (whole.paint_node .black).imp fun t' stores' =>
        ⟨_, _, stores', .black left right, rfl⟩

theorem isRed_holds {p : Option Nat} (holds : t.Holds p s) {c : Color} {n : Nat}
    (balanced : s.Balanced c n) : t.isRed s.link = .ok (c == .red) := by
  cases balanced with
  | leaf => rfl
  | red left right => rw [Shape.link, isRed, slot_bind holds.1]; rfl
  | black left right => rw [Shape.link, isRed, slot_bind holds.1]; rfl

section Raise

variable {side : Side} {c d : Color} {s₁ s₂ far : Shape α} {i j : Nat} {v w : α}

theorem Stores.raise
    (stores : t.Stores loose fs (.join side c (.join side d s₁ j w s₂) i v far)) :
    Succeeds (do
      let t ← t.paint j .black
      let t ← t.paint i .red
      t.rotate side.other i)
    (·.Stores loose fs (.join side .black s₁ j w (.join side .red s₂ i v far))) := by
  have child : t.Stores loose (⟨side, c, i, v, far⟩ :: fs) (.join side d s₁ j w s₂) := cons_iff.2 stores
  refine (child.paint .black).bind fun t₁ stores₁ => ?_
  refine (Stores.paint (cons_iff.1 stores₁) .red).bind fun t₂ stores₂ => ?_
  have turned : t₂.Stores loose fs
      (.join side.other .red far i v (.join side.other .black s₂ j w s₁)) := by
    rwa [Shape.join_other, Shape.join_other]
  refine turned.rotate.imp fun t₃ stores₃ => ?_
  rwa [Shape.join_other, Shape.join_other] at stores₃

theorem Stores.straighten {inner : Side} {sibling uncle : Shape α} {k : Nat} {x : α} {n : Nat}
    (stores : t.Stores loose fs (.join side c (.join inner .red s j w sibling) k x uncle))
    (root : s.link = some i) (balanced : s.Balanced .red n) (beside : sibling.Balanced .black n)
    (above : uncle.Balanced .black n) :
    Succeeds (t.straighten side k j i) fun t' => ∃ s', t'.Stores loose fs s' ∧
      s'.Balanced .black (n + 1) ∧
      s'.entries = (Shape.join side c (.join inner .red s j w sibling) k x uncle).entries := by
  have child : t.Stores loose (⟨inner, .red, j, w, sibling⟩ :: ⟨side, c, k, x, uncle⟩ :: fs) s :=
    cons_iff.2 (cons_iff.2 stores)
  have held := child.above.1
  have differ : sibling.link ≠ some i := child.link_sibling_ne root
  rw [LinkedTree.straighten, slot_bind held]
  rcases (show inner = side ∨ inner = side.other by cases inner <;> cases side <;> simp [Side.other])
    with rfl | rfl
  · have straight : ¬ (Slot.facing inner w .red (some k) s.link sibling.link).child inner.other =
        some i := by simpa using differ
    simp only [Way.parent_cons, straight, if_false]
    refine stores.raise.imp fun t' stores' => ⟨_, stores', ?_, ?_⟩
    · exact Shape.balanced_join_black.2 ⟨rfl, n, _, _, rfl, balanced,
        Shape.balanced_join_red.2 ⟨rfl, beside, above⟩⟩
    · cases inner <;> simp [Shape.join]
  · have bent : (Slot.facing side.other w .red (some k) s.link sibling.link).child side.other =
        some i := by simpa using root
    simp only [Way.parent_cons, bent, if_true]
    obtain ⟨e, l, v, r, rfl⟩ := Shape.exists_node_of_link root
    obtain ⟨near, far, eq⟩ := Shape.node_eq_join side e l r i v
    rw [eq] at stores balanced ⊢
    have line : t.Stores loose (⟨side, c, k, x, uncle⟩ :: fs)
        (.join side .red sibling j w (.join side e near i v far)) := by
      rw [← Shape.join_other]
      exact cons_iff.2 stores
    refine line.rotate.bind fun t₁ stores₁ => ?_
    refine (Stores.raise (cons_iff.1 stores₁)).imp fun t₂ stores₂ => ⟨_, stores₂, ?_, ?_⟩
    · obtain ⟨nearBalanced, farBalanced⟩ := balanced.children_of_red
      exact Shape.balanced_join_black.2 ⟨rfl, n, _, _, rfl,
        Shape.balanced_join_red.2 ⟨rfl, beside, nearBalanced⟩,
        Shape.balanced_join_red.2 ⟨rfl, farBalanced, above⟩⟩
    · cases side <;> simp [Shape.join, Side.other]

end Raise

theorem Stores.recolor {inner side : Side} {sibling uncle : Shape α} {j k n : Nat} {w x : α}
    (stores : t.Stores loose fs (.join side .black (.join inner .red s j w sibling) k x uncle))
    (balanced : s.Balanced .red n) (beside : sibling.Balanced .black n)
    (above : uncle.Balanced .red n) :
    Succeeds (t.recolor k j uncle.link) fun t' => ∃ s', t'.Stores loose fs s' ∧
      s'.link = some k ∧ s'.Balanced .red (n + 1) ∧ s'.entries =
        (Shape.join side .black (.join inner .red s j w sibling) k x uncle).entries := by
  obtain ⟨⟩ := above
  rename_i l r u y left right
  have parent : t.Stores loose (⟨side, .black, k, x, .node .red l u y r⟩ :: fs)
      (.join inner .red s j w sibling) := cons_iff.2 stores
  refine (parent.paint .black).bind fun t₁ stores₁ => ?_
  refine ((turn_iff.1 stores₁).paint_node .black).bind fun t₂ stores₂ => ?_
  have grandparent : t₂.Stores loose fs (.join side .black (.join inner .black s j w sibling) k x
      (.node .black l u y r)) := cons_iff.1 (turn_iff.2 stores₂)
  refine (grandparent.paint .red).imp fun t₃ stores₃ => ⟨_, stores₃, Shape.link_join .., ?_, ?_⟩
  · exact Shape.balanced_join_red.2 ⟨rfl,
      Shape.balanced_join_black.2 ⟨rfl, n, _, _, rfl, balanced, beside⟩, .black left right⟩
  · cases side <;> cases inner <;> simp [Shape.join]

theorem repairRed_lists {i n bound : Nat} (stores : t.Stores [] fs s) (root : s.link = some i)
    (balanced : s.Balanced .red n) (suits : fs.Suits .black n) (enough : fs.length < bound) :
    Succeeds (t.repairRed bound i) (·.Lists ((fs.around s.entries).map Prod.snd)) := by
  induction bound generalizing t fs s i n with
  | zero => cases enough
  | succ bound ih =>
      obtain ⟨m, here, parent⟩ := stores.exists_held root
      rw [repairRed, slot_bind here, parent]
      cases suits with
      | root => exact blackenRoot_lists stores balanced
      | black above beside =>
          obtain ⟨_, whole⟩ := (Way.Suits.black above beside).plug balanced
          rw [Way.parent_cons]
          dsimp only
          rw [slot_bind stores.above.1, Slot.color_facing, if_pos rfl]
          exact blackenRoot_lists stores whole
      | @red inner j w sibling _ _ above beside =>
          cases above with
          | @black side k x uncle fs _ d _ above uncleBalanced =>
              have raised := Stores.cons_iff.1 stores
              have whole := Stores.cons_iff.1 raised
              rw [Way.parent_cons]
              dsimp only
              rw [slot_bind stores.above.1, Slot.color_facing, if_neg (by simp),
                Slot.parent_facing, Way.parent_cons]
              dsimp only
              rw [slot_bind raised.above.1, Frame.link_fill, raised.sideOf_eq (Frame.link_fill ..)]
              dsimp only
              rw [Slot.child_facing_other, isRed_holds raised.above.2.1 uncleBalanced]
              have listed : Way.around fs (Shape.join side .black (.join inner .red s j w sibling)
                  k x uncle).entries = Way.around (⟨inner, .red, j, w, sibling⟩ ::
                    ⟨side, .black, k, x, uncle⟩ :: fs) s.entries :=
                (Way.around_fill ⟨side, .black, k, x, uncle⟩ fs _).trans
                  (Way.around_fill ⟨inner, .red, j, w, sibling⟩ _ s)
              rw [← listed]
              cases d with
              | black =>
                  change Succeeds (t.straighten side k j i >>= blackenRoot) _
                  refine (Stores.straighten whole root balanced beside uncleBalanced).bind ?_
                  rintro t₁ ⟨s₁, stores₁, balanced₁, entries⟩
                  obtain ⟨_, fits⟩ := above.plug balanced₁
                  rw [← entries]
                  exact blackenRoot_lists stores₁ fits
              | red =>
                  change Succeeds (t.recolor k j uncle.link >>= fun t' => t'.repairRed bound k) _
                  refine (Stores.recolor whole balanced beside uncleBalanced).bind ?_
                  rintro t₁ ⟨s₁, stores₁, root₁, balanced₁, entries⟩
                  rw [← entries]
                  simp only [List.length_cons] at enough
                  exact ih stores₁ root₁ balanced₁ above (by omega)

theorem attach_lists (stores : t.Stores [] fs .leaf) (suits : fs.Suits .black 0) (x : α) :
    Succeeds (t.attach x fs.place) (·.Lists ((fs.around [(t.size, x)]).map Prod.snd)) := by
  have size := stores.length_slots
  have small : ∀ i ∈ fs.slots, i < t.size := fun i member => stores.lt_size (by simpa using member)
  cases fs with
  | nil =>
      have empty : t.size = 0 := by simpa [Way.slots] using size.symm
      refine .pure ⟨.node .black .leaf 0 x .leaf, 1, ⟨rfl, ⟨?_, trivial, trivial⟩, ?_⟩,
        .black .leaf .leaf, rfl⟩
      · simp [← empty, LinkedTree.size]
        rfl
      · simp [LinkedTree.size] at empty ⊢
        simp [empty]
  | cons f fs =>
      let pushed : LinkedTree α :=
        { t with slots := t.slots.push { value := x, color := .red, parent := some f.slot } }
      have same : ∀ i < t.size, pushed.slots[i]? = t.slots[i]? := fun i less => by
        rw [Array.getElem?_push, if_neg (show i ≠ t.slots.size from Nat.ne_of_lt less)]
      have apart := (List.nodup_append.1 stores.distinct).2.1
      rw [((Way.slots_cons_perm _ _).append_left _).nodup_iff] at apart
      simp only [Way.mem_slots_cons] at small
      obtain ⟨here, beside, above⟩ := stores.above
      have here₁ := (same _ (small _ (.inl rfl))).trans here
      have beside₁ : pushed.Holds (some f.slot) f.sibling := beside.same fun i member =>
        same i (small i (.inr (.inl member)))
      have above₁ : pushed.HoldsAbove (some f.slot) fs := above.same rfl fun i member =>
        same i (small i (.inr (.inr member)))
      have node₁ : pushed.slots[t.size]? = some ⟨x, .red, some f.slot, none, none⟩ := 
        Array.getElem?_push_size
      let t₂ := pushed.write f.slot
        (.facing f.side f.value f.color (Way.parent fs) (some t.size) f.sibling.link)
      have stores₂ : t₂.Stores [] (f :: fs) (.node .red .leaf t.size x .leaf) := by
        refine ⟨⟨write_same here₁, beside₁.write ?_ _, above₁.write ?_ _⟩,
          ⟨?_, trivial, trivial⟩, ?_⟩
        · grind
        · grind
        · exact ((sameBut_write _ _ _).2 _ (by grind)).trans node₁
        · rw [Stores.placed_iff, (sameBut_write ..).1]
          have pushedSize : pushed.size = t.size + 1 := Array.size_push _
          rw [pushedSize, List.range_succ]
          have old := (Stores.placed_iff.1 stores.placed).append_right [t.size]
          simp only [Shape.slots_leaf, Shape.slots_node, List.nil_append] at old ⊢
          exact List.perm_append_comm.trans old
      have enough : (f :: fs).length < t₂.size := by
        have length := stores₂.length_slots
        have short := Way.length_le (f :: fs)
        simp only [List.length_nil, Shape.slots_node, Shape.slots_leaf, List.nil_append,
          List.length_singleton] at length
        omega
      change Succeeds (pushed.change f.slot _ >>= fun t' => t'.repairRed t'.size t.size) _
      rw [change_bind here₁, Slot.withChild_facing]
      exact repairRed_lists stores₂ rfl (.red .leaf .leaf) suits enough

theorem insert_lists {xs : List α} (lists : t.Lists xs) (cmp : α → α → Ordering) (x : α) :
    Succeeds (t.insert cmp x) fun (t', old) => ∃ before after, Locates cmp x before old after ∧
      xs = before ++ old.toList ++ after ∧ t'.Lists (before ++ x :: after) := by
  obtain ⟨s, n, stores, balanced, rfl⟩ := lists
  refine (stores.search_ends cmp x).bind ?_
  rintro trail ⟨fs, s', plugged, towards, ends, _⟩
  subst plugged
  obtain ⟨_, m, suits, fits⟩ := Way.Suits.of_plug balanced
  have here : t.Stores [] (fs ++ []) s' := Stores.plug_iff.2 stores
  rw [List.append_nil] at here
  obtain ⟨spot, shown⟩ := trail
  rw [Shape.toList, Way.entries_plug]
  cases ends with
  | @taken c l r i v equal =>
      dsimp only
      rw [slot_bind here.below.1]
      refine (here.change_node (w := x) fun _ _ _ => rfl).bind
        fun t' stores' => .pure ?_
      refine ⟨(Way.before fs ++ l.entries).map Prod.snd, (r.entries ++ Way.after fs).map Prod.snd,
        .of_equal equal, by simp [Way.around], ?_⟩
      obtain ⟨_, whole⟩ := suits.plug (fits.relabel i x)
      have lists := stores'.lists whole
      simpa [Way.around, Shape.join] using lists
  | free =>
      cases fits
      refine (attach_lists here suits x).bind fun t' lists => .pure ?_
      refine ⟨(Way.before fs).map Prod.snd, (Way.after fs).map Prod.snd, towards.locates,
        by simp [Way.around], ?_⟩
      simpa [Way.around] using lists

end LongestMatch.LinkedTree
