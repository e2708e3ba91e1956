import LongestMatch.RedBlack.Search
import LongestMatch.Proofs.RedBlack.Ascending
import LongestMatch.Proofs.RedBlack.Stores

namespace LongestMatch

variable {α β : Type}

def Way.place : Way α → Option (Nat × Side)
  | [] => none
  | f :: _ => some (f.slot, f.side)

def Way.Towards (cmp : α → α → Ordering) (x : α) (fs : Way α) : Prop :=
  ∀ f ∈ fs, sideTowards (cmp f.value x) = some f.side

inductive Ends (cmp : α → α → Ordering) (x : α) (fs : Way α) : Shape α → Spot → Prop
  | taken {c : Color} {l r : Shape α} {i : Nat} {v : α} (equal : cmp v x = .eq) :
      Ends cmp x fs (.node c l i v r) (.taken i)
  | free : Ends cmp x fs .leaf (.free fs.place)

def Shape.edge : Shape α → List Nat
  | .leaf => []
  | .node _ l i _ _ => l.edge ++ [i]

theorem Shape.height_le_length (s : Shape α) : s.height ≤ s.slots.length := by
  induction s with
  | leaf => simp [height]
  | node c l i v r ihl ihr => simp [height]; omega

section Towards

variable {cmp : α → α → Ordering} {x : α} {fs : Way α}

theorem Way.Towards.apart (towards : Way.Towards cmp x fs) {entries : List (Nat × α)}
    (steers : Steers cmp x ((fs.around entries).map Prod.snd))
    (ascending : ((fs.around entries).map Prod.snd).Pairwise (cmp · · = .lt)) :
    (∀ e ∈ Way.before fs, cmp e.2 x = .lt) ∧ ∀ e ∈ Way.after fs, cmp e.2 x = .gt := by
  induction fs generalizing entries with
  | nil => simp [Way.before, Way.after]
  | cons f fs ih =>
      rw [Way.around_cons] at ascending steers
      obtain ⟨lower, upper⟩ := ih (fun g member => towards g (List.mem_cons_of_mem _ member))
        steers ascending
      have here := towards f List.mem_cons_self
      have listed : ∀ e ∈ f.before ++ entries ++ f.after,
          e.2 ∈ (Way.around fs (f.before ++ entries ++ f.after)).map Prod.snd := fun e member =>
        List.mem_map.2 ⟨e, by simp only [Way.around, List.mem_append] at member ⊢; tauto, rfl⟩
      obtain ⟨side, c, i, v, sibling⟩ := f
      rw [List.pairwise_map, Way.around, List.pairwise_append, List.pairwise_append] at ascending
      have node := ascending.1.2.1
      simp only [Way.before, Way.after, List.mem_append]
      cases side with
      | left =>
          have greater : cmp v x = .gt := by cases order : cmp v x <;> simp_all [sideTowards]
          have beyond := (List.pairwise_cons.1 (List.pairwise_append.1 node).2.1).1
          refine ⟨fun e member => lower e (member.resolve_right (by simp [Frame.before])),
            fun e member => member.elim (fun here => ?_) (upper e)⟩
          rcases List.mem_cons.1 here with rfl | beside
          · exact greater
          · exact steers.above v (listed (i, v) (by simp [Frame.after])) e.2
              (listed e (List.mem_append_right _ here)) (beyond e beside) greater
      | right =>
          have less : cmp v x = .lt := by cases order : cmp v x <;> simp_all [sideTowards]
          have below := (List.pairwise_append.1 (List.pairwise_append.1
            (List.pairwise_append.1 node).1).1).2.2
          refine ⟨fun e member => member.elim (lower e) (fun here => ?_),
            fun e member => upper e (member.resolve_left (by simp [Frame.after]))⟩
          rcases List.mem_append.1 here with beside | rest
          · exact steers.below e.2 (listed e (List.mem_append_left _ (List.mem_append_left _ here))) v
              (listed (i, v) (by simp [Frame.before])) (below e beside (i, v) (List.mem_singleton_self _))
              less
          · cases List.mem_singleton.1 rest
            exact less

theorem Way.Towards.locates (towards : Way.Towards cmp x fs) :
    Locates cmp x ((Way.before fs).map Prod.snd) none ((Way.after fs).map Prod.snd) where
  equal := by simp
  apart _ steers ascending := by
    have values : (Way.before fs).map Prod.snd ++ (Way.after fs).map Prod.snd =
        (fs.around []).map Prod.snd := by simp [Way.around]
    rw [values] at steers ascending
    have apart := towards.apart steers ascending
    exact ⟨List.forall_mem_map.2 apart.1, List.forall_mem_map.2 apart.2⟩

end Towards

namespace LinkedTree

variable {t : LinkedTree α} {s : Shape α} {fs : Way α} {cmp : α → α → Ordering} {loose : List Nat}

theorem Stores.length_slots (stores : t.Stores loose fs s) :
    loose.length + (s.slots.length + fs.slots.length) = t.size := by
  have placed := (Stores.placed_iff.1 stores.placed).length_eq
  simpa using placed

theorem searchFrom_ends {p : Option Nat} (holds : t.Holds p s) (cmp : α → α → Ordering)
    {bound : Nat} (enough : s.height < bound) (x : α) (fs : Way α) :
    Succeeds (t.searchFrom cmp x bound fs.place s.link) fun trail =>
      ∃ inner s', s = Way.plug inner s' ∧ Way.Towards cmp x inner ∧
        Ends cmp x (inner ++ fs) s' trail.spot ∧ trail.shown.length ≤ s.height := by
  induction s generalizing p bound fs with
  | leaf =>
      obtain ⟨bound, rfl⟩ := Nat.exists_eq_succ_of_ne_zero (Nat.ne_of_gt (Nat.zero_lt_of_lt enough))
      exact .pure ⟨[], .leaf, rfl, by simp [Way.Towards], .free, Nat.le_refl _⟩
  | node c l i v r ihl ihr =>
      obtain ⟨bound, rfl⟩ := Nat.exists_eq_succ_of_ne_zero (Nat.ne_of_gt (Nat.zero_lt_of_lt enough))
      cases towards : sideTowards (cmp v x) with
      | none =>
          rw [Shape.link, searchFrom, slot_bind holds.1, towards]
          have equal : cmp v x = .eq := by cases order : cmp v x <;> simp_all [sideTowards]
          exact .pure ⟨[], _, rfl, by simp [Way.Towards], .taken equal, by simp [Shape.height]⟩
      | some side =>
          obtain ⟨near, far, eq⟩ := Shape.node_eq_join side c l r i v
          have height : near.height < bound ∧ near.height < (Shape.node c l i v r).height := by
            rw [Shape.height] at enough ⊢
            cases side <;> cases eq <;> omega
          have below : Succeeds (t.searchFrom cmp x bound (some (i, side)) near.link) fun trail =>
              ∃ inner s', near = Way.plug inner s' ∧ Way.Towards cmp x inner ∧
                Ends cmp x (inner ++ ⟨side, c, i, v, far⟩ :: fs) s' trail.spot ∧
                trail.shown.length ≤ near.height := by
            cases side <;> cases eq
            · exact ihl holds.2.1 height.1 (⟨.left, c, i, v, r⟩ :: fs)
            · exact ihr holds.2.2 height.1 (⟨.right, c, i, v, l⟩ :: fs)
          rw [eq] at holds height ⊢
          rw [Shape.link_join, searchFrom, slot_bind (holds_join.1 holds).1, Slot.value_facing,
            towards]
          dsimp only
          rw [Slot.child_facing]
          refine below.bind ?_
          rintro trail ⟨inner, s', plugged, inside, ends, shown⟩
          refine .pure ?_
          refine ⟨inner ++ [⟨side, c, i, v, far⟩], s', ?_, ?_, ?_, ?_⟩
          · rw [Way.plug_append, ← plugged]
            rfl
          · intro f member
            rcases List.mem_append.1 member with member | member
            · exact inside f member
            · cases List.mem_singleton.1 member
              exact towards
          · rwa [List.append_assoc]
          · exact Nat.lt_of_le_of_lt shown height.2

theorem Stores.search_ends (stores : t.Stores [] [] s) (cmp : α → α → Ordering) (x : α) :
    Succeeds (t.search cmp x) fun trail => ∃ fs s', s = Way.plug fs s' ∧ Way.Towards cmp x fs ∧
      Ends cmp x fs s' trail.spot ∧ trail.shown.length ≤ s.height := by
  have enough : s.height < t.size + 1 := by
    have size := stores.length_slots
    have height := s.height_le_length
    simp [Way.slots] at size
    omega
  have ends := searchFrom_ends stores.below cmp enough x []
  rw [show s.link = t.root from stores.above.symm] at ends
  simp only [List.append_nil] at ends
  exact ends

theorem leftmost_holds {p : Option Nat} {i : Nat} (holds : t.Holds p s) (root : s.link = some i)
    {bound : Nat} (enough : s.height ≤ bound) : Succeeds (t.leftmost bound i) fun j =>
      ∃ inner c v r, s = Way.plug inner (.node c .leaf j v r) ∧ Way.before inner = [] := by
  induction s generalizing p i bound with
  | leaf => cases root
  | node c l i v r ihl _ =>
      cases root
      obtain ⟨bound, rfl⟩ : ∃ b, bound = b + 1 :=
        Nat.exists_eq_succ_of_ne_zero (by rw [Shape.height] at enough; omega)
      rw [leftmost, slot_bind holds.1]
      cases l with
      | leaf => exact .pure ⟨[], c, v, r, rfl, rfl⟩
      | node d l j w r' =>
          refine (ihl holds.2.1 rfl ?_).imp ?_
          · rw [Shape.height] at enough
            omega
          · rintro k ⟨inner, c', v', r'', plugged, first⟩
            refine ⟨inner ++ [⟨.left, c, i, v, r⟩], c', v', r'', ?_, ?_⟩
            · rw [Way.plug_append, ← plugged]
              rfl
            · rw [Way.before_append, first]
              rfl

theorem descend_holds {p : Option Nat} (holds : t.Holds p s) {bound : Nat} (enough : s.height < bound)
    (stack : List Nat) : t.descend bound s.link stack = .ok (s.edge ++ stack) := by
  induction s generalizing p bound stack with
  | leaf =>
      obtain ⟨bound, rfl⟩ := Nat.exists_eq_succ_of_ne_zero (Nat.ne_of_gt (Nat.zero_lt_of_lt enough))
      rfl
  | node c l i v r ihl _ =>
      obtain ⟨bound, rfl⟩ := Nat.exists_eq_succ_of_ne_zero (Nat.ne_of_gt (Nat.zero_lt_of_lt enough))
      rw [Shape.height] at enough
      rw [Shape.link, descend, slot_bind holds.1, ihl holds.2.1 (by omega), Shape.edge,
        List.append_assoc]
      rfl

theorem visit_holds {p : Option Nat} (holds : t.Holds p s) (fits : s.height ≤ t.size)
    {bound : Nat} {stack rest : List Nat} (later : t.visit bound stack = .ok rest) :
    t.visit (s.slots.length + bound) (s.edge ++ stack) = .ok (s.slots ++ rest) := by
  induction s generalizing p bound stack rest with
  | leaf => simpa [Shape.edge] using later
  | node c l i v r ihl ihr =>
      rw [Shape.height] at fits
      have right := ihr holds.2.2 (by omega) later
      have here : t.visit (r.slots.length + bound + 1) (i :: stack) = .ok (i :: (r.slots ++ rest)) := by
        rw [visit, slot_bind holds.1, descend_holds holds.2.2 (by omega)]
        change (t.visit _ (r.edge ++ stack) >>= fun rest => Pure.pure (i :: rest)) = _
        rw [right]
        rfl
      have left := ihl holds.2.1 (by omega) here
      rw [Shape.edge, List.append_assoc, List.singleton_append, Shape.slots_node, List.append_assoc,
        List.cons_append, ← left, List.length_append, List.length_cons]
      congr 1
      omega

theorem Stores.order_eq (stores : t.Stores [] [] s) : t.order = .ok s.slots := by
  have size := stores.length_slots
  have height := s.height_le_length
  simp only [Way.slots, Way.around_nil, List.map_nil, List.length_nil] at size
  have all := visit_holds stores.below (by omega) (show t.visit 1 [] = .ok [] from rfl)
  rw [order, show t.root = s.link from stores.above, descend_holds stores.below (by omega)]
  simp only [List.append_nil] at all ⊢
  rw [← size, Nat.zero_add, Nat.add_zero]
  exact all

theorem Holds.value {p : Option Nat} (holds : t.Holds p s) {e : Nat × α} (member : e ∈ s.entries) :
    ∃ n, t.slots[e.1]? = some n ∧ n.value = e.2 := by
  induction s generalizing p with
  | leaf => cases member
  | node c l i v r ihl ihr =>
      rw [Shape.entries_node, List.mem_append, List.mem_cons] at member
      rcases member with left | rfl | right
      · exact ihl holds.2.1 left
      · exact ⟨_, holds.1, rfl⟩
      · exact ihr holds.2.2 right

theorem mapM_values {entries : List (Nat × α)}
    (held : ∀ e ∈ entries, ∃ n, t.slots[e.1]? = some n ∧ n.value = e.2) :
    ((entries.map Prod.fst).mapM fun i => return (← t.slot i).value) =
      (.ok (entries.map Prod.snd) : Except BrokenTree (List α)) := by
  induction entries with
  | nil => rfl
  | cons e entries ih =>
      obtain ⟨n, here, value⟩ := held e List.mem_cons_self
      rw [List.map_cons, List.mapM_cons, slot_bind here,
        ih fun e member => held e (List.mem_cons_of_mem _ member), List.map_cons, value]
      rfl

theorem Stores.toList_eq (stores : t.Stores [] [] s) : t.toList = .ok s.toList := by
  rw [toList, stores.order_eq]
  exact mapM_values fun e => stores.below.value

theorem takeValues_eq {entries : List (Nat × α)} (distinct : (entries.map Prod.fst).Nodup)
    {values : Array (Option α)} (held : ∀ e ∈ entries, values[e.1]? = some (some e.2)) :
    takeValues values (entries.map Prod.fst) = .ok (entries.map Prod.snd) := by
  induction entries generalizing values with
  | nil => rfl
  | cons e entries ih =>
      rw [List.map_cons, List.nodup_cons] at distinct
      have kept : ∀ e' ∈ entries, (values.setIfInBounds e.1 none)[e'.1]? = some (some e'.2) := by
        intro e' member
        have differ : e.1 ≠ e'.1 := fun same =>
          distinct.1 (List.mem_map.2 ⟨e', member, same.symm⟩)
        rw [Array.getElem?_setIfInBounds_ne differ]
        exact held e' (List.mem_cons_of_mem _ member)
      rw [List.map_cons, takeValues, held e List.mem_cons_self]
      dsimp only
      rw [ih distinct.2 kept]
      rfl

theorem Stores.drain_eq (stores : t.Stores [] [] s) : t.drain = .ok ({}, s.toList) := by
  have distinct := stores.distinct
  simp only [Way.slots, Way.around_nil, List.map_nil, List.append_nil, List.nil_append] at distinct
  rw [drain, stores.order_eq]
  change (takeValues _ s.slots >>= fun values => Pure.pure (({} : LinkedTree α), values)) = _
  rw [Shape.slots, takeValues_eq distinct]
  · rfl
  · intro e member
    obtain ⟨n, here, value⟩ := stores.below.value member
    rw [Array.getElem?_map, here, Option.map_some, value]

def Lists (t : LinkedTree α) (xs : List α) : Prop :=
  ∃ s n, t.Stores [] [] s ∧ s.Balanced .black n ∧ s.toList = xs

theorem Stores.lists (stores : t.Stores [] fs s) {n : Nat}
    (balanced : (Way.plug fs s).Balanced .black n) :
    t.Lists ((fs.around s.entries).map Prod.snd) := by
  refine ⟨Way.plug fs s, n, Stores.plug_iff.1 (by rwa [List.append_nil]), balanced, ?_⟩
  rw [Shape.toList, Way.entries_plug]

theorem lists_empty : ({} : LinkedTree α).Lists [] :=
  ⟨.leaf, 0, ⟨rfl, trivial, by simp [size]⟩, .leaf, rfl⟩

variable {xs : List α}

theorem Lists.length_eq (lists : t.Lists xs) : xs.length = t.size := by
  obtain ⟨s, n, stores, _, rfl⟩ := lists
  have size := stores.length_slots
  simp only [List.length_nil, Way.slots, Way.around_nil, List.map_nil, Nat.zero_add,
    Nat.add_zero] at size
  rw [← size, Shape.toList, Shape.slots, List.length_map, List.length_map]

theorem Lists.toList_eq (lists : t.Lists xs) : t.toList = .ok xs := by
  obtain ⟨s, n, stores, _, rfl⟩ := lists
  exact stores.toList_eq

theorem Lists.drain_eq (lists : t.Lists xs) : t.drain = .ok ({}, xs) := by
  obtain ⟨s, n, stores, _, rfl⟩ := lists
  exact stores.drain_eq

theorem find_lists (lists : t.Lists xs) (cmp : α → α → Ordering) (x : α) :
    Succeeds (t.find? cmp x) fun found => ∃ before after, Locates cmp x before found after ∧
      xs = before ++ found.toList ++ after := by
  obtain ⟨s, n, stores, _, rfl⟩ := lists
  refine (stores.search_ends cmp x).bind ?_
  rintro trail ⟨fs, s', plugged, towards, ends, _⟩
  subst plugged
  have here : t.Stores [] (fs ++ []) s' := Stores.plug_iff.2 stores
  obtain ⟨spot, shown⟩ := trail
  rw [Shape.toList, Way.entries_plug]
  cases ends with
  | free => exact .pure ⟨_, _, towards.locates, by simp [Way.around]⟩
  | @taken c l r i v equal =>
      dsimp only
      rw [slot_bind here.below.1]
      exact .pure ⟨(Way.before fs ++ l.entries).map Prod.snd,
        (r.entries ++ Way.after fs).map Prod.snd, .of_equal equal, by simp [Way.around]⟩

theorem Lists.two_pow_shown_le (lists : t.Lists xs) (cmp : α → α → Ordering) (x : α) :
    Succeeds (t.search cmp x) fun trail => 2 ^ trail.shown.length ≤ (t.size + 1) ^ 2 := by
  rw [← lists.length_eq]
  obtain ⟨s, n, stores, balanced, rfl⟩ := lists
  refine (stores.search_ends cmp x).imp ?_
  rintro trail ⟨_, _, _, _, _, short⟩
  rw [Shape.toList, List.length_map]
  exact Nat.le_trans (Nat.pow_le_pow_right Nat.two_pos short) balanced.two_pow_height_le

end LinkedTree

end LongestMatch
