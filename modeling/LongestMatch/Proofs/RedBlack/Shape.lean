import Mathlib.Algebra.GroupWithZero.Nat
import Mathlib.Tactic.Common
import LongestMatch.RedBlack.Linked

/-!
# The trees that links show

A `Shape` is a binary tree that still knows the slot of each node. To look at a node is to take the
shape apart into the subtree at the node and the way from there up to the root, a list of `Frame`s.
Balance is a property of shapes, and of ways the property to make any fitting subtree balanced.
-/

namespace LongestMatch

inductive Shape (α : Type) where
  | leaf
  | node (color : Color) (left : Shape α) (slot : Nat) (value : α) (right : Shape α)

/-- A node on the way from a subtree up to the root: the side on which the way reaches it, and the
subtree on the other side. -/
structure Frame (α : Type) where
  side : Side
  color : Color
  slot : Nat
  value : α
  sibling : Shape α

variable {α : Type}

namespace Shape

def link : Shape α → Option Nat
  | leaf => none
  | node _ _ i _ _ => some i

def entries : Shape α → List (Nat × α)
  | leaf => []
  | node _ l i v r => l.entries ++ (i, v) :: r.entries

def slots (s : Shape α) : List Nat := s.entries.map Prod.fst

def toList (s : Shape α) : List α := s.entries.map Prod.snd

def join (side : Side) (c : Color) (near : Shape α) (i : Nat) (v : α) (far : Shape α) : Shape α :=
  match side with
  | .left => node c near i v far
  | .right => node c far i v near

def height : Shape α → Nat
  | leaf => 0
  | node _ l _ _ r => max l.height r.height + 1

@[simp]
theorem link_join (side : Side) (c : Color) (near far : Shape α) (i : Nat) (v : α) :
    (join side c near i v far).link = some i := by
  cases side <;> rfl

@[simp]
theorem entries_leaf : (leaf : Shape α).entries = [] := rfl

@[simp]
theorem entries_node (c : Color) (l r : Shape α) (i : Nat) (v : α) :
    (node c l i v r).entries = l.entries ++ (i, v) :: r.entries := rfl

@[simp]
theorem slots_leaf : (leaf : Shape α).slots = [] := rfl

@[simp]
theorem slots_node (c : Color) (l r : Shape α) (i : Nat) (v : α) :
    (node c l i v r).slots = l.slots ++ i :: r.slots := by
  simp [slots]

theorem slots_join_perm (side : Side) (c : Color) (near far : Shape α) (i : Nat) (v : α) :
    (join side c near i v far).slots.Perm (i :: (near.slots ++ far.slots)) := by
  cases side
  · exact (List.Perm.of_eq (slots_node ..)).trans List.perm_middle
  · exact (List.Perm.of_eq (slots_node ..)).trans
      (List.perm_middle.trans (List.perm_append_comm.cons i))

theorem mem_slots_of_link {s : Shape α} {i : Nat} (leads : s.link = some i) : i ∈ s.slots := by
  cases s with
  | leaf => cases leads
  | node c l j v r => cases leads; simp

theorem link_eq_none {s : Shape α} : s.link = none ↔ s = .leaf := by
  cases s <;> simp [link]

theorem exists_node_of_link {s : Shape α} {i : Nat} (leads : s.link = some i) :
    ∃ c l v r, s = node c l i v r := by
  cases s with
  | leaf => cases leads
  | node c l j v r => cases leads; exact ⟨c, l, v, r, rfl⟩

theorem node_eq_join (side : Side) (c : Color) (l r : Shape α) (i : Nat) (v : α) :
    ∃ near far, node c l i v r = join side c near i v far := by
  cases side
  · exact ⟨l, r, rfl⟩
  · exact ⟨r, l, rfl⟩

end Shape

namespace Frame

def fill (f : Frame α) (s : Shape α) : Shape α := .join f.side f.color s f.slot f.value f.sibling

def before (f : Frame α) : List (Nat × α) :=
  match f.side with
  | .left => []
  | .right => f.sibling.entries ++ [(f.slot, f.value)]

def after (f : Frame α) : List (Nat × α) :=
  match f.side with
  | .left => (f.slot, f.value) :: f.sibling.entries
  | .right => []

@[simp]
theorem link_fill (f : Frame α) (s : Shape α) : (f.fill s).link = some f.slot := Shape.link_join ..

theorem entries_fill (f : Frame α) (s : Shape α) :
    (f.fill s).entries = f.before ++ s.entries ++ f.after := by
  obtain ⟨side, c, i, v, sibling⟩ := f
  cases side <;> simp [fill, Shape.join, before, after]

end Frame

abbrev Way (α : Type) := List (Frame α)

namespace Way

def plug : Way α → Shape α → Shape α
  | [], s => s
  | f :: fs, s => plug fs (f.fill s)

def before : Way α → List (Nat × α)
  | [] => []
  | f :: fs => before fs ++ f.before

def after : Way α → List (Nat × α)
  | [] => []
  | f :: fs => f.after ++ after fs

def around (fs : Way α) (entries : List (Nat × α)) : List (Nat × α) :=
  before fs ++ entries ++ after fs

def slots (fs : Way α) : List Nat := (fs.around []).map Prod.fst

def parent : Way α → Option Nat
  | [] => none
  | f :: _ => some f.slot

@[simp]
theorem parent_nil : parent ([] : Way α) = none := rfl

@[simp]
theorem parent_cons (f : Frame α) (fs : Way α) : parent (f :: fs) = some f.slot := rfl

@[simp]
theorem around_nil (entries : List (Nat × α)) : around [] entries = entries := by
  simp [around, before, after]

theorem around_cons (f : Frame α) (fs : Way α) (entries : List (Nat × α)) :
    around (f :: fs) entries = around fs (f.before ++ entries ++ f.after) := by
  simp [around, before, after]

@[simp]
theorem around_fill (f : Frame α) (fs : Way α) (s : Shape α) :
    around fs (f.fill s).entries = around (f :: fs) s.entries := by
  rw [f.entries_fill, around_cons]

theorem around_recolor {side : Side} {c d : Color} {i : Nat} {v : α} {sibling sibling' : Shape α}
    (same : sibling'.entries = sibling.entries) (fs : Way α) (entries : List (Nat × α)) :
    around (⟨side, c, i, v, sibling'⟩ :: fs) entries =
      around (⟨side, d, i, v, sibling⟩ :: fs) entries := by
  rw [around_cons, around_cons, Frame.before, Frame.before, Frame.after, Frame.after, same]

theorem entries_plug (fs : Way α) (s : Shape α) : (plug fs s).entries = around fs s.entries := by
  induction fs generalizing s with
  | nil => simp [plug]
  | cons f fs ih => rw [plug, ih, around_fill]

theorem plug_append (inner outer : Way α) (s : Shape α) :
    plug (inner ++ outer) s = plug outer (plug inner s) := by
  induction inner generalizing s with
  | nil => rfl
  | cons f inner ih => exact ih _

theorem before_append (inner outer : Way α) : before (inner ++ outer) = before outer ++ before inner := by
  induction inner with
  | nil => simp [before]
  | cons f inner ih => simp [before, ih]

theorem after_append (inner outer : Way α) : after (inner ++ outer) = after inner ++ after outer := by
  induction inner with
  | nil => simp [after]
  | cons f inner ih => simp [after, ih]

theorem exists_plug_of_mem {s : Shape α} {i : Nat} (member : i ∈ s.slots) :
    ∃ fs c l v r, s = plug fs (.node c l i v r) := by
  induction s with
  | leaf => cases member
  | node c l j w r ihl ihr =>
      have here : i ∈ l.slots ∨ i = j ∨ i ∈ r.slots := by
        simpa [Shape.slots] using member
      rcases here with left | rfl | right
      · obtain ⟨fs, c', l', v, r', rfl⟩ := ihl left
        exact ⟨fs ++ [⟨.left, c, j, w, r⟩], c', l', v, r', by rw [plug_append]; rfl⟩
      · exact ⟨[], c, l, w, r, rfl⟩
      · obtain ⟨fs, c', l', v, r', rfl⟩ := ihr right
        exact ⟨fs ++ [⟨.right, c, j, w, l⟩], c', l', v, r', by rw [plug_append]; rfl⟩

theorem slots_around_perm (fs : Way α) (entries : List (Nat × α)) :
    ((fs.around entries).map Prod.fst).Perm (entries.map Prod.fst ++ fs.slots) := by
  simp only [slots, around, List.map_append, List.append_nil]
  exact (List.perm_append_comm.append_right _).trans (.of_eq (List.append_assoc ..))

theorem slots_cons_perm (f : Frame α) (fs : Way α) :
    (slots (f :: fs)).Perm (f.slot :: (f.sibling.slots ++ fs.slots)) := by
  rw [slots, around_cons]
  refine (slots_around_perm fs _).trans (.append_right fs.slots (.trans ?_ (.refl (f.slot :: f.sibling.slots))))
  obtain ⟨side, c, i, v, sibling⟩ := f
  cases side
  · simp [Frame.before, Frame.after, Shape.slots]
  · simp [Frame.before, Frame.after, Shape.slots]

theorem mem_slots_cons {f : Frame α} {fs : Way α} {i : Nat} :
    i ∈ slots (f :: fs) ↔ i = f.slot ∨ i ∈ f.sibling.slots ∨ i ∈ fs.slots := by
  rw [(slots_cons_perm f fs).mem_iff, List.mem_cons, List.mem_append]

theorem nodup_slots_cons {f : Frame α} {fs : Way α} :
    (slots (f :: fs)).Nodup ↔ (f.slot :: (f.sibling.slots ++ fs.slots)).Nodup :=
  (slots_cons_perm f fs).nodup_iff

theorem length_le (fs : Way α) : fs.length ≤ fs.slots.length := by
  induction fs with
  | nil => exact Nat.zero_le _
  | cons f fs ih =>
      rw [(slots_cons_perm f fs).length_eq, List.length_cons, List.length_cons, List.length_append]
      omega

end Way

namespace Shape

/-- A subtree whose root has this colour, whose red nodes have black children, and with this many
black nodes on each way down. A missing node counts as black. -/
inductive Balanced : Shape α → Color → Nat → Prop
  | leaf : Balanced leaf .black 0
  | red {l r : Shape α} {n i : Nat} {v : α} (left : Balanced l .black n)
      (right : Balanced r .black n) : Balanced (node .red l i v r) .red n
  | black {l r : Shape α} {c d : Color} {n i : Nat} {v : α} (left : Balanced l c n)
      (right : Balanced r d n) : Balanced (node .black l i v r) .black (n + 1)

variable {s : Shape α} {c d : Color} {n : Nat}

theorem balanced_join_red {side : Side} {near far : Shape α} {i : Nat} {v : α} :
    Balanced (join side .red near i v far) c n ↔
      c = .red ∧ Balanced near .black n ∧ Balanced far .black n := by
  cases side <;> constructor
  case left.mp | right.mp => rintro ⟨⟩; simp [*]
  all_goals rintro ⟨rfl, near, far⟩; constructor <;> assumption

theorem balanced_join_black {side : Side} {near far : Shape α} {i : Nat} {v : α} :
    Balanced (join side .black near i v far) c n ↔
      c = .black ∧ ∃ m d e, n = m + 1 ∧ Balanced near d m ∧ Balanced far e m := by
  cases side <;> constructor
  case left.mp | right.mp => rintro ⟨⟩; exact ⟨rfl, _, _, _, rfl, ‹_›, ‹_›⟩
  all_goals rintro ⟨rfl, m, d, e, rfl, near, far⟩; exact .black ‹_› ‹_›

theorem Balanced.children_of_red {side : Side} {near far : Shape α} {i : Nat} {v : α}
    (balanced : (join side c near i v far).Balanced .red n) :
    near.Balanced .black n ∧ far.Balanced .black n := by
  cases c with
  | red => exact (balanced_join_red.1 balanced).2
  | black => cases (balanced_join_black.1 balanced).1

theorem Balanced.relabel {l r : Shape α} {i : Nat} {v : α}
    (balanced : (node d l i v r).Balanced c n) (j : Nat) (w : α) :
    (node d l j w r).Balanced c n := by
  cases balanced with
  | red left right => exact .red left right
  | black left right => exact .black left right

theorem Balanced.exists_join_black (balanced : s.Balanced .black (n + 1)) (side : Side) :
    ∃ d e near i v far, s = join side .black near i v far ∧ near.Balanced d n ∧
      far.Balanced e n := by
  obtain ⟨⟩ | ⟨left, right⟩ := balanced
  cases side
  · exact ⟨_, _, _, _, _, _, rfl, ‹_›, ‹_›⟩
  · exact ⟨_, _, _, _, _, _, rfl, ‹_›, ‹_›⟩

theorem Balanced.exists_join_red (balanced : s.Balanced .red n) (side : Side) :
    ∃ near i v far, s = join side .red near i v far ∧ near.Balanced .black n ∧
      far.Balanced .black n := by
  obtain ⟨⟩ | ⟨left, right⟩ := balanced
  cases side
  · exact ⟨_, _, _, _, rfl, ‹_›, ‹_›⟩
  · exact ⟨_, _, _, _, rfl, ‹_›, ‹_›⟩

theorem Balanced.two_pow_le (balanced : s.Balanced c n) : 2 ^ n ≤ s.entries.length + 1 := by
  induction balanced with
  | leaf => simp
  | red _ _ ihl ihr => simp; omega
  | black _ _ ihl ihr => simp [Nat.pow_succ]; omega

theorem Balanced.height_le (balanced : s.Balanced c n) :
    s.height ≤ 2 * n + if c = .red then 1 else 0 := by
  induction balanced with
  | leaf => simp [height]
  | red _ _ ihl ihr => simp [height] at *; omega
  | black _ _ ihl ihr => simp only [height]; split at ihl <;> split at ihr <;> simp <;> omega

theorem Balanced.two_pow_height_le (balanced : s.Balanced .black n) :
    2 ^ s.height ≤ (s.entries.length + 1) ^ 2 := calc
  2 ^ s.height ≤ 2 ^ (n * 2) := Nat.pow_le_pow_right (by decide) (by
    have := balanced.height_le
    simp at this
    omega)
  _ = (2 ^ n) ^ 2 := Nat.pow_mul 2 n 2
  _ ≤ (s.entries.length + 1) ^ 2 := Nat.pow_le_pow_left balanced.two_pow_le 2

end Shape

namespace Way

open Shape

/-- The way makes a tree with a black root of every subtree with this colour and black height. -/
inductive Suits : Way α → Color → Nat → Prop
  | root {n : Nat} : Suits [] .black n
  | red {side : Side} {i : Nat} {v : α} {sibling : Shape α} {fs : Way α} {n : Nat}
      (above : Suits fs .red n) (beside : sibling.Balanced .black n) :
      Suits (⟨side, .red, i, v, sibling⟩ :: fs) .black n
  | black {side : Side} {i : Nat} {v : α} {sibling : Shape α} {fs : Way α} {c d : Color} {n : Nat}
      (above : Suits fs .black (n + 1)) (beside : sibling.Balanced d n) :
      Suits (⟨side, .black, i, v, sibling⟩ :: fs) c n

variable {fs : Way α} {f : Frame α} {s : Shape α} {c : Color} {n : Nat}

theorem Suits.toBlack (suits : Suits fs c n) : Suits fs .black n := by
  cases suits with
  | root => exact .root
  | red above beside => exact .red above beside
  | black above beside => exact .black above beside

theorem Suits.reseat {side side' : Side} {i j : Nat} {v w : α} {sibling sibling' : Shape α}
    (suits : Suits (⟨side, c, i, v, sibling⟩ :: fs) .black n) (balanced : sibling'.Balanced .black n) :
    Suits (⟨side', c, j, w, sibling'⟩ :: fs) .black n := by
  cases suits with
  | red above _ => exact .red above balanced
  | black above _ => exact .black above balanced

theorem Suits.fill (suits : Suits (f :: fs) c n) (balanced : s.Balanced c n) :
    ∃ m, Suits fs f.color m ∧ (f.fill s).Balanced f.color m := by
  cases suits with
  | red above beside => exact ⟨n, above, balanced_join_red.2 ⟨rfl, balanced, beside⟩⟩
  | black above beside =>
      exact ⟨n + 1, above, balanced_join_black.2 ⟨rfl, n, c, _, rfl, balanced, beside⟩⟩

theorem Suits.plug (suits : Suits fs c n) (balanced : s.Balanced c n) :
    ∃ m, (Way.plug fs s).Balanced .black m := by
  induction fs generalizing s c n with
  | nil => cases suits; exact ⟨n, balanced⟩
  | cons f fs ih =>
      obtain ⟨m, above, filled⟩ := suits.fill balanced
      exact ih above filled

theorem Suits.of_plug (balanced : (Way.plug fs s).Balanced .black n) :
    ∃ c m, Suits fs c m ∧ s.Balanced c m := by
  induction fs generalizing s with
  | nil => exact ⟨.black, n, .root, balanced⟩
  | cons f fs ih =>
      obtain ⟨c, m, above, filled⟩ := ih balanced
      obtain ⟨side, color, i, v, sibling⟩ := f
      cases color with
      | red =>
          obtain ⟨rfl, here, beside⟩ := balanced_join_red.1 filled
          exact ⟨.black, m, .red above beside, here⟩
      | black =>
          obtain ⟨rfl, m, d, e, rfl, here, beside⟩ := balanced_join_black.1 filled
          exact ⟨d, m, .black above beside, here⟩

end Way

end LongestMatch
