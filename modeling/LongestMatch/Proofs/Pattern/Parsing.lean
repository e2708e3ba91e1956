import LongestMatch.Proofs.Pattern.Units

/-!
# How the parser reads bodies

While a body is read, the stack holds the items that wait for what comes after them. What they make
of it is the invariant: the body read so far, applied to what is still to be read, is its language.
A class or parenthesis behind an item makes the parser put all waiting items together, which is
where the body is cut.
-/

namespace LongestMatch.Pattern

open Position Build

variable {dotMatchesAny : Bool} {s t lo : Nat} {v : Value} {stack : List (Nat × Value)}
  {signs : List Sign} {g h : Graph} {L M : Language Nat}

theorem Position.Pushes.then_ {p : Position} {lo₁ state state' : Nat} {stack' : List (Nat × Value)}
    {signs' : List Sign} (first : p.Pushes dotMatchesAny lo₁ state stack signs L)
    (le : lo ≤ lo₁)
    (second : ∀ f h, f.Owns h (Set.Ico lo₁ h.size) L → p.graph.Grows (Set.Ico lo₁ p.graph.size) h →
      Pushes dotMatchesAny ⟨(state, .fragment f) :: stack, signs, h⟩ lo state' stack' signs' M) :
    p.Pushes dotMatchesAny lo state' stack' signs' M := by
  obtain ⟨f, h, goes, owns, grown⟩ := first
  obtain ⟨f', h', goes', owns', grown'⟩ := second f h owns grown
  refine ⟨f', h', goes.trans goes', owns', ?_⟩
  refine (grown.mono (Set.Ico_subset_Ico_left le)).trans grown' fun n old member => ?_
  exact ⟨member.1, old⟩

namespace Atom

def opening : Atom → Symbol
  | letter _ => .char
  | ofClass .. => .lbracket
  | group _ => .lparen

def entry (l : Level) : Atom → Nat
  | letter _ => l.char
  | ofClass .. => l.lbracket
  | group _ => l.lparen

end Atom

def Atom.IsRead (dotMatchesAny : Bool) (l : Level) (a : Atom) : Prop :=
  ∀ (signs : List Sign) {s : Nat} {v : Value} {stack : List (Nat × Value)} {g : Graph},
    table.action? s a.opening = some (.shift (a.entry l)) →
    table.action? s .unit = some (.shift l.unit) → (upcoming signs).1 ∈ l.follows →
    Pushes dotMatchesAny ⟨(s, v) :: stack, a.signs ++ signs, g⟩ g.size l.unit ((s, v) :: stack) signs
      (a.language true)

theorem pushes_item {l : Level} {a : Atom} (read : a.IsRead dotMatchesAny l) (times : Repeat)
    (start : table.action? s a.opening = some (.shift (a.entry l)))
    (unit : table.action? s .unit = some (.shift l.unit))
    (exp : table.action? s .exp = some (.shift t)) (light : stateWeight t = 1)
    (next : (upcoming signs).1 ∈ l.ends) :
    Pushes dotMatchesAny ⟨(s, v) :: stack, a.signs ++ times.signs ++ signs, g⟩ g.size t
      ((s, v) :: stack) signs (times.of (a.language true)) := by
  rw [List.append_assoc]
  cases times with
  | once =>
      refine (read _ start unit (List.mem_cons_of_mem _ (List.mem_cons_of_mem _ next))).then_
        (Nat.le_refl _) fun f h owns grown => ?_
      refine ⟨f, h, ?_, owns, .refl _ _⟩
      refine goes_reduce [] 1 (l.action_unit _ next) rfl (by decide)
        (yields_pure _ _) exp ?_
      rw [light]
      cases l <;> exact (by decide : 1 < 2)
  | plus =>
      refine (read (mark .plus :: signs) start unit List.mem_cons_self).then_
        (Nat.le_refl _) fun f h owns grown => ?_
      refine .after (goes_shift (mark .plus) l.shift_plus) rfl ?_
      refine pushes_reduce [_] 4 (l.action_plus _ next) rfl (by decide)
        rfl ((Fragment.makes_plus owns).interval grown.size_le) exp ?_
      rw [light]
      cases l <;> exact (by decide : 1 < 3)
  | star =>
      refine (read (mark .times :: signs) start unit
        (List.mem_cons_of_mem _ List.mem_cons_self)).then_ (Nat.le_refl _)
          fun f h owns grown => ?_
      refine .after (goes_shift (mark .times) l.shift_times) rfl ?_
      refine pushes_reduce [_] 5 (l.action_times _ next) rfl (by decide)
        rfl ((Fragment.makes_star owns).interval grown.size_le) exp ?_
      rw [light]
      cases l <;> exact (by decide : 1 < 3)

inductive Place where
  | whole
  | group (level : Level)

namespace Place

def level : Place → Level
  | whole => .outer
  | group _ => .inner

def base : Place → Nat
  | whole => 0
  | group l => l.lparen

def first : Place → Nat
  | whole => 1
  | group .outer => 15
  | group .inner => 31

end Place

structure Waiting where
  fragment : Fragment
  joint : Joint
  language : Language Nat

def Place.expression (p : Place) : List Waiting → Nat
  | [] => p.first
  | ⟨_, .next, _⟩ :: _ => p.level.after
  | ⟨_, .bar, _⟩ :: _ => p.level.choice

def Place.holding (p : Place) (below : List (Nat × Value)) (v : Value) :
    List Waiting → List (Nat × Value)
  | [] => (p.base, v) :: below
  | ⟨f, .next, _⟩ :: waiting => (p.expression waiting, .fragment f) :: p.holding below v waiting
  | ⟨f, .bar, _⟩ :: waiting =>
    (p.level.bar, .none) :: (p.expression waiting, .fragment f) :: p.holding below v waiting

def Place.top (p : Place) : List Waiting → Nat
  | [] => p.base
  | ⟨_, .next, _⟩ :: waiting => p.expression waiting
  | ⟨_, .bar, _⟩ :: _ => p.level.bar

/-- What items that wait make of what comes after them. -/
def plug : List Waiting → Language Nat → Language Nat
  | [], L => L
  | w :: waiting, L => plug waiting (w.joint.of w.language L)

def Owned (g : Graph) (lo : Nat) : List Waiting → (hi : Nat) → Prop
  | [], hi => hi = lo
  | w :: waiting, hi => ∃ mid ≤ hi, w.fragment.Owns g (Set.Ico mid hi) w.language ∧
      Owned g lo waiting mid

theorem Owned.le {waiting : List Waiting} {hi : Nat} (owned : Owned g lo waiting hi) : lo ≤ hi := by
  induction waiting generalizing hi with
  | nil => exact Nat.le_of_eq owned.symm
  | cons w waiting ih =>
      obtain ⟨mid, le, _, rest⟩ := owned
      exact Nat.le_trans (ih rest) le

theorem Owned.of_grows {waiting : List Waiting} {hi : Nat} {nodes : Set NodeId}
    (owned : Owned g lo waiting hi) (grown : g.Grows nodes h) (later : ∀ n ∈ nodes, hi ≤ n) :
    Owned h lo waiting hi := by
  induction waiting generalizing hi with
  | nil => exact owned
  | cons w waiting ih =>
      obtain ⟨mid, le, owns, rest⟩ := owned
      refine ⟨mid, le, owns.of_grows grown ?_, ih rest fun n member => Nat.le_trans le (later n member)⟩
      rw [Set.disjoint_left]
      exact fun n member changed => Nat.not_lt.2 (later n changed) member.2

variable (p : Place) (below : List (Nat × Value)) (v : Value) {waiting : List Waiting}

theorem holding_eq (waiting : List Waiting) :
    ∃ w rest, p.holding below v waiting = (p.top waiting, w) :: rest := by
  rcases waiting with _ | ⟨⟨_, _ | _, _⟩, _⟩ <;> exact ⟨_, _, rfl⟩

theorem top_unit (waiting : List Waiting) :
    table.action? (p.top waiting) .unit = some (.shift p.level.unit) := by
  rcases waiting with _ | ⟨⟨_, _ | _, _⟩, _ | ⟨⟨_, _ | _, _⟩, _⟩⟩ <;> rcases p with _ | (_ | _) <;> rfl

theorem top_exp (waiting : List Waiting) :
    table.action? (p.top waiting) .exp = some (.shift (p.expression waiting)) := by
  rcases waiting with _ | ⟨⟨_, _ | _, _⟩, _ | ⟨⟨_, _ | _, _⟩, _⟩⟩ <;> rcases p with _ | (_ | _) <;> rfl

theorem top_char (waiting : List Waiting) :
    table.action? (p.top waiting) .char = some (.shift p.level.char) := by
  rcases waiting with _ | ⟨⟨_, _ | _, _⟩, _ | ⟨⟨_, _ | _, _⟩, _⟩⟩ <;> rcases p with _ | (_ | _) <;> rfl

theorem weight_expression (waiting : List Waiting) : stateWeight (p.expression waiting) = 1 := by
  rcases waiting with _ | ⟨⟨_, _ | _, _⟩, _⟩ <;> rcases p with _ | (_ | _) <;> rfl

variable {f : Fragment} {hi : Nat}

theorem action_after (l : Level) : ∀ symbol ∈ [Symbol.lparen, .lbracket, l.closer],
    table.action? l.after symbol = some (.reduce 2) := by cases l <;> decide

theorem action_choice (l : Level) : ∀ symbol ∈ [Symbol.bar, .lparen, .lbracket, l.closer],
    table.action? l.choice symbol = some (.reduce 3) := by cases l <;> decide

theorem exists_merge (dotMatchesAny : Bool) (signs : List Sign) {w : Waiting} (owned : Owned g lo (w :: waiting) hi)
    (owns : f.Owns g (Set.Ico hi g.size) L) (le : hi ≤ g.size)
    (next : (upcoming signs).1 ∈ [Symbol.lparen, .lbracket, p.level.closer] ∨
      w.joint = .bar ∧ (upcoming signs).1 = .bar) :
    ∃ mid f' h, Goes dotMatchesAny
        ⟨(p.expression (w :: waiting), .fragment f) :: p.holding below v (w :: waiting), signs, g⟩
        ⟨(p.expression waiting, .fragment f') :: p.holding below v waiting, signs, h⟩ ∧
      Owned h lo waiting mid ∧ mid ≤ h.size ∧
        f'.Owns h (Set.Ico mid h.size) (w.joint.of w.language L) ∧
          g.Grows (Set.Ico lo g.size) h := by
  obtain ⟨mid, order, ownsW, rest⟩ := owned
  have union := Set.Ico_union_Ico_eq_Ico order le
  have apart : Disjoint (Set.Ico mid hi) (Set.Ico hi g.size) := by
    rw [Set.disjoint_left]
    exact fun n before after => Nat.not_lt.2 after.1 before.2
  obtain ⟨u, deeper, top⟩ := holding_eq p below v waiting
  have weight := weight_expression p waiting
  -- Both productions leave an expression where the item stood.
  have finish : Pushes dotMatchesAny
      ⟨(p.expression (w :: waiting), .fragment f) :: p.holding below v (w :: waiting), signs, g⟩ mid
      (p.expression waiting) (p.holding below v waiting) signs (w.joint.of w.language L) := by
    obtain ⟨fragment, joint, language⟩ := w
    cases joint with
    | next =>
        have reads := next.resolve_right fun bar => Joint.noConfusion bar.1
        have made := Fragment.makes_concatenate ownsW owns apart
        rw [union] at made
        simp only [Place.holding, top]
        refine pushes_reduce [_] 2 (action_after _ _ reads) rfl (by decide)
          rfl (made.interval (Nat.le_trans order le)) (top_exp p waiting) ?_
        rw [weight, stackWeight]
        show 1 < stateWeight p.level.after + (stateWeight (p.expression waiting) + 0)
        have := stateWeight_pos p.level.after
        omega
    | bar =>
        have reads : (upcoming signs).1 ∈ [Symbol.bar, .lparen, .lbracket, p.level.closer] :=
          next.elim (List.mem_cons_of_mem _) fun bar => bar.2 ▸ List.mem_cons_self
        have made := Fragment.makes_union ownsW owns apart
        rw [union] at made
        simp only [Place.holding, top]
        refine pushes_reduce [_, _] 3 (action_choice _ _ reads) rfl
          (by decide) rfl (made.interval (Nat.le_trans order le)) (top_exp p waiting) ?_
        rw [weight, stackWeight]
        show 1 < stateWeight p.level.choice + (stateWeight p.level.bar +
          (stateWeight (p.expression waiting) + 0))
        have := stateWeight_pos p.level.choice
        omega
  obtain ⟨f', h, goes, owns', grown⟩ := finish
  exact ⟨mid, f', h, goes, rest.of_grows grown fun n member => member.1,
    Nat.le_trans (Nat.le_trans order le) grown.size_le, owns',
    grown.mono (Set.Ico_subset_Ico_left rest.le)⟩

theorem pushes_collapse (dotMatchesAny : Bool) (signs : List Sign) (owned : Owned g lo waiting hi) (owns : f.Owns g (Set.Ico hi g.size) L)
    (le : hi ≤ g.size) (next : (upcoming signs).1 ∈ [Symbol.lparen, .lbracket, p.level.closer]) :
    Pushes dotMatchesAny ⟨(p.expression waiting, .fragment f) :: p.holding below v waiting, signs, g⟩
      lo p.first (p.holding below v []) signs (plug waiting L) := by
  induction waiting generalizing g f hi L with
  | nil =>
      cases owned
      exact ⟨f, g, .refl _, owns, .refl _ _⟩
  | cons w waiting ih =>
      have lower := owned.le
      obtain ⟨mid, f₁, h₁, goes, owned₁, le₁, owns₁, grown₁⟩ := exists_merge p below v dotMatchesAny signs owned owns le (.inl next)
      obtain ⟨f', h, goes', owns', grown⟩ := ih owned₁ owns₁ le₁
      refine ⟨f', h, goes.trans goes', owns', grown₁.trans grown fun n old member => ?_⟩
      exact ⟨member.1, old⟩

theorem exists_bar (dotMatchesAny : Bool) (signs : List Sign) (owned : Owned g lo waiting hi) (owns : f.Owns g (Set.Ico hi g.size) L)
    (le : hi ≤ g.size) :
    ∃ w waiting' h, Goes dotMatchesAny
        ⟨(p.expression waiting, .fragment f) :: p.holding below v waiting, mark .bar :: signs, g⟩
        ⟨p.holding below v (w :: waiting'), signs, h⟩ ∧ w.joint = .bar ∧
      Owned h lo (w :: waiting') h.size ∧
        (∀ M, plug (w :: waiting') M = plug waiting (L + M)) ∧ g.Grows (Set.Ico lo g.size) h := by
  have shift : ∀ {state : Nat} {v : Value} {stack : List (Nat × Value)} {g : Graph},
      state = p.first ∨ state = p.level.after → Goes dotMatchesAny
        ⟨(state, v) :: stack, mark .bar :: signs, g⟩
        ⟨(p.level.bar, .none) :: (state, v) :: stack, signs, g⟩ := by
    intro state v stack g state_
    refine goes_shift (mark .bar) ?_
    rcases state_ with rfl | rfl <;> rcases p with _ | (_ | _) <;> rfl
  induction waiting generalizing g f hi L with
  | nil =>
      refine ⟨⟨f, .bar, L⟩, [], g, shift (.inl rfl), rfl, ⟨hi, le, owns, owned⟩, fun M => rfl, .refl _ _⟩
  | cons w waiting ih =>
      obtain ⟨fragment, joint, language⟩ := w
      cases joint with
      | next =>
          exact ⟨⟨f, .bar, L⟩, _, g, shift (.inr rfl), rfl, ⟨hi, le, owns, owned⟩, fun M => rfl,
            .refl _ _⟩
      | bar =>
          obtain ⟨mid, f₁, h₁, goes, owned₁, le₁, owns₁, grown₁⟩ :=
            exists_merge p below v dotMatchesAny (mark .bar :: signs) owned owns le (.inr ⟨rfl, rfl⟩)
          obtain ⟨w', waiting', h, goes', bar, owned', same, grown⟩ := ih owned₁ owns₁ le₁
          refine ⟨w', waiting', h, goes.trans goes', bar, owned', fun M => ?_,
            grown₁.trans grown fun n old member => ⟨member.1, old⟩⟩
          rw [same M]
          show plug waiting (language + L + M) = plug waiting (language + (L + M))
          rw [add_assoc]

def Body.head : Body → Atom
  | last atom _ => atom
  | more atom _ _ _ => atom

theorem opening_of_not_opens {b : Body} (char : b.opens = false) :
    b.head.opening = .char ∧ ∀ l, b.head.entry l = l.char := by
  rcases b with ⟨_ | _ | _, _⟩ | ⟨_ | _ | _, _, _, _⟩ <;> first | exact ⟨rfl, fun _ => rfl⟩ | cases char

theorem opening_of_opens {b : Body} (opens : b.opens = true) :
    b.head.opening ∈ [Symbol.lparen, .lbracket] := by
  rcases b with ⟨_ | _ | _, _⟩ | ⟨_ | _ | _, _, _, _⟩ <;>
    first | exact List.mem_cons_self | exact List.mem_cons_of_mem _ List.mem_cons_self | cases opens

theorem upcoming_atom (a : Atom) (signs : List Sign) :
    (upcoming (a.signs ++ signs)).1 = a.opening := by
  cases a <;> rw [Atom.signs] <;> rfl

theorem upcoming_body (b : Body) (signs : List Sign) :
    (upcoming (b.signs ++ signs)).1 = b.head.opening := by
  cases b <;> rw [Body.signs] <;> simp only [List.append_assoc] <;> exact upcoming_atom _ _

def Clear : List Waiting → Prop
  | [] | [⟨_, .next, _⟩] | ⟨_, .bar, _⟩ :: _ => True
  | _ => False

theorem top_opening (clear : Clear waiting) (a : Atom) :
    table.action? (p.top waiting) a.opening = some (.shift (a.entry p.level)) := by
  rcases waiting with _ | ⟨⟨_, _ | _, _⟩, _ | ⟨⟨_, _ | _, _⟩, _⟩⟩ <;>
    first
    | cases a <;> rcases p with _ | (_ | _) <;> rfl
    | cases clear

def Body.IsRead (dotMatchesAny : Bool) (b : Body) : Prop :=
  ∀ (p : Place) (waiting : List Waiting) (below : List (Nat × Value)) (v : Value)
    (signs : List Sign) {lo : Nat} {g : Graph},
    (b.opens = true → Clear waiting) → Owned g lo waiting g.size →
    (upcoming signs).1 = p.level.closer →
    Pushes dotMatchesAny ⟨p.holding below v waiting, b.signs ++ signs, g⟩ lo p.first
      (p.holding below v []) signs (plug waiting (b.pieces true).1 * (b.pieces true).2.prod)

theorem pushes_head (signs : List Sign) (b : Body) (read : b.head.IsRead dotMatchesAny p.level) (times : Repeat)
    (clear : b.opens = true → Clear waiting) (next : (upcoming signs).1 ∈ p.level.ends) :
    Pushes dotMatchesAny ⟨p.holding below v waiting, b.head.signs ++ times.signs ++ signs, g⟩ g.size
      (p.expression waiting) (p.holding below v waiting) signs
      (times.of (b.head.language true)) := by
  obtain ⟨u, deeper, top⟩ := holding_eq p below v waiting
  have start : table.action? (p.top waiting) b.head.opening =
      some (.shift (b.head.entry p.level)) := by
    cases opens : b.opens with
    | true => exact top_opening p (clear opens) b.head
    | false =>
        rw [(opening_of_not_opens opens).1, (opening_of_not_opens opens).2]
        exact top_char p waiting
  rw [top]
  exact pushes_item read times start (top_unit p waiting) (top_exp p waiting)
    (weight_expression p waiting) next

theorem isRead_group {b : Body} (read : b.IsRead dotMatchesAny) (l : Level) :
    (Atom.group b).IsRead dotMatchesAny l := by
  intro signs s v stack g start unit next
  rw [Atom.signs]
  simp only [List.append_assoc, List.cons_append, List.nil_append]
  refine .after (goes_shift (mark .lparen) start) rfl ?_
  refine (read (.group l) [] ((s, v) :: stack) .none (mark .rparen :: signs) (fun _ => trivial) rfl rfl).then_ (Nat.le_refl _) fun f h owns grown => ⟨f, h, ?_, ?_, .refl _ _⟩
  · refine (goes_shift (mark .rparen) (show table.action? (Place.group l).first .rparen =
      some (.shift l.rparen) by cases l <;> rfl)).trans ?_
    exact goes_reduce [_, _] 9 (l.action_rparen _ next) rfl (by decide)
      (yields_pure _ _) unit (by cases l <;> exact (by decide : 2 < 3))
  · rw [Atom.language_group]
    exact owns

theorem isRead_last {a : Atom} (read : ∀ l, a.IsRead dotMatchesAny l) (times : Repeat) :
    (Body.last a times).IsRead dotMatchesAny := by
  intro p waiting below v signs lo g clear owned close
  have next : (upcoming signs).1 ∈ p.level.ends := by
    rw [close, Level.ends]
    simp
  rw [Body.signs]
  refine (pushes_head p below v signs (.last a times) (read _) times clear next).then_ owned.le
    fun f h owns grown => ?_
  rw [Body.pieces, List.prod_nil, mul_one]
  refine pushes_collapse p below v dotMatchesAny signs (owned.of_grows grown fun n member => member.1) owns grown.size_le ?_
  rw [close]
  simp

theorem isRead_more {a : Atom} {rest : Body} (read : ∀ l, a.IsRead dotMatchesAny l)
    (readRest : rest.IsRead dotMatchesAny) (times : Repeat) (joint : Joint) :
    (Body.more a times joint rest).IsRead dotMatchesAny := by
  intro p waiting below v signs lo g clear owned close
  have head := pushes_head p below v (joint.signs ++ (rest.signs ++ signs))
    (.more a times joint rest) (g := g) (read _) times clear
  have lower := owned.le
  rw [Body.signs]
  simp only [List.append_assoc] at head ⊢
  cases joint with
  | bar =>
      refine (head (by simp [upcoming, Joint.signs, mark, Level.ends])).then_ lower
        fun f h owns grown => ?_
      obtain ⟨⟨f₁, joint, L₁⟩, waiting', h₁, goes, rfl, owned₁, same, grown₁⟩ :=
        exists_bar p below v dotMatchesAny (rest.signs ++ signs) (owned.of_grows grown fun n member => member.1) owns
          grown.size_le
      obtain ⟨f', h', goes', owns', grown'⟩ :=
        readRest p (⟨f₁, .bar, L₁⟩ :: waiting') below v signs (fun _ => trivial) owned₁ close
      refine ⟨f', h', goes.trans goes', ?_, grown₁.trans grown' fun n old member => ⟨member.1, old⟩⟩
      rw [same] at owns'
      rw [Body.pieces, Joint.cuts, Bool.and_false]
      exact owns'
  | next =>
      have follow : (upcoming (rest.signs ++ signs)).1 ∈ p.level.ends := by
        rw [upcoming_body]
        cases rest.head <;> simp [Atom.opening, Level.ends]
      refine (head follow).then_ lower fun f h owns grown => ?_
      have owned' := owned.of_grows grown fun n member => member.1
      cases opens : rest.opens with
      | false =>
          -- The item waits, and the next one begins with a character.
          have rest' := readRest p (⟨f, .next, times.of (a.language true)⟩ :: waiting) below v signs
            (fun opens' => by rw [opens] at opens'; cases opens')
            ⟨g.size, grown.size_le, owns, owned'⟩ close
          rw [Body.pieces, Joint.cuts, opens, Bool.and_false]
          exact rest'
      | true =>
          -- The body is cut: all that waits becomes one item.
          obtain ⟨f₁, h₁, goes, owns₁, grown₁⟩ := pushes_collapse p below v dotMatchesAny
            (rest.signs ++ signs) owned' owns grown.size_le (by
              rw [upcoming_body]
              rcases List.mem_pair.1 (opening_of_opens opens) with equal | equal <;> simp [equal])
          have lower₁ := Nat.le_trans lower (Nat.le_trans grown.size_le grown₁.size_le)
          obtain ⟨f', h', goes', owns', grown'⟩ := readRest p
            [⟨f₁, .next, plug waiting (times.of (a.language true))⟩] below v signs (fun _ => trivial) ⟨lo, lower₁, owns₁, rfl⟩ close
          refine ⟨f', h', goes.trans goes', ?_, grown₁.trans grown' fun n old member => ⟨member.1, old⟩⟩
          rw [Body.pieces, Joint.cuts, opens]
          simp only [Bool.and_self, if_true, List.prod_cons, ← mul_assoc]
          exact owns'

mutual

theorem Atom.isRead : (a : Atom) → Valid a.signs → ∀ l, a.IsRead dotMatchesAny l
  | .letter letter, valid, l => by
    intro signs s v stack g start unit next
    rw [Atom.signs] at valid ⊢
    rw [Atom.language]
    exact pushes_letter l letter valid start unit next
  | .ofClass negated first more, valid, l => by
    intro signs s v stack g start unit next
    rw [Atom.signs] at valid
    exact pushes_class l negated first more valid.left.right start unit next
  | .group body, valid, l => by
    rw [Atom.signs] at valid
    exact isRead_group (body.isRead (show Valid ([mark .lparen] ++ body.signs) from valid.left).right) l

theorem Body.isRead : (b : Body) → Valid b.signs → b.IsRead dotMatchesAny
  | .last atom times, valid => by
    rw [Body.signs] at valid
    exact isRead_last (atom.isRead valid.left) times
  | .more atom times joint rest, valid => by
    rw [Body.signs] at valid
    exact isRead_more (atom.isRead valid.left.left.left) (rest.isRead valid.right) times joint

end

end LongestMatch.Pattern
