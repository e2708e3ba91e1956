import LongestMatch.Proofs.Parse.Calls
import LongestMatch.Proofs.Parse.Recovery

namespace LongestMatch.Parse

inductive Tree (S V : Type) where
  | leaf (token : Token S V)
  | node (production : Nat) (children : List (Tree S V))

variable {S V ε σ : Type}

mutual

def Tree.frontier : Tree S V → List (Token S V)
  | leaf token => [token]
  | node _ children => Tree.frontiers children

def Tree.frontiers : List (Tree S V) → List (Token S V)
  | [] => []
  | tree :: trees => tree.frontier ++ Tree.frontiers trees

end

inductive Tree.Fits (t : Table S) : Tree S V → Prop
  | leaf (token : Token S V) : Fits t (.leaf token)
  | node {production : Nat} {children : List (Tree S V)} :
      t.lengths[production]? = some children.length → (∀ tree ∈ children, Fits t tree) →
        Fits t (.node production children)

mutual

/-- The calls, one for each production of the tree, make its value from the bottom up: those of the
children come first, from the left to the right, and the last call combines the values of the children. -/
inductive Tree.Evaluates : Tree S V → V → List (Call V) → Prop
  | leaf (token : Token S V) : Evaluates (.leaf token) token.value []
  | node {production : Nat} {children : List (Tree S V)} {values : List V} {calls : List (Call V)}
      (value : V) : EvaluatesAll children values calls →
        Evaluates (.node production children) value (calls ++ [⟨production, values, value⟩])

inductive Tree.EvaluatesAll : List (Tree S V) → List V → List (Call V) → Prop
  | nil : EvaluatesAll [] [] []
  | cons {tree : Tree S V} {trees : List (Tree S V)} {value : V} {values : List V}
      {calls more : List (Call V)} : Evaluates tree value calls → EvaluatesAll trees values more →
        EvaluatesAll (tree :: trees) (value :: values) (calls ++ more)

end

namespace Tree

variable {trees more : List (Tree S V)} {tree : Tree S V} {value : V} {values others : List V}
  {calls called : List (Call V)} {t : Table S}

theorem frontiers_append (trees more : List (Tree S V)) :
    frontiers (trees ++ more) = frontiers trees ++ frontiers more := by
  induction trees with
  | nil => rfl
  | cons tree trees ih => simp only [List.cons_append, frontiers, ih, List.append_assoc]

theorem frontiers_singleton (tree : Tree S V) : frontiers [tree] = tree.frontier :=
  List.append_nil _

theorem EvaluatesAll.singleton (evaluates : Evaluates tree value calls) :
    EvaluatesAll [tree] [value] calls := by
  have single := EvaluatesAll.cons evaluates .nil
  rwa [List.append_nil] at single

theorem EvaluatesAll.append (first : EvaluatesAll trees values calls)
    (second : EvaluatesAll more others called) :
    EvaluatesAll (trees ++ more) (values ++ others) (calls ++ called) := by
  induction trees generalizing values calls with
  | nil =>
      cases first
      exact second
  | cons tree trees ih =>
      cases first with
      | cons head tail =>
          rw [List.append_assoc]
          exact .cons head (ih tail)

theorem EvaluatesAll.split (all : EvaluatesAll trees (values ++ others) calls) :
    ∃ front back calls₁ calls₂, trees = front ++ back ∧ calls = calls₁ ++ calls₂ ∧
      EvaluatesAll front values calls₁ ∧ EvaluatesAll back others calls₂ := by
  induction values generalizing trees calls with
  | nil => exact ⟨[], trees, [], calls, rfl, rfl, .nil, all⟩
  | cons value values ih =>
      cases all with
      | cons head tail =>
          obtain ⟨front, back, calls₁, calls₂, rfl, rfl, first, second⟩ := ih tail
          exact ⟨_ :: front, back, _ ++ calls₁, calls₂, rfl, (List.append_assoc ..).symm,
            .cons head first, second⟩

theorem EvaluatesAll.length_eq (all : EvaluatesAll trees values calls) :
    trees.length = values.length := by
  induction trees generalizing values calls with
  | nil =>
      cases all
      rfl
  | cons tree trees ih =>
      cases all with
      | cons _ tail => rw [List.length_cons, List.length_cons, ih tail]

theorem Fits.frontier_ne_nil (fits : tree.Fits t) (full : ∀ length ∈ t.lengths, 0 < length) :
    tree.frontier ≠ [] := by
  induction fits with
  | leaf => exact List.cons_ne_nil _ _
  | @node p children size _ ih =>
      obtain ⟨first, rest, rfl⟩ := List.exists_cons_of_length_pos
        (full _ (Array.mem_of_getElem? size))
      exact List.append_ne_nil_of_left_ne_nil (ih first List.mem_cons_self) _

end Tree

open Tree (EvaluatesAll frontiers)

def valuesAbove (stack : List (Nat × V)) : List V := (stack.dropLast.map Prod.snd).reverse

theorem valuesAbove_append (popped : List (Nat × V)) {below : List (Nat × V)} (more : below ≠ []) :
    valuesAbove (popped ++ below) = valuesAbove below ++ (popped.map Prod.snd).reverse := by
  rw [valuesAbove, List.dropLast_append_of_ne_nil more, List.map_append, List.reverse_append,
    valuesAbove]

def Machine.values (m : Machine S V) : List V :=
  valuesAbove m.stack ++ (m.reduced.map Token.value).toList

/-- The trees belong to the values of the parser. Their tokens are those shifted so far, which are all
that were read but for the one that waits, and their calls are those made so far. -/
structure Machine.Derives (t : Table S) (m : Machine S V) (l : Ledger S V) (calls : List (Call V))
    (trees : List (Tree S V)) : Prop where
  values : EvaluatesAll trees m.values calls
  fits : ∀ tree ∈ trees, tree.Fits t
  shifted : l.settled = (frontiers trees).map (·, .shifted)
  read : l.read = frontiers trees ++ l.waiting.toList

/-- The last of the trees, one of production 0, has the value. The tokens read end with those of this
tree and then the one that waits, on which the parser accepts. -/
structure Derived (t : Table S) (l : Ledger S V) (calls : List (Call V)) (value : V)
    (before children : List (Tree S V)) : Prop where
  values : ∃ values, EvaluatesAll (before ++ [.node 0 children]) (values ++ [value]) calls
  fits : ∀ tree ∈ before ++ [.node 0 children], tree.Fits t
  read : ∃ ahead, l.waiting = some ahead ∧
    l.read = frontiers before ++ (Tree.node 0 children).frontier ++ [ahead]

structure Machine.Quiet (t : Table S) (blank : V) (m : Machine S V) : Prop where
  fine : m.diagnostics = []
  steady : m.recovering = false
  bottom : m.stack.getLast? = some (0, blank)
  pending : ∀ symbol, m.reduced = some symbol → symbol.symbol ∈ t.heads

variable [Alphabet S] {t : Table S} {c : Client S V ε σ} {m m' m₁ : Machine S V} {l : Ledger S V}
  {token : Token S V} {x y y' z : σ} {calls calls' : List (Call V)} {s p length : Nat} {v value : V}
  {entry : Nat × V} {stack below : List (Nat × V)} {trees : List (Tree S V)}

omit [Alphabet S] in
theorem Client.recorded_next {w : σ × List (Call V)}
    (next : c.recorded.next (y, calls) = .ok token w) : w.2 = calls := by
  unfold Client.recorded at next
  dsimp only at next
  split at next
  · cases next
    rfl
  · cases next

omit [Alphabet S] in
theorem Client.recorded_reduce {values : List V} {w : σ × List (Call V)}
    (combined : c.recorded.reduce p values (y, calls) = .ok value w) :
    w.2 = calls ++ [⟨p, values, value⟩] := by
  unfold Client.recorded at combined
  dsimp only at combined
  split at combined
  · cases combined
    rfl
  · cases combined

omit [Alphabet S] in
theorem Machine.select_recorded {w : σ × List (Call V)}
    (select : m.select c.recorded (y, calls) = .ok (token, m₁) w) : w.2 = calls := by
  obtain ⟨_, _, rfl⟩ | ⟨_, _, _, rfl⟩ | ⟨_, _, _, next⟩ := Machine.select_cases select
  · rfl
  · rfl
  · exact Client.recorded_next next

namespace Machine.Derives

omit [Alphabet S]

theorem intact (derives : m.Derives t l calls trees) : l.Intact := by
  intro entry member
  rw [derives.shifted] at member
  obtain ⟨_, _, rfl⟩ := List.mem_map.1 member
  exact nofun

theorem fold (derives : m.Derives t l calls trees) (idle : m.reduced = none)
    (size : t.lengths[p]? = some length) (rest : m.stack.drop length = entry :: below) (value : V) :
    ∃ before children,
      EvaluatesAll (before ++ [.node p children]) (valuesAbove (entry :: below) ++ [value])
        (calls ++ [⟨p, ((m.stack.take length).map Prod.snd).reverse, value⟩]) ∧
      (∀ tree ∈ before ++ [.node p children], tree.Fits t) ∧
      frontiers (before ++ [.node p children]) = frontiers trees := by
  have values := derives.values
  have taken : (m.stack.take length).length = length := by
    refine List.length_take_of_le (Nat.le_of_lt (Nat.lt_of_not_le fun beyond => ?_))
    cases (List.drop_eq_nil_of_le beyond).symm.trans rest
  rw [Machine.values, idle, ← List.take_append_drop length m.stack, rest,
    valuesAbove_append _ (List.cons_ne_nil entry below), Option.map_none, Option.toList_none,
    List.append_nil] at values
  obtain ⟨before, children, calls₁, calls₂, rfl, rfl, first, second⟩ := values.split
  have fits := derives.fits
  have arity : t.lengths[p]? = some children.length := by
    rw [second.length_eq, List.length_reverse, List.length_map, taken, size]
  refine ⟨before, children, ?_, fun tree member => ?_, ?_⟩
  · rw [List.append_assoc]
    exact first.append (.singleton (.node value second))
  · rcases List.mem_append.1 member with old | new
    · exact fits tree (List.mem_append_left _ old)
    · rw [List.mem_singleton.1 new]
      exact .node arity fun child member => fits child (List.mem_append_right _ member)
  · rw [Tree.frontiers_append, Tree.frontiers_append, Tree.frontiers_singleton, Tree.frontier]

end Machine.Derives

omit [Alphabet S] in
theorem Machine.values_pushed {target : Nat} (occupied : m.stack ≠ []) (idle : m'.reduced = none)
    (pushed : m'.stack = (target, value) :: m.stack) :
    m'.values = valuesAbove m.stack ++ [value] := by
  rw [Machine.values, idle, pushed, ← List.singleton_append, valuesAbove_append _ occupied]
  exact List.append_nil _

namespace Machine.Derives

section

variable (derives : m.Derives t l calls trees) (tracks : l.Tracks m) (source : m.reduced = none)
  (select : m.select c x = .ok (token, m₁) z)
include derives tracks source select

omit [Alphabet S] in
theorem read_take : (l.take m token).waiting = some token ∧
    (l.take m token).read = frontiers trees ++ [token] := by
  have waiting := (tracks.waiting_take select source).2 derives.intact
  have read := tracks.balanced_take token
  rw [Ledger.Balanced, Ledger.settled_take, waiting, derives.shifted, List.map_map] at read
  exact ⟨waiting, read.trans (by simp [Function.comp_def])⟩

omit [Alphabet S] in
theorem shift_token {target : Nat} (occupied : m.stack ≠ []) (idle : m'.reduced = none)
    (pushed : m'.stack = (target, token.value) :: m.stack) :
    m'.Derives t ((l.take m token).settle .shifted) calls (trees ++ [.leaf token]) := by
  obtain ⟨waiting, read⟩ := derives.read_take tracks source select
  have frontier : frontiers (trees ++ [.leaf token]) = frontiers trees ++ [token] := by
    rw [Tree.frontiers_append, Tree.frontiers_singleton, Tree.frontier]
  have values := derives.values
  rw [Machine.values, source, Option.map_none, Option.toList_none, List.append_nil] at values
  refine ⟨?_, fun tree member => ?_, ?_, ?_⟩
  · rw [Machine.values_pushed occupied idle pushed]
    simpa using values.append (.singleton (.leaf token))
  · rcases List.mem_append.1 member with old | new
    · exact derives.fits tree old
    · rw [List.mem_singleton.1 new]
      exact .leaf token
  · rw [Ledger.settle, waiting, Ledger.settled_take, derives.shifted, frontier, List.map_append]
    rfl
  · rw [Ledger.waiting_settle, Ledger.settle, waiting, frontier]
    simpa using read

end

omit [Alphabet S] in
theorem shift_head {target : Nat} (derives : m.Derives t l calls trees)
    (pending : m.reduced = some token) (occupied : m.stack ≠ []) (idle : m'.reduced = none)
    (pushed : m'.stack = (target, token.value) :: m.stack) : m'.Derives t l calls trees := by
  have values := derives.values
  rw [Machine.values, pending] at values
  refine { derives with values := ?_ }
  rw [Machine.values_pushed occupied idle pushed]
  exact values

end Machine.Derives

theorem Machine.Quiet.source {blank : V} (quiet : m.Quiet t blank)
    (plain : ∀ head ∈ t.heads, ¬ t.ReducesOn head) (select : m.select c x = .ok (token, m₁) z)
    (action : t.action? s token.symbol = some (.reduce p)) : m.reduced = none := by
  cases reduced : m.reduced with
  | none => rfl
  | some head =>
      cases (Machine.select_pending reduced).symm.trans select
      exact (plain _ (quiet.pending token reduced) ⟨_, _, action⟩).elim

section

variable (quiet : m.Quiet t c.blank) (derives : m.Derives t l calls trees) (tracks : l.Tracks m)
  {w : σ × List (Call V)} (select : m.select c.recorded (y, calls) = .ok (token, m₁) w)
include quiet derives tracks select

theorem Machine.Quiet.shift {target : Nat} (top : m.stack = (s, v) :: stack)
    (action : t.action? s token.symbol = some (.shift target))
    (same : m' = { m₁.settle token.symbol with
      stack := (target, token.value) :: (m₁.settle token.symbol).stack }) :
    m'.Quiet t c.blank ∧ ∃ trees', m'.Derives t (l.after t m s token) calls trees' := by
  have occupied : m.stack ≠ [] := by rw [top]; exact List.cons_ne_nil _ _
  have pushed : m'.stack = (target, token.value) :: m.stack := by
    rw [same, Machine.stack_settle, Machine.stack_select select]
  have idle : m'.reduced = none := by
    rw [same]
    exact (Machine.reduced_settle _ _).trans (Machine.reduced_select select)
  refine ⟨⟨?_, ?_, ?_, fun symbol pending => ?_⟩, ?_⟩
  · rw [same]
    simp [Machine.diagnostics_select select, quiet.fine]
  · rw [same]
    exact Machine.recovering_settle (by rw [Machine.recovering_select select, quiet.steady]) _
  · rw [pushed, List.getLast?_cons_of_ne_nil occupied, quiet.bottom]
  · cases idle.symm.trans pending
  · have fate : m.fate? t s token.symbol = some .shifted := by rw [Machine.fate?, action]
    cases source : m.reduced with
    | none =>
        rw [Ledger.after, fate, source]
        exact ⟨_, derives.shift_token tracks source select occupied idle pushed⟩
    | some head =>
        rw [Ledger.after, fate, source]
        cases (Machine.select_pending source).symm.trans select
        exact ⟨_, derives.shift_head source occupied idle pushed⟩

theorem Machine.Quiet.reduce (plain : ∀ head ∈ t.heads, ¬ t.ReducesOn head)
    (action : t.action? s token.symbol = some (.reduce p))
    (moved : (m₁.settle token.symbol).reduce t c.recorded s p token w = .ok (.running m') (y', calls')) :
    m'.Quiet t c.blank ∧ ∃ trees', m'.Derives t (l.after t m s token) calls' trees' := by
  have source := quiet.source plain select action
  have kept : (m₁.settle token.symbol).stack = m.stack := by
    rw [Machine.stack_settle, Machine.stack_select select]
  obtain ⟨_, ended, _⟩ | ⟨head, length, entry, below, value, known, size, rest, combined, progress⟩ :=
    Machine.reduce_cases moved
  · cases ended
  split at progress
  · cases progress
  cases progress
  rw [kept] at rest combined
  -- The call recorded last is that of the new node.
  have made : calls' = calls ++ [⟨p, ((m.stack.take length).map Prod.snd).reverse, value⟩] := by
    rw [← Machine.select_recorded select]
    exact Client.recorded_reduce combined
  obtain ⟨before, children, values, fits, frontier⟩ := derives.fold source size rest value
  refine ⟨⟨?_, ?_, ?_, fun symbol pending => ?_⟩, before ++ [.node p children], ?_⟩
  · simp [Machine.diagnostics_select select, quiet.fine]
  · exact Machine.recovering_settle (by rw [Machine.recovering_select select, quiet.steady]) _
  · show (entry :: below).getLast? = _
    rw [← quiet.bottom, ← rest, List.getLast?_drop, if_neg]
    intro beyond
    cases (List.drop_eq_nil_of_le beyond).symm.trans rest
  · cases pending
    exact Array.mem_of_getElem? known
  · have fate : m.fate? t s token.symbol = none := by rw [Machine.fate?, action]
    obtain ⟨waiting, read⟩ := derives.read_take tracks source select
    rw [Ledger.after, fate, source, made]
    exact ⟨values, fits, by rw [frontier, Ledger.settled_take, derives.shifted],
      by rw [frontier, waiting, read, Option.toList_some]⟩

end

theorem Reached.derives (plain : ∀ head ∈ t.heads, ¬ t.ReducesOn head)
    {w : σ × List (Call V)} (reached : Reached t c.recorded (x, []) m l w)
    (fine : m.diagnostics = []) :
    m.Quiet t c.blank ∧ ∃ trees, m.Derives t l w.2 trees := by
  induction reached with
  | start =>
      refine ⟨⟨rfl, rfl, rfl, nofun⟩, [], .nil, nofun, rfl, rfl⟩
  | @step m m' m₁ l w _ z s v stack token reached top select moved ih =>
      have before : m.diagnostics = [] := by
        by_contra diagnosed
        exact (Machine.step_diagnosed diagnosed moved).1 m' rfl fine
      obtain ⟨quiet, trees, derives⟩ := ih before
      have tracks := reached.tracks
      obtain ⟨_, ended⟩ | ⟨_, _, _, _, _, _, top', select', made⟩ := Machine.step_cases moved
      · cases ended
      cases top.symm.trans top'
      cases select.symm.trans select'
      rcases made with ⟨target, action, same, rfl⟩ | ⟨p, action, made⟩ | ⟨_, made⟩
      · have same' : (c.recorded.observe (.shift s (Alphabet.name token.symbol) target) z).2 = w.2 :=
          show z.2 = w.2 from Machine.select_recorded select
        rw [same']
        cases same
        exact quiet.shift derives tracks select top action rfl
      · exact quiet.reduce derives tracks select plain action made
      · -- Recovery does not go on without a diagnostic.
        obtain ⟨_, ended, _⟩ | ⟨_, same, diagnosed | ⟨recovering, _⟩⟩ := Machine.recover_cases made
        · cases ended
        · cases same
          exact (diagnosed fine).elim
        · rw [Machine.recovering_select select, quiet.steady] at recovering
          cases recovering

theorem Reached.derived (plain : ∀ head ∈ t.heads, ¬ t.ReducesOn head) {w w' : σ × List (Call V)}
    (reached : Reached t c.recorded (x, []) m l w)
    (moved : m.step t c.recorded w = .ok (.ended (.accepted value)) w') :
    ∃ before children, Derived t (l.final c.recorded m w) w'.2 value before children := by
  obtain ⟨_, ended⟩ | ⟨s, v, stack, token, m₁, z, top, select, made⟩ := Machine.step_cases moved
  · cases ended
  rcases made with ⟨target, action, same, rfl⟩ | ⟨p, action, made⟩ | ⟨_, made⟩
  · cases same
  · obtain ⟨_, ended, other⟩ |
        ⟨head, length, entry, below, value', known, size, rest, combined, progress⟩ :=
      Machine.reduce_cases made
    · cases ended
      exact (other _ rfl).elim
    split at progress
    · rename_i first
      cases first
      have fine : m₁.diagnostics = [] := by
        cases diagnosed : m₁.diagnostics with
        | nil => rfl
        | cons => simp [diagnosed, Machine.rejection] at progress
      rw [Machine.diagnostics_select select] at fine
      obtain ⟨quiet, trees, derives⟩ := reached.derives plain fine
      have source := quiet.source plain select action
      rw [Machine.diagnostics_settle, Machine.diagnostics_select select, fine] at progress
      cases progress
      rw [Machine.stack_settle, Machine.stack_select select] at rest combined
      obtain ⟨before, children, values, fits, frontier⟩ := derives.fold source size rest value
      obtain ⟨waiting, read⟩ := derives.read_take reached.tracks source select
      have made : w'.2 = w.2 ++ [⟨0, ((m.stack.take length).map Prod.snd).reverse, value⟩] := by
        rw [← show z.2 = w.2 from Machine.select_recorded select]
        exact Client.recorded_reduce combined
      refine ⟨before, children, ?_⟩
      rw [Ledger.final, select, made]
      rw [← frontier, Tree.frontiers_append, Tree.frontiers_singleton] at read
      exact ⟨⟨_, values⟩, fits, token, waiting, read⟩
    · cases progress
  · obtain ⟨_, ended, other⟩ | ⟨_, same, _⟩ := Machine.recover_cases made
    · cases ended
      exact (other _ rfl).elim
    · cases same

/-- If no state reduces on the head of a production, a parser evaluates derivation trees: up to the
first diagnostic, its values above the bottom of the stack have trees for exactly the tokens shifted so
far. A value that is accepted has a tree of production 0, which goes up to the token before the one on
which the parser accepts. -/
theorem parse_derives (plain : ∀ head ∈ t.heads, ¬ t.ReducesOn head) (c : Client S V ε σ) (x : σ) :
    (∀ m l y, Reached t c x m l y → ∃ calls, Reached t c.recorded (x, []) m l (y, calls)) ∧
    (∀ m l y calls, Reached t c.recorded (x, []) m l (y, calls) → m.diagnostics = [] →
      m.stack.getLast? = some (0, c.blank) ∧ ∃ trees, m.Derives t l calls trees) ∧
    ∀ bound value z, parse t c bound x = some (.accepted value, z) →
      ∃ calls l before children,
        parse t c.recorded bound (x, []) = some (.accepted value, (z, calls)) ∧
        Ran t c.recorded (x, []) (.accepted value) (z, calls) l ∧
        Derived t l calls value before children ∧
        ((∀ length ∈ t.lengths, 0 < length) → (Tree.node 0 children).frontier ≠ []) := by
  refine ⟨fun m l y reached => reached.exists_recorded, fun m l y calls reached fine => ?_,
    fun bound value z accepted => ?_⟩
  · obtain ⟨quiet, trees, derives⟩ := reached.derives plain fine
    exact ⟨quiet.bottom, trees, derives⟩
  · obtain ⟨calls, recorded⟩ := exists_parse_recorded accepted
    obtain ⟨l, ran⟩ := exists_ran_of_parse recorded
    cases ran with
    | @ended m l w _ _ reached ended =>
        cases moved : m.step t c.recorded w with
        | error e w' =>
            rw [run_error moved] at ended
            cases ended
        | ok progress w' =>
            cases progress with
            | running m' =>
                rw [run_running moved] at ended
                cases ended
            | ended verdict =>
                rw [run_ended moved] at ended
                cases ended
                obtain ⟨before, children, derived⟩ := reached.derived plain moved
                refine ⟨calls, _, before, children, recorded, .ended reached (run_ended moved 0),
                  derived, fun full => ?_⟩
                exact (derived.fits _ (by simp)).frontier_ne_nil full

def Client.sums : Client String Nat Empty (List (Option Nat)) where
  blank := 0
  next
    | [] => .ok ⟨Alphabet.endMark, 0, ""⟩ []
    | some n :: more => .ok ⟨"n", n, toString n⟩ more
    | none :: more => .ok ⟨"+", 0, "+"⟩ more
  reduce _ values := pure (values.foldr Nat.add 0)
  report _ := id
  observe _ := id

theorem sumTable_derives :
    (∀ head ∈ sumTable.heads, ¬ sumTable.ReducesOn head) ∧
    parse sumTable Client.sums 9 [some 7, none, some 5] = some (.accepted 12, []) ∧
    ∃ calls l before children,
      parse sumTable Client.sums.recorded 9 ([some 7, none, some 5], []) =
        some (.accepted 12, ([], calls)) ∧
      Derived sumTable l calls 12 before children ∧ (Tree.node 0 children).frontier ≠ [] := by
  have plain : ∀ head ∈ sumTable.heads, ¬ sumTable.ReducesOn head := by decide
  have accepted : parse sumTable Client.sums 9 [some 7, none, some 5] = some (.accepted 12, []) := by
    rfl
  obtain ⟨calls, l, before, children, recorded, _, derived, full⟩ :=
    (parse_derives plain Client.sums [some 7, none, some 5]).2.2 9 12 [] accepted
  exact ⟨plain, accepted, calls, l, before, children, recorded, derived, full (by decide)⟩

end LongestMatch.Parse
