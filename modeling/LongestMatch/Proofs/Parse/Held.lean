import Mathlib.Algebra.Order.Group.Multiset
import Mathlib.Tactic.Abel
import LongestMatch.Proofs.Outcome

namespace LongestMatch.Parse

variable {S V ε σ : Type}

def onStack (stack : List (Nat × V)) : Multiset V := (stack.map Prod.snd : List V)

def inSlot : Option (Token S V) → Multiset V
  | none => 0
  | some token => {token.value}

def Machine.held (m : Machine S V) : Multiset V :=
  onStack m.stack + inSlot m.reduced + inSlot m.lookahead

/-- No call of the client breaks the condition on the values held and the state. A call to combine
values takes them away and gives one value back. -/
structure Client.Keeps (c : Client S V ε σ) (fine : Multiset V → σ → Prop) (failed : ε → σ → Prop) :
    Prop where
  fewer : ∀ {vs ws x}, fine vs x → ws ≤ vs → fine ws x
  blank : ∀ {vs x}, fine vs x → fine ({c.blank} + vs) x
  next : ∀ {vs x}, fine vs x →
    Leaves c.next x (fun token y => fine ({token.value} + vs) y) failed
  reduce : ∀ {vs x} p (args : List V), fine (args + vs) x →
    Leaves (c.reduce p args) x (fun value y => fine ({value} + vs) y) failed
  report : ∀ {vs x} d, fine vs x → fine vs (c.report d x)
  observe : ∀ {vs x} move, fine vs x → fine vs (c.observe move x)

def Verdict.Kept (fine : Multiset V → σ → Prop) (failed : ε → σ → Prop) : Verdict V ε → σ → Prop
  | accepted value, x => fine {value} x
  | aborted failure, x => failed failure x
  | rejected _, x => fine 0 x
  | broken, x => fine 0 x

def Progress.Kept (fine : Multiset V → σ → Prop) (failed : ε → σ → Prop) : Progress S V ε → σ → Prop
  | running m, x => fine m.held x
  | ended verdict, x => verdict.Kept fine failed x

variable {c : Client S V ε σ} {fine : Multiset V → σ → Prop} {failed : ε → σ → Prop}
  {m : Machine S V} {x : σ} {vs : Multiset V}

theorem onStack_cons (entry : Nat × V) (stack : List (Nat × V)) :
    onStack (entry :: stack) = {entry.2} + onStack stack := rfl

theorem onStack_take_drop (stack : List (Nat × V)) (n : Nat) :
    (((stack.take n).map Prod.snd).reverse : List V) + onStack (stack.drop n) = onStack stack := by
  rw [Multiset.coe_reverse, onStack, Multiset.coe_add, ← List.map_append, List.take_append_drop,
    onStack]

theorem onStack_le_of_sublist {stack stack' : List (Nat × V)} (sublist : stack'.Sublist stack) :
    onStack stack' ≤ onStack stack := Multiset.coe_le.2 (sublist.map Prod.snd).subperm

namespace Client.Keeps

theorem rejection (keeps : c.Keeps fine failed) (m : Machine S V) (holds : fine vs x) :
    m.rejection.Kept fine failed x := keeps.fewer holds (Multiset.zero_le _)

theorem select (keeps : c.Keeps fine failed) (holds : fine m.held x) :
    Leaves (m.select c) x (fun result y => fine ({result.1.value} + result.2.held) y) failed := by
  rw [Machine.select]
  cases reduced : m.reduced with
  | some token =>
      refine .pure ?_
      rw [Machine.held, reduced, inSlot] at holds
      rw [Machine.held, inSlot]
      convert holds using 1
      abel
  | none =>
      cases lookahead : m.lookahead with
      | some token =>
          refine .pure ?_
          rw [Machine.held, reduced, lookahead, inSlot, inSlot] at holds
          rw [Machine.held, inSlot]
          convert holds using 1
          abel
      | none => exact (keeps.next holds).bind fun token y holds => .pure holds

theorem diagnose (keeps : c.Keeps fine failed) (m : Machine S V) (d : Diagnostic)
    (holds : fine vs x) : Leaves (m.diagnose c d) x
      (fun m' y => fine vs y ∧ m' = { m with diagnostics := m.diagnostics ++ [d] }) failed :=
  .of_ok rfl ⟨keeps.report d holds, rfl⟩

variable [Alphabet S] {t : Table S}

theorem held_settle (m : Machine S V) (symbol : S) : (m.settle symbol).held = m.held := by
  unfold Machine.settle
  split <;> rfl

theorem reduce_machine (keeps : c.Keeps fine failed) {token : Token S V}
    (holds : fine ({token.value} + m.held) x) (s p : Nat) :
    Leaves (m.reduce t c s p token) x (Progress.Kept fine failed) failed := by
  rw [Machine.reduce]
  split
  · rename_i head length _ _
    -- The values of the right-hand side, and what is held beside them.
    have parts : (((m.stack.take length).map Prod.snd).reverse : List V) +
        ({token.value} + onStack (m.stack.drop length)) ≤ {token.value} + m.held := by
      rw [add_left_comm, onStack_take_drop, Machine.held, add_assoc]
      exact add_le_add_right (Multiset.le_add_right _ _) _
    cases rest : m.stack.drop length with
    | nil =>
        refine (keeps.diagnose m _ holds).bind fun m' y kept => .pure ?_
        exact keeps.rejection m' kept.1
    | cons entry stack =>
        rw [rest] at parts
        have observed : Leaves (modify (c.observe (.reduce s p (Alphabet.name head)))) x
          (fun _ y => fine _ y) failed := .of_ok rfl (keeps.observe _ (keeps.fewer holds parts))
        refine observed.bind fun _ y holds => (keeps.reduce p _ holds).bind fun value z holds => ?_
        split
        · refine .pure ?_
          split
          · exact keeps.fewer holds (Multiset.le_add_right _ _)
          · exact keeps.rejection m holds
        · refine .pure ?_
          show fine (onStack (entry :: stack) + {value} + {token.value}) z
          convert holds using 1
          abel
  · exact .pure (keeps.rejection m holds)

theorem recover_machine (keeps : c.Keeps fine failed) {token : Token S V}
    (holds : fine ({token.value} + m.held) x) (s : Nat) :
    Leaves (m.recover t c s token) x (Progress.Kept fine failed) failed := by
  rw [Machine.recover]
  split
  · split
    · exact .pure (keeps.rejection m holds)
    · exact .of_ok rfl (keeps.observe _ (keeps.fewer holds (Multiset.le_add_left _ _)))
  · refine (keeps.diagnose m _ holds).bind ?_
    rintro m' y ⟨holds, same⟩
    split
    · exact .pure (keeps.rejection m' holds)
    · have stack : m'.stack = m.stack := by rw [same]
      rw [stack]
      cases unwound : m.stack.dropWhile fun entry => (t.action? entry.1 Alphabet.error).isNone with
      | nil => exact .pure (keeps.rejection m' holds)
      | cons entry stack =>
          refine .pure ?_
          have fewer : {token.value} + onStack (entry :: stack) ≤ {token.value} + m.held := by
            have below : onStack (entry :: stack) ≤ onStack m.stack :=
              onStack_le_of_sublist (unwound ▸ List.dropWhile_sublist _)
            rw [Machine.held, add_assoc]
            exact add_le_add_right (below.trans (Multiset.le_add_right _ _)) _
          show fine (onStack (entry :: stack) + {c.blank} + {token.value}) y
          convert keeps.blank (keeps.fewer holds fewer) using 1
          abel

theorem step (keeps : c.Keeps fine failed) (holds : fine m.held x) :
    Leaves (m.step t c) x (Progress.Kept fine failed) failed := by
  rw [Machine.step]
  split
  · exact .pure (keeps.rejection m holds)
  · refine (keeps.select holds).bind ?_
    rintro ⟨token, m⟩ y holds
    dsimp only at holds ⊢
    rw [← held_settle m token.symbol] at holds
    split
    · refine .of_ok rfl (keeps.observe _ ?_)
      convert holds using 1
      simp only [Machine.held, onStack_cons]
      abel
    · exact keeps.reduce_machine holds _ _
    · rw [held_settle] at holds
      exact keeps.recover_machine holds _

theorem run (keeps : c.Keeps fine failed) {bound : Nat} {verdict : Verdict V ε} {y : σ}
    (holds : fine m.held x) (ended : run t c bound m x = some (verdict, y)) :
    verdict.Kept fine failed y := by
  induction bound generalizing m x with
  | zero => cases ended
  | succ bound ih =>
      have moved := keeps.step (t := t) holds
      rw [Parse.run] at ended
      split at ended
      · rename_i m' z result
        exact ih (moved.done_of_ok result) ended
      · rename_i result
        cases ended
        exact moved.done_of_ok result
      · rename_i result
        cases ended
        exact moved.failed_of_error result

end Client.Keeps

end LongestMatch.Parse
