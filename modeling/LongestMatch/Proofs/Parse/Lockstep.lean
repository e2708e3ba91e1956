import LongestMatch.Proofs.Outcome

/-!
# Parsers in lockstep

The parser does not look at values. If one client does with the images of values what another one
does with the values, a parser for the one does with images what a parser for the other does. So a client can be made to keep a record.
-/

namespace LongestMatch.Parse

variable {S V V' ε σ τ : Type}

def Token.map (f : V → V') (token : Token S V) : Token S V' :=
  ⟨token.symbol, f token.value, token.text⟩

@[simp]
theorem Token.symbol_map (f : V → V') (token : Token S V) : (token.map f).symbol = token.symbol := rfl

def Verdict.map (f : V → V') : Verdict V ε → Verdict V' ε
  | accepted value => accepted (f value)
  | rejected diagnostics => rejected diagnostics
  | aborted failure => aborted failure
  | broken => broken

def Machine.map (f : V → V') (m : Machine S V) : Machine S V' where
  stack := m.stack.map (Prod.map id f)
  reduced := m.reduced.map (Token.map f)
  lookahead := m.lookahead.map (Token.map f)
  recovering := m.recovering
  diagnostics := m.diagnostics

def Progress.map (f : V → V') : Progress S V ε → Progress S V' ε
  | running m => running (m.map f)
  | ended verdict => ended (verdict.map f)

/-- The second client does with the images of values what the first one does with the values. -/
structure Client.Mirrors (c : Client S V ε σ) (c' : Client S V' ε τ) (f : V → V')
    (together : σ → τ → Prop) (excused : ε → Prop) : Prop where
  blank : c'.blank = f c.blank
  next : Lockstep together excused (fun a b => b = a.map f) c.next c'.next
  reduce : ∀ production values, Lockstep together excused (fun a b => b = f a)
    (c.reduce production values) (c'.reduce production (values.map f))
  report : ∀ d x y, together x y → together (c.report d x) (c'.report d y)
  observe : ∀ move x y, together x y → together (c.observe move x) (c'.observe move y)

inductive Mirrored (f : V → V') (together : σ → τ → Prop) (excused : ε → Prop) :
    Option (Verdict V ε × σ) → Option (Verdict V' ε × τ) → Prop
  | unfinished : Mirrored f together excused none none
  | ended {verdict x y} : together x y →
      Mirrored f together excused (some (verdict, x)) (some (verdict.map f, y))
  | excused {failure x result} : excused failure →
      Mirrored f together excused (some (.aborted failure, x)) result

variable {c : Client S V ε σ} {c' : Client S V' ε τ} {f : V → V'} {together : σ → τ → Prop}
  {excused : ε → Prop} {m : Machine S V}

namespace Client.Mirrors

theorem select (mirrors : c.Mirrors c' f together excused) (m : Machine S V) :
    Lockstep together excused (fun a b => b = (a.1.map f, a.2.map f)) (m.select c)
      ((m.map f).select c') := by
  have reduced : (m.map f).reduced = m.reduced.map (Token.map f) := rfl
  have lookahead : (m.map f).lookahead = m.lookahead.map (Token.map f) := rfl
  rw [Machine.select, Machine.select, reduced, lookahead]
  cases m.reduced with
  | some _ => exact .pure rfl
  | none =>
      cases m.lookahead with
      | some _ => exact .pure rfl
      | none =>
          refine mirrors.next.bind ?_
          rintro token _ rfl
          exact .pure rfl

theorem diagnose (mirrors : c.Mirrors c' f together excused) (m : Machine S V) (d : Diagnostic) :
    Lockstep together excused (fun a b => b = a.map f) (m.diagnose c d) ((m.map f).diagnose c' d) :=
  (Lockstep.modify (mirrors.report d)).bind fun _ _ _ => .pure rfl

variable [Alphabet S] {t : Table S}

theorem settle_map (m : Machine S V) (symbol : S) :
    (m.map f).settle symbol = (m.settle symbol).map f := by
  unfold Machine.settle
  split <;> rfl

theorem reduce_machine (mirrors : c.Mirrors c' f together excused) (m : Machine S V) (s p : Nat)
    (token : Token S V) : Lockstep together excused (fun a b => b = a.map f) (m.reduce t c s p token)
      ((m.map f).reduce t c' s p (token.map f)) := by
  unfold Machine.reduce
  cases t.heads[p]? with
  | none => exact .pure rfl
  | some head =>
      cases t.lengths[p]? with
      | none => exact .pure rfl
      | some length =>
          have rest : (m.map f).stack.drop length = (m.stack.drop length).map (Prod.map id f) :=
            List.map_drop.symm
          have values : (((m.map f).stack.take length).map Prod.snd).reverse =
              (((m.stack.take length).map Prod.snd).reverse).map f := by
            simp only [Machine.map, ← List.map_take, List.map_map, ← List.map_reverse]
            rfl
          have size : (m.map f).stack.length = m.stack.length := List.length_map _
          simp only [rest, values, size]
          cases m.stack.drop length with
          | nil =>
              refine (mirrors.diagnose m _).bind ?_
              rintro m _ rfl
              exact .pure rfl
          | cons entry stack =>
              refine (Lockstep.modify (mirrors.observe _)).bind fun _ _ _ => ?_
              refine (mirrors.reduce p _).bind ?_
              rintro value _ rfl
              by_cases last : p = 0
              · rw [if_pos last, if_pos last]
                refine .pure ?_
                have diagnostics : (m.map f).diagnostics = m.diagnostics := rfl
                rw [diagnostics]
                cases m.diagnostics.isEmpty <;> rfl
              · rw [if_neg last, if_neg last]
                exact .pure rfl

theorem recover_machine (mirrors : c.Mirrors c' f together excused) (m : Machine S V) (s : Nat)
    (token : Token S V) : Lockstep together excused (fun a b => b = a.map f) (m.recover t c s token)
      ((m.map f).recover t c' s (token.map f)) := by
  have recovering : (m.map f).recovering = m.recovering := rfl
  unfold Machine.recover
  rw [recovering, Token.symbol_map]
  by_cases again : m.recovering
  · simp only [if_pos again]
    by_cases last : token.symbol = Alphabet.endMark
    · simp only [if_pos last]
      exact .pure rfl
    · simp only [if_neg last]
      exact (Lockstep.modify (mirrors.observe _)).bind fun _ _ _ => .pure rfl
  · simp only [if_neg again]
    refine (mirrors.diagnose m _).bind ?_
    rintro m _ rfl
    by_cases last : token.symbol = Alphabet.endMark
    · simp only [if_pos last]
      exact .pure rfl
    · have unwound : ((m.map f).stack.dropWhile fun entry =>
            (t.action? entry.1 Alphabet.error).isNone) =
          (m.stack.dropWhile fun entry => (t.action? entry.1 Alphabet.error).isNone).map
            (Prod.map id f) := List.dropWhile_map ..
      simp only [if_neg last, unwound]
      cases m.stack.dropWhile _ with
      | nil => exact .pure rfl
      | cons entry stack =>
          refine .pure ?_
          simp only [Progress.map, Machine.map, Option.map_some, Token.map, mirrors.blank,
            List.map_cons]

theorem step (mirrors : c.Mirrors c' f together excused) (m : Machine S V) :
    Lockstep together excused (fun a b => b = a.map f) (m.step t c) ((m.map f).step t c') := by
  have stack : (m.map f).stack = m.stack.map (Prod.map id f) := rfl
  unfold Machine.step
  rw [stack]
  cases m.stack with
  | nil => exact .pure rfl
  | cons entry below =>
      refine (mirrors.select m).bind ?_
      rintro ⟨token, m⟩ _ rfl
      -- State and symbol, which decide on the action, are the same on both sides.
      dsimp only [Prod.map, id, Token.symbol_map]
      cases t.action? entry.1 token.symbol with
      | none => exact mirrors.recover_machine m _ token
      | some action =>
          cases action with
          | shift target =>
              refine (Lockstep.modify (mirrors.observe _)).bind fun _ _ _ => .pure ?_
              simp only [settle_map]
              rfl
          | reduce production =>
              have reduced :=
                mirrors.reduce_machine (t := t) (m.settle token.symbol) entry.1 production token
              rw [← settle_map] at reduced
              exact reduced

theorem run (mirrors : c.Mirrors c' f together excused) (bound : Nat) (m : Machine S V) {x : σ} {y : τ}
    (states : together x y) :
    Mirrored f together excused (run t c bound m x) (run t c' bound (m.map f) y) := by
  induction bound generalizing m x y with
  | zero => exact .unfinished
  | succ bound ih =>
      have moved := mirrors.step (t := t) m x y states
      rw [Parse.run, Parse.run]
      generalize m.step t c x = result, (m.map f).step t c' y = result' at moved
      cases moved with
      | @ok progress _ _ _ equal states =>
          subst equal
          cases progress with
          | running m' => exact ih m' states
          | ended verdict => exact .ended states
      | @error failure x' y' states =>
          show Mirrored _ _ _ (some (.aborted failure, x'))
            (some ((Verdict.aborted failure).map f, y'))
          exact .ended states
      | excused fine => exact .excused fine

end Client.Mirrors

def Client.Shadows {ρ : Type} (c : Client S V ε σ) (c' : Client S V ε (σ × ρ)) : Prop :=
  c.Mirrors c' id (fun x w => w.1 = x) fun _ => False

theorem Machine.map_id (m : Machine S V) : m.map id = m := by
  obtain ⟨stack, reduced, lookahead, recovering, diagnostics⟩ := m
  have same : Token.map (S := S) (id : V → V) = id := rfl
  simp [Machine.map, same]

theorem Progress.map_id (progress : Progress S V ε) : progress.map id = progress := by
  cases progress with
  | running m => rw [Progress.map, m.map_id]
  | ended verdict => cases verdict <;> rfl

namespace Client.Shadows

variable {ρ : Type} {c' : Client S V ε (σ × ρ)} {m' : Machine S V} {x y z : σ}

theorem select (shadows : c.Shadows c') {token : Token S V}
    (selected : m.select c y = .ok (token, m') z) (record : ρ) :
    ∃ record', m.select c' (y, record) = .ok (token, m') (z, record') := by
  have alike := Mirrors.select shadows m y (y, record) rfl
  rw [selected, m.map_id] at alike
  obtain ⟨_, w, selected', rfl, rfl⟩ := alike.exists_ok
  exact ⟨w.2, by rw [selected', m'.map_id]; rfl⟩

variable [Alphabet S] {t : Table S}

theorem step (shadows : c.Shadows c') {progress : Progress S V ε}
    (moved : m.step t c y = .ok progress z) (record : ρ) :
    ∃ record', m.step t c' (y, record) = .ok progress (z, record') := by
  have alike := Mirrors.step (t := t) shadows m y (y, record) rfl
  rw [moved, m.map_id] at alike
  obtain ⟨_, w, moved', rfl, rfl⟩ := alike.exists_ok
  exact ⟨w.2, by rw [moved', progress.map_id]⟩

theorem parse (shadows : c.Shadows c') {bound : Nat} {verdict : Verdict V ε}
    (ended : parse t c bound x = some (verdict, z)) (record : ρ) :
    ∃ record', Parse.parse t c' bound (x, record) = some (verdict, (z, record')) := by
  have alike := Mirrors.run (t := t) shadows bound (.initial c.blank) (x := x) (y := (x, record)) rfl
  have blank : c'.blank = c.blank := shadows.blank
  rw [← Parse.parse, ended, Machine.map_id, ← blank, ← Parse.parse] at alike
  generalize Parse.parse t c' bound (x, record) = result at alike
  cases alike with
  | @ended _ _ w states =>
      cases states
      exact ⟨w.2, by cases verdict <;> rfl⟩
  | excused fine => exact fine.elim

end Client.Shadows

end LongestMatch.Parse
