import LongestMatch.Proofs.Automaton.Lossless

namespace LongestMatch

open Parse (bind_eq_ok bind_of_ok bind_of_error)
open Build (ofExcept_eq_ok)
open Recorded

theorem Automaton.Sound.save {R : Type} {a : Automaton R} (sound : a.Sound) :
    ∃ saved, a.save = .ok saved ∧ saved.Valid a.handlers := by
  obtain ⟨nodes, lists⟩ := sound.single.exists_lists
  obtain ⟨saved, result, records⟩ := lists.save sound.single sound.registered
  exact ⟨saved, result, lists.valid sound.single
    (fun _ _ _ _ _ known => HandlerTable.mem_tags known) records⟩

theorem Saved.Valid.refused {R : Type} {saved : Saved} {table table' : HandlerTable R} {e : Error}
    (valid : saved.Valid table) (defective : saved.Defective table' e) :
    ∃ tag, tag ∉ table'.tags ∧ e = .badSaved (.unknownTag tag) := by
  cases defective with
  | start none => exact (valid.start none).elim
  | node listed defective =>
      have node := valid.nodes _ (List.mem_of_getElem? listed)
      cases defective with
      | tag _ unknown => exact ⟨_, unknown, rfl⟩
      | target member missing => exact absurd (node.edges _ member).target (Nat.not_lt.2 missing)
      | range member bounds =>
          exact (bounds ⟨(node.edges _ member).ordered, (node.edges _ member).inside⟩).elim
      | overlap shared => exact (shared node.apart).elim

theorem Saved.loadRecorded_of_ok {R σ : Type} {saved : Saved} {table : HandlerTable R}
    {a : Automaton R} (loaded : saved.load table = .ok a) (x : Logged σ) :
    saved.loadRecorded table x =
      .ok a { x with log := x.log.push (.loaded saved.nodes.length) } :=
  bind_eq_ok.2 ⟨a, x, ofExcept_eq_ok.2 ⟨by rw [loaded]; rfl, rfl⟩, rfl⟩

theorem Saved.loadRecorded_of_error {R σ : Type} {saved : Saved} {table : HandlerTable R} {e : Error}
    (failed : saved.load table = .error e) (x : Logged σ) :
    saved.loadRecorded table x = .error (.error e) x :=
  bind_of_error (by rw [failed]; rfl)

namespace Session

variable {R κ : Type}

inductive Operation (R κ : Type) where
  | setSource (source : String)
  | next
  | skip
  | tokenize (source : String)
  | matched (text : String)
  | onEnd (callback : κ → κ)
  | save
  | reload (table : HandlerTable R)

inductive Outcome (R : Type) where
  | done
  | scanned (found : Scan R)
  | skipped (c : Option Char)
  | tokens (found : Except ScanError (List R))
  | matched (yes : Bool)
  | saved (saved : Saved)

def perform : Operation R κ → Recorded (Session R κ) (Outcome R)
  | .setSource source => do
    setSource source
    return .done
  | .next => return .scanned (← next)
  | .skip => return .skipped (← skip)
  | .tokenize source => return .tokens (← tokenize source)
  | .matched text => do
    return .matched (← ofExcept ((← current).automaton.matches? text))
  | .onEnd callback => do
    change ({ · with onEnd := some callback })
    return .done
  | .save => do
    return .saved (← ofExcept (← current).automaton.save)
  | .reload table => do
    let saved ← ofExcept (← current).automaton.save
    let automaton ← saved.loadRecorded table
    change fun s => { automaton, caller := s.caller }
    return .done

/-- Performs an operation. The session goes on after an error, but not after a fault. -/
def attempt (operation : Operation R κ) : Recorded (Session R κ) (Except Error (Outcome R)) := fun x =>
  match perform operation x with
  | .ok outcome y => .ok (.ok outcome) y
  | .error (.error e) y => .ok (.error e) y
  | .error (.fault f) y => .error (.fault f) y

def performAll : List (Operation R κ) → Recorded (Session R κ) (List (Except Error (Outcome R)))
  | [] => return []
  | operation :: operations => return (← attempt operation) :: (← performAll operations)

structure Safe (s : Session R κ) : Prop where
  sound : s.automaton.Sound
  cursor : ∃ done, s.source.toList = done ++ s.rest ∧ s.position = utf8Length done

/-- What may come of an operation. An automaton is saved as something that can be loaded with the same
handlers. -/
inductive Expected (s : Session R κ) : Operation R κ → Except Error (Outcome R) → Prop
  | setSource (source : String) : Expected s (.setSource source) (.ok .done)
  | next (found : Scan R) : Expected s .next (.ok (.scanned found))
  | skip (c : Option Char) : Expected s .skip (.ok (.skipped c))
  | tokenize (source : String) (found : Except ScanError (List R)) :
      Expected s (.tokenize source) (.ok (.tokens found))
  | matched (text : String) (yes : Bool) : Expected s (.matched text) (.ok (.matched yes))
  | onEnd (callback : κ → κ) : Expected s (.onEnd callback) (.ok .done)
  | save {saved : Saved} : saved.Valid s.automaton.handlers → Expected s .save (.ok (.saved saved))
  | reload (table : HandlerTable R) : Expected s (.reload table) (.ok .done)
  | refused {table : HandlerTable R} {tag : String} : tag ∉ table.tags →
      Expected s (.reload table) (.error (.badSaved (.unknownTag tag)))

variable {s t : Session R κ} {x y : Logged (Session R κ)} {text : List Char} {source : String}
  {log : Array Event}

namespace Safe

theorem passes (safe : s.Safe) (passes : Passes s t text) : t.Safe := by
  obtain ⟨done, source, position⟩ := safe.cursor
  refine ⟨passes.automaton ▸ safe.sound, done ++ text, ?_, ?_⟩
  · rw [show t.source = s.source by rw [passes.state], source, passes.rest, List.append_assoc]
  · rw [passes.position, position, utf8Length_append]

theorem withSource (safe : s.Safe) (source : String) : (s.withSource source).Safe :=
  ⟨safe.sound, [], rfl, rfl⟩

theorem next (safe : s.Safe) (log : Array Event) :
    ∃ found y, Session.next ⟨s, log⟩ = .ok found y ∧ y.state.Safe := by
  by_cases finished : s.rest = []
  · exact ⟨_, _, next_of_rest_eq_nil finished log, safe.sound, safe.cursor⟩
  · rcases next_of_sound safe.sound finished log with ⟨_, _, scanned, _, passes, _⟩ | ⟨_, _, _, same⟩
    · exact ⟨_, _, scanned, safe.passes passes⟩
    · exact ⟨_, _, same, safe⟩

theorem skip (safe : s.Safe) (log : Array Event) :
    ∃ c y, Session.skip ⟨s, log⟩ = .ok c y ∧ y.state.Safe := by
  cases rest : s.rest with
  | nil => exact ⟨_, _, skip_of_rest_eq_nil rest log, safe⟩
  | cons c cs => exact ⟨_, _, skip_of_rest_eq_cons rest log, safe.passes (.advance s 1)⟩

theorem tokenize (safe : s.Safe) (source : String) (log : Array Event) :
    ∃ found y, Session.tokenize source ⟨s, log⟩ = .ok found y ∧ y.state.Safe := by
  have fresh := safe.withSource source
  obtain ⟨all, last, final, exhausts⟩ := exists_exhausts safe.sound source log
  rcases exhausts.turns.tokens_cases safe.sound exhausts.finished (exhausts.length_le safe.sound) with
    ⟨results, _, result⟩ | ⟨before, item, after, e, y, _, _, _, some, result⟩
  · refine ⟨_, final, result, ?_⟩
    have safe' := fresh.passes (exhausts.turns.passes safe.sound)
    rw [exhausts.callback]
    exact ⟨safe'.sound, safe'.cursor⟩
  · exact ⟨_, y, result, fresh.passes (some.passes safe.sound)⟩

end Safe

theorem attempt_of_perform {operation : Operation R κ} {outcome : Outcome R}
    (performed : perform operation x = .ok outcome y) : attempt operation x = .ok (.ok outcome) y := by
  rw [attempt, performed]

theorem Safe.attempt (safe : s.Safe) (operation : Operation R κ) (log : Array Event) :
    ∃ result y, Session.attempt operation ⟨s, log⟩ = .ok result y ∧ y.state.Safe ∧
      Expected s operation result ∧ ∀ e, result = .error e → y = ⟨s, log⟩ := by
  cases operation with
  | setSource source =>
      exact ⟨_, _, attempt_of_perform rfl, safe.withSource source, .setSource source, nofun⟩
  | next =>
      obtain ⟨found, y, scanned, safe'⟩ := safe.next log
      have performed : perform .next ⟨s, log⟩ = .ok (.scanned found) y :=
        bind_eq_ok.2 ⟨_, _, scanned, rfl⟩
      exact ⟨_, y, attempt_of_perform performed, safe', .next found, nofun⟩
  | skip =>
      obtain ⟨c, y, skipped, safe'⟩ := safe.skip log
      have performed : perform .skip ⟨s, log⟩ = .ok (.skipped c) y :=
        bind_eq_ok.2 ⟨_, _, skipped, rfl⟩
      exact ⟨_, y, attempt_of_perform performed, safe', .skip c, nofun⟩
  | tokenize source =>
      obtain ⟨found, y, scanned, safe'⟩ := safe.tokenize source log
      have performed : perform (.tokenize source) ⟨s, log⟩ = .ok (.tokens found) y :=
        bind_eq_ok.2 ⟨_, _, scanned, rfl⟩
      exact ⟨_, y, attempt_of_perform performed, safe', .tokenize source found, nofun⟩
  | matched text =>
      obtain ⟨yes, result, _⟩ :=
        safe.sound.single.matchesFrom_eq safe.sound.single.start text.toList
      have performed : perform (.matched text) ⟨s, log⟩ = .ok (.matched yes) ⟨s, log⟩ :=
        bind_eq_ok.2 ⟨_, _, rfl, bind_eq_ok.2 ⟨yes, _, ofExcept_eq_ok.2 ⟨result, rfl⟩, rfl⟩⟩
      exact ⟨_, _, attempt_of_perform performed, safe, .matched text yes, nofun⟩
  | onEnd callback =>
      exact ⟨_, _, attempt_of_perform rfl, ⟨safe.sound, safe.cursor⟩, .onEnd callback, nofun⟩
  | save =>
      obtain ⟨saved, result, valid⟩ := safe.sound.save
      have performed : perform .save ⟨s, log⟩ = .ok (.saved saved) ⟨s, log⟩ :=
        bind_eq_ok.2 ⟨_, _, rfl, bind_eq_ok.2 ⟨saved, _, ofExcept_eq_ok.2 ⟨result, rfl⟩, rfl⟩⟩
      exact ⟨_, _, attempt_of_perform performed, safe, .save valid, nofun⟩
  | reload table =>
      obtain ⟨saved, result, valid⟩ := safe.sound.save
      have saving : (ofExcept s.automaton.save : Recorded (Session R κ) Saved) ⟨s, log⟩ =
          .ok saved ⟨s, log⟩ := ofExcept_eq_ok.2 ⟨result, rfl⟩
      rcases saved.load_cases table with ⟨a, loaded, _⟩ | ⟨e, failed, defective⟩
      · have performed : perform (.reload table) ⟨s, log⟩ =
            .ok .done ⟨{ automaton := a, caller := s.caller }, _⟩ :=
          bind_eq_ok.2 ⟨_, _, rfl, bind_eq_ok.2 ⟨saved, _, saving,
            bind_eq_ok.2 ⟨a, _, Saved.loadRecorded_of_ok loaded _, rfl⟩⟩⟩
        exact ⟨_, _, attempt_of_perform performed, ⟨Saved.load_sound loaded, [], rfl, rfl⟩,
          .reload table, nofun⟩
      · have performed : perform (.reload table) ⟨s, log⟩ = .error (.error e) ⟨s, log⟩ :=
          (bind_of_ok rfl).trans ((bind_of_ok saving).trans
            (bind_of_error (Saved.loadRecorded_of_error failed _)))
        -- The data are valid with the old table, so only a tag can be wrong about the new one.
        obtain ⟨tag, unknown, rfl⟩ := valid.refused defective
        refine ⟨_, _, ?_, safe, .refused unknown, fun _ _ => rfl⟩
        rw [Session.attempt, performed]

theorem Safe.performAll (safe : s.Safe) (operations : List (Operation R κ)) (log : Array Event) :
    ∃ results y, Session.performAll operations ⟨s, log⟩ = .ok results y ∧ y.state.Safe ∧
      List.Forall₂ (fun operation result => ∃ t : Session R κ, t.Safe ∧ Expected t operation result)
        operations results := by
  induction operations generalizing s log with
  | nil => exact ⟨[], _, rfl, safe, .nil⟩
  | cons operation operations ih =>
      obtain ⟨result, y, first, safe', expected, _⟩ := safe.attempt operation log
      obtain ⟨results, z, rest, safe'', all⟩ := ih safe' y.log
      exact ⟨result :: results, z,
        bind_eq_ok.2 ⟨_, _, first, bind_eq_ok.2 ⟨_, _, rest, rfl⟩⟩, safe'',
        .cons ⟨s, safe, expected⟩ all⟩

/-- Whatever is done with an automaton that is built or loaded, no fault is met: every operation has an
outcome, and only loading with a table that lacks a tag is refused. Afterwards every arc still leads
to one node that is there, every handler that a search can ask for is registered, and the cursor stands
between two characters. -/
theorem performAll_safe {a : Automaton R} (made : a.Made) (caller : κ)
    (operations : List (Operation R κ)) (log : Array Event) :
    ∃ results y, performAll operations ⟨{ automaton := a, caller }, log⟩ = .ok results y ∧
      y.state.Safe ∧
      List.Forall₂ (fun operation result => ∃ t : Session R κ, t.Safe ∧ Expected t operation result)
        operations results :=
  Safe.performAll ⟨made.sound, [], rfl, rfl⟩ operations log

theorem performAll_safe_built : ∃ (a : Automaton String) (y : Logged Unit),
    (Lexer.mk [⟨"a", "short", id⟩, ⟨"ab", "long", id⟩] true none).build { state := () } = .ok a y ∧
      ∃ results z, performAll [.tokenize "abé", .skip, .reload {}, .matched "ab", .reload a.handlers,
        .setSource "aa", .onEnd (· + 1), .next, .save] ⟨{ automaton := a, caller := 0 }, #[]⟩ =
          .ok results z ∧ z.state.Safe := by
  obtain ⟨a, y, built⟩ := Build.exists_of_succeeds
    (by cbv : Build.succeeds ((Lexer.mk [⟨"a", "short", id⟩, ⟨"ab", "long", id⟩] true none).build
      { state := () } : EStateM.Result Failure (Logged Unit) (Automaton String)) = true)
  obtain ⟨results, z, performed, safe, _⟩ := performAll_safe (.built built) 0 [.tokenize "abé", .skip,
    .reload {}, .matched "ab", .reload a.handlers, .setSource "aa", .onEnd (· + 1), .next, .save] #[]
  exact ⟨a, y, built, results, z, performed, safe⟩

end Session

end LongestMatch
