import LongestMatch.Proofs.Automaton.Sound
import LongestMatch.Proofs.Lexer.Munch

namespace LongestMatch

open Parse (bind_eq_ok)

namespace Session

variable {R κ : Type}

structure Item (R : Type) where
  text : List Char
  found : Except ScanError R

inductive Turn (x : Logged (Session R κ)) : Item R → Logged (Session R κ) → Prop
  | token {text : List Char} {result : R} {y : Logged (Session R κ)} :
      next x = .ok (.token result) y → x.state.rest = text ++ y.state.rest → Turn x ⟨text, .ok result⟩ y
  | skipped {e : ScanError} {c : Char} {y z : Logged (Session R κ)} :
      next x = .ok (.unrecognized e) y → skip y = .ok (some c) z → Turn x ⟨[c], .error e⟩ z

inductive Turns : Logged (Session R κ) → List (Item R) → Logged (Session R κ) → Prop
  | nil (x : Logged (Session R κ)) : Turns x [] x
  | cons {x y z : Logged (Session R κ)} {item : Item R} {items : List (Item R)} :
      Turn x item y → Turns y items z → Turns x (item :: items) z

def texts (items : List (Item R)) : List Char := items.flatMap Item.text

/-- The item fits its place: its text is not empty and has been given to a registered handler, or the
error names its one character and the place. -/
inductive Item.Fits (handlers : HandlerTable R) (position : Nat) : Item R → Prop
  | token {text : List Char} {h : HandlerId} {tag : String} {handler : String → R} :
      text ≠ [] → handlers.entry? h = some (tag, handler) →
        Fits handlers position ⟨text, .ok (handler (String.ofList text))⟩
  | skipped (c : Char) : Fits handlers position ⟨[c], .error ⟨c, position⟩⟩

structure Passes (s t : Session R κ) (text : List Char) : Prop where
  rest : s.rest = text ++ t.rest
  state : t = { s with rest := t.rest, position := s.position + utf8Length text }

variable {s t u : Session R κ} {x y z last final : Logged (Session R κ)} {text more : List Char}
  {item item' : Item R} {all before : List (Item R)}

namespace Passes

theorem refl (s : Session R κ) : Passes s s [] := ⟨rfl, rfl⟩

theorem trans (first : Passes s t text) (second : Passes t u more) : Passes s u (text ++ more) where
  rest := by rw [first.rest, second.rest, List.append_assoc]
  state := by
    rw [second.state, first.state, utf8Length_append, Nat.add_assoc]

theorem advance (s : Session R κ) (length : Nat) :
    Passes s (s.advance length) (s.rest.take length) where
  rest := (List.take_append_drop length s.rest).symm
  state := rfl

theorem automaton (passes : Passes s t text) : t.automaton = s.automaton := by rw [passes.state]

theorem position (passes : Passes s t text) : t.position = s.position + utf8Length text := by
  rw [passes.state]

theorem caller (passes : Passes s t text) : t.caller = s.caller := by rw [passes.state]

end Passes

theorem next_of_sound (sound : s.automaton.Sound) (more : s.rest ≠ []) (log : Array Event) :
    (∃ result y, next ⟨s, log⟩ = .ok (.token result) y ∧
      ∃ text, Passes s y.state text ∧ Item.Fits s.automaton.handlers s.position ⟨text, .ok result⟩) ∨
      ∃ c cs, s.rest = c :: cs ∧ next ⟨s, log⟩ = .ok (.unrecognized ⟨c, s.position⟩) ⟨s, log⟩ := by
  obtain ⟨found, searched, ⟨m, longest, rfl⟩ | ⟨_, rfl⟩⟩ := sound.single.longest_eq s.rest
  · obtain ⟨_, _, entry, _, known, preferred⟩ := sound.exists_entry longest
    refine .inl ⟨_, _, next_of_longest_eq_some more searched preferred log, _, .advance s m.length,
      .token ?_ known⟩
    exact List.ne_nil_of_length_pos
      (by rw [List.length_take_of_le longest.length_le]; exact longest.positive)
  · obtain ⟨c, cs, rest⟩ := List.exists_cons_of_ne_nil more
    exact .inr ⟨c, cs, rest, next_of_longest_eq_none rest searched log⟩

theorem exists_turn (sound : x.state.automaton.Sound) (more : x.state.rest ≠ []) :
    ∃ item y, Turn x item y ∧ Passes x.state y.state item.text ∧
      item.Fits x.state.automaton.handlers x.state.position := by
  rcases next_of_sound sound more x.log with ⟨result, y, scanned, text, passes, fits⟩ |
    ⟨c, cs, rest, unrecognized⟩
  · exact ⟨⟨text, .ok result⟩, y, .token scanned passes.rest, passes, fits⟩
  · refine ⟨⟨[c], .error ⟨c, x.state.position⟩⟩, _,
      .skipped unrecognized (skip_of_rest_eq_cons rest x.log), ?_, .skipped c⟩
    have passes : Passes x.state (x.state.advance 1) (x.state.rest.take 1) :=
      .advance x.state 1
    rwa [rest] at passes

theorem Turn.rest_ne_nil (turn : Turn x item y) : x.state.rest ≠ [] := by
  intro finished
  have ended := next_of_rest_eq_nil finished x.log
  cases turn with
  | token scanned => cases ended.symm.trans scanned
  | skipped scanned => cases ended.symm.trans scanned

theorem Turn.unique (first : Turn x item y) (second : Turn x item' z) : item = item' ∧ y = z := by
  cases first with
  | token scanned text =>
      cases second with
      | token scanned' text' =>
          cases scanned.symm.trans scanned'
          cases List.append_cancel_right (text.symm.trans text')
          exact ⟨rfl, rfl⟩
      | skipped scanned' => cases scanned.symm.trans scanned'
  | skipped scanned skipped =>
      cases second with
      | token scanned' => cases scanned.symm.trans scanned'
      | skipped scanned' skipped' =>
          cases scanned.symm.trans scanned'
          cases skipped.symm.trans skipped'
          exact ⟨rfl, rfl⟩

theorem Turn.passes (turn : Turn x item y) (sound : x.state.automaton.Sound) :
    Passes x.state y.state item.text ∧ item.Fits x.state.automaton.handlers x.state.position := by
  obtain ⟨item', y', turn', passes, fits⟩ := exists_turn sound turn.rest_ne_nil
  obtain ⟨rfl, rfl⟩ := turn.unique turn'
  exact ⟨passes, fits⟩

theorem eq_of_unrecognized {e : ScanError} (sound : x.state.automaton.Sound)
    (scanned : next x = .ok (.unrecognized e) y) :
    y = x ∧ e.position = x.state.position ∧ x.state.rest.head? = some e.char := by
  have more : x.state.rest ≠ [] := by
    intro finished
    cases (next_of_rest_eq_nil finished x.log).symm.trans scanned
  rcases next_of_sound sound more x.log with ⟨result, z, token, _⟩ | ⟨c, cs, rest, unrecognized⟩
  · cases token.symm.trans scanned
  · cases unrecognized.symm.trans scanned
    exact ⟨rfl, rfl, by rw [rest, List.head?_cons]⟩

theorem Item.Fits.text_ne_nil {handlers : HandlerTable R} {position : Nat}
    (fits : item.Fits handlers position) : item.text ≠ [] := by
  cases fits with
  | token more => exact more
  | skipped => exact List.cons_ne_nil _ _

namespace Turns

variable (turns : Turns x all y) (sound : x.state.automaton.Sound)
include turns sound

theorem passes : Passes x.state y.state (texts all) := by
  induction turns with
  | nil x => exact .refl x.state
  | cons turn _ ih =>
      obtain ⟨passes, _⟩ := turn.passes sound
      exact passes.trans (ih (passes.automaton ▸ sound))

theorem fits {after : List (Item R)} (same : all = before ++ item :: after) :
    item.Fits x.state.automaton.handlers (x.state.position + utf8Length (texts before)) := by
  induction turns generalizing before with
  | nil => simp at same
  | cons turn _ ih =>
      obtain ⟨passes, fits⟩ := turn.passes sound
      cases before with
      | nil =>
          cases same
          exact fits
      | cons first before =>
          cases same
          have fits := ih (passes.automaton ▸ sound) rfl
          rwa [passes.automaton, passes.position, Nat.add_assoc, ← utf8Length_append] at fits

theorem length_le : all.length ≤ (texts all).length := by
  induction turns with
  | nil => exact Nat.le_refl _
  | cons turn _ ih =>
      obtain ⟨passes, fits⟩ := turn.passes sound
      have := List.length_pos_of_ne_nil fits.text_ne_nil
      have := ih (passes.automaton ▸ sound)
      simp only [texts, List.flatMap_cons, List.length_append, List.length_cons] at this ⊢
      omega

end Turns

theorem exists_turns (x : Logged (Session R κ)) (sound : x.state.automaton.Sound) :
    ∃ all last, Turns x all last ∧ last.state.rest = [] := by
  by_cases finished : x.state.rest = []
  · exact ⟨[], x, .nil x, finished⟩
  · obtain ⟨item, y, turn, passes, fits⟩ := exists_turn sound finished
    have shorter : y.state.rest.length < x.state.rest.length := by
      rw [passes.rest, List.length_append]
      have := List.length_pos_of_ne_nil fits.text_ne_nil
      omega
    obtain ⟨items, last, turns, done⟩ := exists_turns y (passes.automaton ▸ sound)
    exact ⟨_, last, .cons turn turns, done⟩
termination_by x.state.rest.length

theorem Turns.exists_rest (turns : Turns x all last) (finished : last.state.rest = [])
    (some : Turns x before y) : ∃ after, all = before ++ after ∧ Turns y after last := by
  induction some generalizing all with
  | nil => exact ⟨all, rfl, turns⟩
  | cons turn' _ ih =>
      cases turns with
      | nil => exact (turn'.rest_ne_nil finished).elim
      | cons turn turns =>
          obtain ⟨rfl, rfl⟩ := turn.unique turn'
          obtain ⟨after, rfl, rest⟩ := ih turns
          exact ⟨after, rfl, rest⟩

theorem items_of_finished {bound : Nat} (finished : next x = .ok .finished y) :
    items bound x = .ok [] y := by
  rw [items]
  exact bind_eq_ok.2 ⟨_, _, finished, rfl⟩

theorem items_of_turn {bound : Nat} {found : List (Except ScanError R)} (turn : Turn x item y)
    (rest : items bound y = .ok found z) : items (bound + 1) x = .ok (item.found :: found) z := by
  rw [items]
  cases turn with
  | token scanned => exact bind_eq_ok.2 ⟨_, _, scanned, bind_eq_ok.2 ⟨_, _, rest, rfl⟩⟩
  | skipped scanned skipped =>
      exact bind_eq_ok.2 ⟨_, _, scanned,
        bind_eq_ok.2 ⟨_, _, skipped, bind_eq_ok.2 ⟨_, _, rest, rfl⟩⟩⟩

theorem Turns.items_eq {bound : Nat} (turns : Turns x all last)
    (finished : next last = .ok .finished final) (room : all.length ≤ bound) :
    items bound x = .ok (all.map Item.found) final := by
  induction turns generalizing bound with
  | nil x => exact items_of_finished finished
  | cons turn _ ih =>
      obtain ⟨bound, rfl⟩ := Nat.exists_eq_succ_of_ne_zero (Nat.ne_zero_of_lt room)
      exact items_of_turn turn (ih finished (Nat.le_of_succ_le_succ room))

theorem Turns.tokens_cases {bound : Nat} (turns : Turns x all last)
    (sound : x.state.automaton.Sound) (finished : next last = .ok .finished final)
    (room : all.length ≤ bound) :
    (∃ results, all.map Item.found = results.map .ok ∧
      tokens bound x = .ok (.ok results) final) ∨
      ∃ before item after e y, all = before ++ item :: after ∧ item.found = .error e ∧
        (∀ i ∈ before, ∃ result, i.found = .ok result) ∧ Turns x before y ∧
          tokens bound x = .ok (.error e) y := by
  induction turns generalizing bound with
  | nil x =>
      rw [tokens]
      exact .inl ⟨[], rfl, bind_eq_ok.2 ⟨_, _, finished, rfl⟩⟩
  | cons turn _ ih =>
      obtain ⟨bound, rfl⟩ := Nat.exists_eq_succ_of_ne_zero (Nat.ne_zero_of_lt room)
      obtain ⟨passes, _⟩ := turn.passes sound
      rw [tokens]
      -- A token leaves the rest to the other turns, an error ends the scan here.
      cases turn with
      | @token text result y scanned passed =>
          rcases ih (passes.automaton ▸ sound) finished (Nat.le_of_succ_le_succ room) with
            ⟨results, same, rest⟩ | ⟨before, item, after, e, z, rfl, error, fine, turns, rest⟩
          · refine .inl ⟨result :: results, by rw [List.map_cons, same, List.map_cons],
              bind_eq_ok.2 ⟨_, _, scanned, bind_eq_ok.2 ⟨_, _, rest, rfl⟩⟩⟩
          · refine .inr ⟨⟨text, .ok result⟩ :: before, item, after, e, z, rfl, error, ?_,
              .cons (.token scanned passed) turns,
              bind_eq_ok.2 ⟨_, _, scanned, bind_eq_ok.2 ⟨_, _, rest, rfl⟩⟩⟩
            exact List.forall_mem_cons.2 ⟨⟨result, rfl⟩, fine⟩
      | @skipped e c y _ scanned skipped =>
          obtain ⟨rfl, _⟩ := eq_of_unrecognized sound scanned
          exact .inr ⟨[], ⟨[c], .error e⟩, _, e, _, rfl, rfl, List.forall_mem_nil _, .nil _,
            bind_eq_ok.2 ⟨_, _, scanned, rfl⟩⟩

/-- The turns of the loop over a text, up to the call that finds the end of the text. -/
structure Exhausts (s : Session R κ) (source : String) (log : Array Event) (all : List (Item R))
    (last final : Logged (Session R κ)) : Prop where
  turns : Turns ⟨s.withSource source, log⟩ all last
  finished : next last = .ok .finished final
  /-- There is no other way to go, in particular none that goes on for longer. -/
  only : ∀ {before mid}, Turns ⟨s.withSource source, log⟩ before mid →
    ∃ after, all = before ++ after ∧ Turns mid after last
  source_eq : source.toList = texts all
  fits : ∀ {before item after}, all = before ++ item :: after →
    item.Fits s.automaton.handlers (utf8Length (texts before))
  cursor : ∀ {before mid}, Turns ⟨s.withSource source, log⟩ before mid →
    source.toList = texts before ++ mid.state.rest ∧
      mid.state = { s with
        source, rest := mid.state.rest, position := utf8Length (texts before) }
  error : ∀ {before mid e y}, Turns ⟨s.withSource source, log⟩ before mid →
    next mid = .ok (.unrecognized e) y →
      y = mid ∧ e.position = mid.state.position ∧ mid.state.rest.head? = some e.char
  /-- Only the last call runs the callback, once. -/
  callback : final.state = { last.state with caller := s.onEnd.getD id s.caller }

theorem exists_exhausts (sound : s.automaton.Sound) (source : String) (log : Array Event) :
    ∃ all last final, Exhausts s source log all last final := by
  obtain ⟨all, last, turns, done⟩ := exists_turns ⟨s.withSource source, log⟩ sound
  have cursor {before : List (Item R)} {mid : Logged (Session R κ)}
      (some : Turns ⟨s.withSource source, log⟩ before mid) :
      source.toList = texts before ++ mid.state.rest ∧
        mid.state = { s with
          source, rest := mid.state.rest, position := utf8Length (texts before) } := by
    have passes := some.passes sound
    refine ⟨passes.rest, passes.state.trans ?_⟩
    simp only [withSource, Nat.zero_add]
  obtain ⟨text, state⟩ := cursor turns
  have finished := next_of_rest_eq_nil done last.log
  refine ⟨all, last, _, turns, finished, turns.exists_rest done, ?_, fun same => ?_, cursor,
    fun some scanned => ?_, ?_⟩
  · rw [text, done, List.append_nil]
  · have fits := turns.fits sound same
    rwa [show (s.withSource source).position = 0 from rfl, Nat.zero_add] at fits
  · exact eq_of_unrecognized ((some.passes sound).automaton ▸ sound) scanned
  · have kept : last.state.onEnd.getD id last.state.caller = s.onEnd.getD id s.caller := by
      rw [state]
    simp only [kept]

theorem Exhausts.length_le {source : String} {log : Array Event}
    (exhausts : Exhausts s source log all last final) (sound : s.automaton.Sound) :
    all.length ≤ source.toList.length := by
  rw [exhausts.source_eq]
  exact exhausts.turns.length_le sound

end Session

/-- On an automaton that is built or loaded, the loop over any text ends and loses nothing. Scanning
the whole text gives the items of the loop. If all items are tokens, the text consists of these
tokens, and else the first error is reported. -/
theorem scan_lossless {R κ : Type} {s : Session R κ} (made : s.automaton.Made) (source : String)
    (log : Array Event) : ∃ all last final, Session.Exhausts s source log all last final ∧
      Session.scanAll source ⟨s, log⟩ = .ok (all.map Session.Item.found) final ∧
      ((∃ results, all.map Session.Item.found = results.map .ok ∧
          Session.tokenize source ⟨s, log⟩ = .ok (.ok results) final) ∨
        ∃ before item after e y, all = before ++ item :: after ∧ item.found = .error e ∧
          (∀ i ∈ before, ∃ result, i.found = .ok result) ∧
          Session.Turns ⟨s.withSource source, log⟩ before y ∧
          Session.tokenize source ⟨s, log⟩ = .ok (.error e) y) := by
  obtain ⟨all, last, final, exhausts⟩ := Session.exists_exhausts made.sound source log
  have room := exhausts.length_le made.sound
  refine ⟨all, last, final, exhausts, ?_, ?_⟩
  · exact exhausts.turns.items_eq exhausts.finished room
  · exact exhausts.turns.tokens_cases made.sound exhausts.finished room

theorem scan_lossless_built : ∃ (a : Automaton String) (y : Logged Unit),
    (Lexer.mk [⟨"a", "short", id⟩, ⟨"aé", "long", id⟩] true none).build { state := () } = .ok a y ∧
      ∃ all last final,
        Session.Exhausts { automaton := a, onEnd := some (· + 1), caller := 0 } "aé!a𐀀" #[] all last
          final := by
  obtain ⟨a, y, built⟩ := Build.exists_of_succeeds
    (by cbv : Build.succeeds ((Lexer.mk [⟨"a", "short", id⟩, ⟨"aé", "long", id⟩] true none).build
      { state := () } : EStateM.Result Failure (Logged Unit) (Automaton String)) = true)
  obtain ⟨all, last, final, exhausts, _⟩ := scan_lossless
    (s := { automaton := a, onEnd := some (· + 1), caller := 0 }) (.built built) "aé!a𐀀" #[]
  exact ⟨a, y, built, all, last, final, exhausts⟩

end LongestMatch
