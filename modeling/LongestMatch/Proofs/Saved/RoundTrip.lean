import LongestMatch.Proofs.Automaton.Session
import LongestMatch.Proofs.Saved.Json
import LongestMatch.Proofs.Saved.Renumbering

namespace LongestMatch

namespace Session

open Recorded

inductive Call where
  | next
  | skip
  deriving DecidableEq, Repr

inductive Answer (R : Type) where
  | scanned (found : Scan R)
  | skipped (c : Option Char)

structure Reply (R : Type) where
  answer : Answer R
  passed : List Char
  position : Nat

variable {R κ : Type}

def answer : Call → Recorded (Session R κ) (Answer R)
  | .next => return .scanned (← next)
  | .skip => return .skipped (← skip)

def reply (call : Call) : Recorded (Session R κ) (Reply R) := do
  let before ← current
  let answer ← answer call
  let after ← current
  return ⟨answer, before.rest.take (before.rest.length - after.rest.length), after.position⟩

def serve : List Call → Recorded (Session R κ) (List (Reply R))
  | [] => return []
  | call :: calls => return (← reply call) :: (← serve calls)

/-- Two answers are the same, except that a token comes from two handlers registered under the same
tag, which are both called with the text passed. -/
inductive Answer.Agrees (first second : HandlerTable R) (passed : List Char) :
    Answer R → Answer R → Prop
  | token {h h' : HandlerId} {tag : String} {f g : String → R} :
      first.entry? h = some (tag, f) → second.entry? h' = some (tag, g) →
        Agrees first second passed (.scanned (.token (f (.ofList passed))))
          (.scanned (.token (g (.ofList passed))))
  | unrecognized (e : ScanError) :
      Agrees first second passed (.scanned (.unrecognized e)) (.scanned (.unrecognized e))
  | finished : Agrees first second passed (.scanned .finished) (.scanned .finished)
  | skipped (c : Option Char) : Agrees first second passed (.skipped c) (.skipped c)

structure Reply.Agrees (first second : HandlerTable R) (r r' : Reply R) : Prop where
  passed : r'.passed = r.passed
  position : r'.position = r.position
  answer : r.answer.Agrees first second r.passed r'.answer

end Session

namespace Automaton

variable {R : Type} {a b : Automaton R} {nodes : List NodeId} {id n : NodeId}

def Match.mapped (image : NodeId → NodeId) (m : Match) : Match := { m with node := image m.node }

namespace Mirrors

theorem next?_eq (mirrors : Mirrors nodes a b) (member : id ∈ nodes) (code : Nat) :
    b.graph.next? (nodes.idxOf id) code = (a.graph.next? id code).map nodes.idxOf := by
  rw [Graph.next?, Graph.targets, Node.targets, mirrors.arcs id member, Arc.targetsAt_mapped,
    Graph.next?, Graph.targets, Node.targets]
  cases Arc.targetsAt code (a.graph.nodeD id).arcs.arcs with
  | none => rfl
  | some targets => exact List.head?_map ..

theorem isAccepting_eq (mirrors : Mirrors nodes a b) (member : id ∈ nodes) :
    (b.graph.nodeD (nodes.idxOf id)).isAccepting = (a.graph.nodeD id).isAccepting := by
  rw [Bool.eq_iff_iff, Node.isAccepting_iff, Node.isAccepting_iff, ← List.length_pos_iff,
    ← List.length_pos_iff, (mirrors.handlers id member).length_eq]

variable (mirrors : Mirrors nodes a b) (lists : a.Lists nodes) (single : a.Single)

include mirrors lists single

theorem step_cases (member : id ∈ nodes) (c : Char) :
    (a.step id c = .ok none ∧ b.step (nodes.idxOf id) c = .ok none) ∨
      ∃ n ∈ nodes, a.step id c = .ok (some n) ∧
        b.step (nodes.idxOf id) c = .ok (some (nodes.idxOf n)) := by
  rw [single.step_eq (single.reachable_lt (lists.reached id member)),
    (mirrors.single lists single).step_eq (mirrors.lt member), mirrors.next?_eq member]
  cases next : a.graph.next? id c.toNat with
  | none => exact .inl ⟨rfl, rfl⟩
  | some n =>
      obtain ⟨arc, stored, _, target⟩ := Graph.mem_targets_iff.1 (List.mem_of_head? next)
      exact .inr ⟨n, lists.closed id member n (mem_successors.2 ⟨arc, stored, target⟩), rfl, rfl⟩

theorem node_eq (member : id ∈ nodes) : a.node id = .ok (a.graph.nodeD id) ∧
    b.node (nodes.idxOf id) = .ok (b.graph.nodeD (nodes.idxOf id)) :=
  ⟨Automaton.node_eq (single.reachable_lt (lists.reached id member)),
    Automaton.node_eq (mirrors.lt member)⟩

theorem preferred (member : id ∈ nodes) (accepting : (a.graph.nodeD id).isAccepting) :
    ∃ h h' tag f g, a.preferred id = .ok (tag, f) ∧ a.handlers.entry? h = some (tag, f) ∧
      b.preferred (nodes.idxOf id) = .ok (tag, g) ∧ b.handlers.entry? h' = some (tag, g) := by
  have related := mirrors.handlers id member
  obtain ⟨h, hs, handlers⟩ := List.exists_cons_of_ne_nil (Node.isAccepting_iff.1 accepting)
  rw [handlers] at related
  obtain ⟨h', hs', ⟨tag, f, g, entry, entry'⟩, _, handlers'⟩ := List.forall₂_cons_left_iff.1 related
  have inside := single.reachable_lt (lists.reached id member)
  exact ⟨h, h', tag, f, g, preferred_eq inside handlers entry, entry,
    preferred_eq (mirrors.lt member) handlers' entry', entry'⟩

theorem matchesFrom (member : id ∈ nodes) (text : List Char) :
    ∃ yes, a.matchesFrom id text = .ok yes ∧ b.matchesFrom (nodes.idxOf id) text = .ok yes := by
  induction text generalizing id with
  | nil =>
      obtain ⟨here, there⟩ := mirrors.node_eq lists single member
      refine ⟨(a.graph.nodeD id).isAccepting, ?_, ?_⟩
      · rw [Automaton.matchesFrom, here]
        rfl
      · rw [Automaton.matchesFrom, there, ← mirrors.isAccepting_eq member]
        rfl
  | cons c cs ih =>
      rw [Automaton.matchesFrom, Automaton.matchesFrom]
      rcases mirrors.step_cases lists single member c with ⟨here, there⟩ | ⟨n, listed, here, there⟩
      · exact ⟨false, by rw [here]; rfl, by rw [there]; rfl⟩
      · rw [here, there]
        exact ih listed

theorem longestFrom (member : id ∈ nodes) (length : Nat) (best : Option Match) (text : List Char) :
    ∃ found, a.longestFrom id length best text = .ok found ∧
      b.longestFrom (nodes.idxOf id) length (best.map (Match.mapped nodes.idxOf)) text =
        .ok (found.map (Match.mapped nodes.idxOf)) ∧
      ∀ m, found = some m →
        best = some m ∨ m.node ∈ nodes ∧ (a.graph.nodeD m.node).isAccepting := by
  induction text generalizing id length best with
  | nil => exact ⟨best, rfl, rfl, fun m same => .inl same⟩
  | cons c cs ih =>
      rw [Automaton.longestFrom, Automaton.longestFrom]
      rcases mirrors.step_cases lists single member c with ⟨here, there⟩ | ⟨n, listed, here, there⟩
      · exact ⟨best, by rw [here]; rfl, by rw [there]; rfl, fun m same => .inl same⟩
      · obtain ⟨node, node'⟩ := mirrors.node_eq lists single listed
        rw [here, there]
        simp only [bind, Except.bind, node, node', mirrors.isAccepting_eq listed]
        obtain ⟨found, first, second, origin⟩ := ih listed (length + 1)
          (if (a.graph.nodeD n).isAccepting then some ⟨length + 1, n⟩ else best)
        refine ⟨found, first, ?_, fun m same => ?_⟩
        · rw [← second]
          split <;> rfl
        · rcases origin m same with known | new
          · split at known
            · rename_i accepting
              cases known
              exact .inr ⟨listed, accepting⟩
            · exact .inl known
          · exact .inr new

theorem longest (text : List Char) :
    (a.longest text = .ok none ∧ b.longest text = .ok none) ∨
      ∃ m, a.longest text = .ok (some m) ∧
        b.longest text = .ok (some (m.mapped nodes.idxOf)) ∧ m.node ∈ nodes ∧
          (a.graph.nodeD m.node).isAccepting := by
  obtain ⟨found, first, second, origin⟩ :=
    mirrors.longestFrom lists single (List.mem_of_getElem? lists.start) 0 none text
  rw [← mirrors.start] at second
  cases found with
  | none => exact .inl ⟨first, second⟩
  | some m => exact .inr ⟨m, first, second, (origin m rfl).resolve_left (by simp)⟩

end Mirrors

end Automaton

namespace Session

open Parse (bind_eq_ok)

variable {R κ κ' : Type} {a b : Automaton R} {nodes : List NodeId} {s : Session R κ}
  {t : Session R κ'} {call : Call} {log : Array Event}

structure Abreast (a b : Automaton R) (s : Session R κ) (t : Session R κ') : Prop where
  automaton : s.automaton = a
  automaton' : t.automaton = b
  rest : t.rest = s.rest
  position : t.position = s.position

theorem Abreast.advance (abreast : Abreast a b s t) (length : Nat) :
    Abreast a b (s.advance length) (t.advance length) where
  automaton := abreast.automaton
  automaton' := abreast.automaton'
  rest := congrArg (List.drop length) abreast.rest
  position := by rw [Session.advance, Session.advance, abreast.rest, abreast.position]

theorem take_advance (s : Session R κ) (length : Nat) :
    s.rest.take (s.rest.length - (s.advance length).rest.length) = s.rest.take length := by
  rw [Session.advance, List.length_drop]
  rcases Nat.le_total length s.rest.length with within | beyond
  · rw [Nat.sub_sub_self within]
  · rw [Nat.sub_eq_zero_of_le beyond, Nat.sub_zero, List.take_length, List.take_of_length_le beyond]

theorem reply_of_answer {x y : Logged (Session R κ)} {found : Answer R}
    (answered : answer call x = .ok found y) : reply call x =
      .ok ⟨found, x.state.rest.take (x.state.rest.length - y.state.rest.length), y.state.position⟩ y :=
  bind_eq_ok.2 ⟨_, _, rfl, bind_eq_ok.2 ⟨found, y, answered, bind_eq_ok.2 ⟨_, _, rfl, rfl⟩⟩⟩

theorem answer_next {x y : Logged (Session R κ)} {found : Scan R} (scanned : next x = .ok found y) :
    answer .next x = .ok (.scanned found) y := bind_eq_ok.2 ⟨found, y, scanned, rfl⟩

theorem answer_skip {x y : Logged (Session R κ)} {c : Option Char} (skipped : skip x = .ok c y) :
    answer .skip x = .ok (.skipped c) y := bind_eq_ok.2 ⟨c, y, skipped, rfl⟩

def InStep (a b : Automaton R) (call : Call) (log : Array Event) (s : Session R κ)
    (t : Session R κ') : Prop :=
  ∃ r r' x y, reply call ⟨s, log⟩ = .ok r x ∧ reply call ⟨t, log⟩ = .ok r' y ∧ x.log = y.log ∧
    Abreast a b x.state y.state ∧ r.Agrees a.handlers b.handlers r'

theorem Abreast.inStep (abreast : Abreast a b s t) {x : Logged (Session R κ)}
    {y : Logged (Session R κ')} {found found' : Answer R}
    (first : answer call ⟨s, log⟩ = .ok found x) (second : answer call ⟨t, log⟩ = .ok found' y)
    (logs : x.log = y.log) (after : Abreast a b x.state y.state)
    (agrees : found.Agrees a.handlers b.handlers
      (s.rest.take (s.rest.length - x.state.rest.length)) found') : InStep a b call log s t := by
  refine ⟨_, _, x, y, reply_of_answer first, reply_of_answer second, logs, after, ?_, ?_, agrees⟩
  · rw [abreast.rest, after.rest]
  · exact after.position

theorem Abreast.skip (abreast : Abreast a b s t) (log : Array Event) :
    InStep a b .skip log s t := by
  cases text : s.rest with
  | nil =>
      exact abreast.inStep (answer_skip (skip_of_rest_eq_nil text log))
        (answer_skip (skip_of_rest_eq_nil (abreast.rest.trans text) log)) rfl abreast (.skipped _)
  | cons c cs =>
      refine abreast.inStep (answer_skip (skip_of_rest_eq_cons text log))
        (answer_skip (skip_of_rest_eq_cons (abreast.rest.trans text) log)) ?_ (abreast.advance 1)
        (.skipped _)
      rw [abreast.position]

theorem Abreast.next (abreast : Abreast a b s t) (mirrors : Automaton.Mirrors nodes a b)
    (lists : a.Lists nodes) (single : a.Single) (log : Array Event) : InStep a b .next log s t := by
  have text' := abreast.rest
  obtain rfl := abreast.automaton
  obtain rfl := abreast.automaton'
  cases text : s.rest with
  | nil =>
      exact abreast.inStep (answer_next (next_of_rest_eq_nil text log))
        (answer_next (next_of_rest_eq_nil (text'.trans text) log)) rfl
        ⟨rfl, rfl, text', abreast.position⟩ .finished
  | cons c cs =>
      have more : s.rest ≠ [] := by simp [text]
      rcases mirrors.longest lists single s.rest with ⟨here, there⟩ | ⟨m, here, there, listed, accepting⟩
      · rw [← text'] at there
        have first := next_of_longest_eq_none text here log
        have second := next_of_longest_eq_none (text'.trans text) there log
        rw [abreast.position] at second
        exact abreast.inStep (answer_next first) (answer_next second) rfl abreast (.unrecognized _)
      · obtain ⟨h, h', tag, f, g, preferred, entry, preferred', entry'⟩ :=
          mirrors.preferred lists single listed accepting
        rw [← text'] at there
        have first := next_of_longest_eq_some more here preferred log
        have second := next_of_longest_eq_some (text' ▸ more) there preferred' log
        refine abreast.inStep (answer_next first) (answer_next second) ?_ (abreast.advance m.length) ?_
        · rw [abreast.position, text']
          rfl
        · rw [take_advance, text']
          exact .token entry entry'

theorem Abreast.reply (abreast : Abreast a b s t) (mirrors : Automaton.Mirrors nodes a b)
    (lists : a.Lists nodes) (single : a.Single) (call : Call) (log : Array Event) :
    InStep a b call log s t :=
  match call with
  | .next => abreast.next mirrors lists single log
  | .skip => abreast.skip log

theorem Abreast.serve (abreast : Abreast a b s t) (mirrors : Automaton.Mirrors nodes a b)
    (lists : a.Lists nodes) (single : a.Single) (calls : List Call) (log : Array Event) :
    ∃ rs rs' x y, serve calls ⟨s, log⟩ = .ok rs x ∧ serve calls ⟨t, log⟩ = .ok rs' y ∧
      x.log = y.log ∧ List.Forall₂ (Reply.Agrees a.handlers b.handlers) rs rs' := by
  induction calls generalizing s t log with
  | nil => exact ⟨[], [], _, _, rfl, rfl, rfl, .nil⟩
  | cons call calls ih =>
      obtain ⟨r, r', ⟨s', log'⟩, ⟨t', log''⟩, first, second, logs, after, agrees⟩ :=
        abreast.reply mirrors lists single call log
      cases logs
      obtain ⟨rs, rs', x, y, rest, rest', logs, agrees'⟩ := ih after log'
      exact ⟨r :: rs, r' :: rs', x, y, bind_eq_ok.2 ⟨r, _, first, bind_eq_ok.2 ⟨rs, x, rest, rfl⟩⟩,
        bind_eq_ok.2 ⟨r', _, second, bind_eq_ok.2 ⟨rs', y, rest', rfl⟩⟩, logs, .cons agrees agrees'⟩

end Session

namespace Automaton

variable {R : Type} {a b : Automaton R} {nodes : List NodeId} {table : HandlerTable R}

theorem Mirrors.matches? (mirrors : Mirrors nodes a b) (lists : a.Lists nodes) (single : a.Single)
    (text : String) : ∃ yes, a.matches? text = .ok yes ∧ b.matches? text = .ok yes := by
  obtain ⟨yes, first, second⟩ :=
    mirrors.matchesFrom lists single (List.mem_of_getElem? lists.start) text.toList
  rw [← mirrors.start] at second
  exact ⟨yes, first, second⟩

structure Alike (a b : Automaton R) : Prop where
  matched : ∀ text, ∃ yes, a.matches? text = .ok yes ∧ b.matches? text = .ok yes
  serve : ∀ {κ κ' : Type} (s : Session R κ) (t : Session R κ'), s.automaton = a → t.automaton = b →
    ∀ source calls log, ∃ rs rs' x y,
      Session.serve calls ⟨s.withSource source, log⟩ = .ok rs x ∧
        Session.serve calls ⟨t.withSource source, log⟩ = .ok rs' y ∧ x.log = y.log ∧
          List.Forall₂ (Session.Reply.Agrees a.handlers b.handlers) rs rs'

theorem Mirrors.alike (mirrors : Mirrors nodes a b) (lists : a.Lists nodes) (single : a.Single) :
    a.Alike b where
  matched := mirrors.matches? lists single
  serve s t automaton automaton' source calls log := by
    have abreast : Session.Abreast a b (s.withSource source) (t.withSource source) :=
      ⟨automaton, automaton', rfl, rfl⟩
    exact abreast.serve mirrors lists single calls log

theorem toText_eq {codec : Codec} {s : Saved} {text : String} (saved : a.save = .ok s)
    (written : codec.write s = .ok text) : a.toText codec = .ok text := by
  rw [toText, saved]
  simp only [bind, Except.bind, written, Except.mapError]

theorem ofText_eq {codec : Codec} {s : Saved} {text : String} (read : codec.read text = .ok s)
    (loaded : s.load table = .ok b) : ofText codec table text = .ok b := by
  rw [ofText, read]
  exact loaded

end Automaton

/-- An automaton with registered handlers can be saved, and loaded with any table that has its tags.
What is loaded is saved as the same again and scans alike. The same holds by way of the text of any
codec that reads what it has written. -/
theorem Automaton.save_load {R : Type} {a : Automaton R} {table : HandlerTable R} (single : a.Single)
    (registered : a.Registered) (tags : a.TagsIn table) : ∃ s b,
      a.save = .ok s ∧ s.load table = .ok b ∧ b.save = .ok s ∧ b.handlers = table ∧ a.Alike b ∧
        ∀ codec : Codec, codec.Inverts s → ∃ text,
          a.toText codec = .ok text ∧ ofText codec table text = .ok b ∧ b.toText codec = .ok text := by
  obtain ⟨nodes, lists⟩ := single.exists_lists
  obtain ⟨s, saved, records⟩ := lists.save single registered
  have valid := lists.valid single tags records
  rcases s.load_cases table with ⟨b, loaded, _, restored⟩ | ⟨_, _, defective⟩
  · have mirrors := lists.mirrors records restored
    have again := mirrors.save lists single records
    refine ⟨s, b, saved, loaded, again, restored.handlers, mirrors.alike lists single, ?_⟩
    intro codec inverts
    obtain ⟨text, written, read⟩ := inverts
    exact ⟨text, toText_eq saved written, ofText_eq read loaded, toText_eq again written⟩
  · exact (defective.not_valid valid).elim

theorem SavedEdge.Valid.fits {size : Nat} {e : SavedEdge} (valid : e.Valid size)
    (room : size ≤ UInt64.size) : e.Fits := by
  have ⟨target, ordered, inside⟩ := valid
  have : maxCode < UInt32.size := by decide
  exact ⟨by omega, by omega, by omega⟩

/-- JSON is such a codec, as long as the numbers of the nodes fit its words. -/
theorem Automaton.Single.json_inverts {R : Type} {a : Automaton R} {s : Saved} (single : a.Single)
    (registered : a.Registered) (room : a.graph.size ≤ UInt64.size) (saved : a.save = .ok s) :
    Codec.json.Inverts s := by
  obtain ⟨nodes, lists⟩ := single.exists_lists
  obtain ⟨s', saved', records⟩ := lists.save single registered
  cases saved.symm.trans saved'
  have valid := lists.valid single (fun _ _ _ _ _ known => HandlerTable.mem_tags known) records
  have few : s.nodes.length ≤ a.graph.size := by
    rw [← records.length_eq]
    exact NodeId.length_le_of_nodup lists.nodup fun id member =>
      single.reachable_lt (lists.reached id member)
  have fits : ∀ n ∈ s.nodes, ∀ e ∈ n.edges, e.Fits := fun n member e listed =>
    ((valid.nodes n member).edges e listed).fits (few.trans room)
  exact ⟨s.write, rfl, Saved.read_write fits⟩

/-- Node 0 cannot be reached, nodes 1 and 2 lead to each other, and node 2 prefers the handler that
was registered last. -/
def carousel : Automaton String where
  graph := ⟨#[{},
    { arcs := ⟨[⟨⟨110, 111, by decide, by decide⟩, [2]⟩], by decide⟩ },
    { arcs := ⟨[⟨⟨110, 110, by decide, by decide⟩, [2]⟩, ⟨⟨112, 120, by decide, by decide⟩, [1]⟩],
        by decide⟩
      handlers := [1, 0] }]⟩
  start := 1
  handlers := ⟨#[("word", id), ("name", String.toUpper)]⟩

def reordered : HandlerTable String := ⟨#[("name", id), ("number", id), ("word", String.toLower)]⟩

theorem save_load_carousel : carousel.Single ∧ carousel.Registered ∧ carousel.TagsIn reordered ∧
    ∃ s b, carousel.save = .ok s ∧ s.load reordered = .ok b ∧ b.save = .ok s ∧
      b.handlers = reordered ∧ carousel.Alike b ∧ Codec.json.Inverts s ∧ ∃ text,
        carousel.toText .json = .ok text ∧ Automaton.ofText .json reordered text = .ok b ∧
          b.toText .json = .ok text := by
  have single : carousel.Single := .of_nodes (by decide)
    (by simp [carousel, Graph.size, show (∅ : ArcSet).arcs = [] from rfl])
  have registered : carousel.Registered := fun n _ =>
    Automaton.exists_entry_of_nodes (by simp [carousel, HandlerTable.entry?]) n
  have tags : carousel.TagsIn reordered := fun n _ => Graph.forall_nodeD
    (fun n => ∀ h ∈ n.handlers, ∀ entry, carousel.handlers.entry? h = some entry →
      entry.1 ∈ reordered.tags)
    (fun _ member => (List.not_mem_nil member).elim)
    (by simp [carousel, reordered, HandlerTable.entry?, HandlerTable.tags]) n
  obtain ⟨s, b, saved, loaded, again, handlers, alike, byText⟩ :=
    Automaton.save_load single registered tags
  have inverts := single.json_inverts registered (by decide) saved
  exact ⟨single, registered, tags, s, b, saved, loaded, again, handlers, alike, inverts,
    byText .json inverts⟩

end LongestMatch
