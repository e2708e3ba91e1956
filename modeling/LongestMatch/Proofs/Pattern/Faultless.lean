import Mathlib.Data.List.Forall2
import Mathlib.Data.String.Basic
import LongestMatch.Proofs.Parse.Recovery
import LongestMatch.Proofs.Pattern.Local

namespace LongestMatch.Pattern

open Parse (Alphabet Client Ledger Machine Moves Reached Verdict)

def Value.Fits : Symbol → Value → Prop
  | .char, v => ∃ l : Letter, v = .letter l
  | .range, v => ∃ first last, v = .range first last
  | .ranges, v => ∃ bounds, v = .ranges bounds
  | .unit, v => ∃ f, v = .fragment f
  | .exp, v => ∃ f, v = .fragment f
  | _, _ => True

theorem Shows.fits {symbol : Symbol} {signs : List Sign} {v : Value}
    (shown : Shows symbol signs v) : v.Fits symbol := by
  cases symbol with
  | char =>
      obtain ⟨l, _, same⟩ := shown
      exact ⟨l, same⟩
  | range =>
      obtain ⟨span, _, same⟩ := shown
      exact ⟨_, _, same⟩
  | ranges =>
      obtain ⟨_, _, bounds, _, same⟩ := shown
      exact ⟨bounds, same⟩
  | unit =>
      obtain ⟨_, f, _, same⟩ := shown
      exact ⟨f, same⟩
  | exp =>
      obtain ⟨_, f, _, same⟩ := shown
      exact ⟨f, same⟩
  | _ => trivial

theorem Holds.fits {symbols : List Symbol} {entries : List (Nat × Value)} {signs : List Sign}
    (holds : Holds symbols entries signs) :
    List.Forall₂ Value.Fits symbols (entries.map Prod.snd) := by
  induction holds with
  | nil => exact .nil
  | cons shown _ ih => exact .cons shown.fits ih

theorem exists_production {s p : Nat} {symbol : Symbol}
    (action : table.action? s symbol = some (.reduce p)) :
    ∃ head length, productions[p]? = some (head, length) := by
  obtain ⟨row, member, entry⟩ := mem_rows action
  have all : ∀ row ∈ rows.toList.zipIdx, ∀ entry ∈ row.1,
      entry.2.InRange rows.size productions.length := by decide +kernel
  exact ⟨_, _, List.getElem?_eq_getElem (all _ member _ entry)⟩

theorem table_of_production {p length : Nat} {head : Symbol}
    (known : productions[p]? = some (head, length)) :
    table.heads[p]? = some head ∧ table.lengths[p]? = some length := by
  simp [table, known]

theorem Path.exists_production {s p : Nat} {symbol : Symbol} {v : Value} {stack : List (Nat × Value)}
    {signs : List Sign} (path : Path ((s, v) :: stack) signs)
    (action : table.action? s symbol = some (.reduce p)) :
    ∃ head popped entry below, productions[p]? = some (head, popped.length) ∧
      (s, v) :: stack = popped ++ entry :: below ∧
      List.Forall₂ Value.Fits (rightHand p) (popped.map Prod.snd).reverse := by
  obtain ⟨head, length, known⟩ := Pattern.exists_production action
  obtain ⟨popped, entry, below, _, _, shape, rfl, _, holds, _⟩ := path.pop_of_reduce action known
  refine ⟨head, popped, entry, below, known, shape, ?_⟩
  rw [← List.forall₂_reverse_iff, List.reverse_reverse]
  exact holds.fits

def Reading.Cuts (source : String) (r : Reading) : Prop :=
  ∃ before lexeme, source.toList = before ++ lexeme ++ r.rest ∧
    r.tokenOffset = (String.ofList before).utf8ByteSize ∧
    r.offset = (String.ofList (before ++ lexeme)).utf8ByteSize

theorem isValid_of_append {source : String} {front back : List Char}
    (parts : source.toList = front ++ back) :
    String.Pos.Raw.IsValid source ⟨(String.ofList front).utf8ByteSize⟩ := by
  refine String.Pos.Raw.isValid_iff_exists_append.2 ⟨.ofList front, .ofList back, ?_, rfl⟩
  rw [← String.ofList_append, ← parts, String.ofList_toList]

namespace Reading.Cuts

variable {source : String} {x y : Logged Reading} {token : Token}

theorem next (cuts : x.state.Cuts source) (read : Reading.next x = .ok token y) :
    y.state.Cuts source ∧ token.text =
      String.Pos.Raw.extract source ⟨x.state.offset⟩ ⟨y.state.offset⟩ := by
  obtain ⟨r, log⟩ := x
  obtain ⟨before, lexeme, parts, _, offset⟩ := cuts
  cases got : readToken r.dotMatchesAny r.offset r.rest with
  | error e => cases (next_error got log).symm.trans read
  | ok result =>
      obtain ⟨token', rest⟩ := result
      cases (next_eq got log).symm.trans read
      have equal := append_of_readToken got
      obtain ⟨lexeme', text⟩ : ∃ lexeme', token.text = .ofList lexeme' :=
        ⟨_, String.ofList_toList.symm⟩
      rw [text, String.toList_ofList] at equal
      have parts' : source.toList = before ++ lexeme ++ lexeme' ++ rest := by
        rw [parts, equal, List.append_assoc _ lexeme']
      have behind : r.offset + token.text.utf8ByteSize =
          (String.ofList (before ++ lexeme ++ lexeme')).utf8ByteSize := by
        rw [String.ofList_append, String.utf8ByteSize_append, ← offset, text]
      refine ⟨⟨before ++ lexeme, lexeme', parts', offset, behind⟩, ?_⟩
      rw [← String.ofList_toList (s := source), parts', text, offset, String.utf8ByteSize_ofList,
        String.utf8ByteSize_ofList, String.extract_of_valid]

theorem tokenOffset (cuts : x.state.Cuts source) :
    String.Pos.Raw.IsValid source ⟨x.state.tokenOffset⟩ := by
  obtain ⟨before, lexeme, parts, offset, _⟩ := cuts
  rw [List.append_assoc] at parts
  rw [offset]
  exact isValid_of_append parts

theorem ahead (cuts : x.state.Cuts source) (n : Nat) : String.Pos.Raw.IsValid source
    ⟨x.state.offset + (String.ofList (x.state.rest.take n)).utf8ByteSize⟩ := by
  obtain ⟨before, lexeme, parts, _, offset⟩ := cuts
  rw [← List.take_append_drop n x.state.rest, ← List.append_assoc] at parts
  rw [offset, ← String.utf8ByteSize_append, ← String.ofList_append]
  exact isValid_of_append parts

end Reading.Cuts

theorem keeps_cuts (source : String) :
    Reading.client.Keeps (fun _ x => x.state.Cuts source) fun _ _ => True where
  fewer cuts _ := cuts
  blank cuts := cuts
  next := by
    intro _ x cuts
    cases read : Reading.next x with
    | ok token y => exact .of_ok read (cuts.next read).1
    | error failure y => exact .of_error read trivial
  reduce := by
    intro _ x p args cuts
    cases reduced : Reading.reduce p args x with
    | ok value y =>
        obtain ⟨_, _, _, rfl⟩ := exists_of_reduce reduced
        exact .of_ok reduced cuts
    | error failure y => exact .of_error reduced trivial
  report _ cuts := cuts
  observe _ cuts := cuts

def Reading.start (source : String) (dotMatchesAny : Bool) (x : Logged Graph) : Logged Reading :=
  ⟨{ source, dotMatchesAny, rest := source.toList, graph := x.state }, x.log⟩

inductive Ends : Verdict Value Failure → EStateM.Result Failure (Logged Graph) Fragment → Prop
  | accepted (f : Fragment) (y : Logged Graph) : Ends (.accepted (.fragment f)) (.ok f y)
  | rejected (diagnostics : List Parse.Diagnostic) (y : Logged Graph) :
      Ends (.rejected diagnostics) (.error (.error (.rejected diagnostics)) y)
  | aborted (e : Error) (y : Logged Graph) : Ends (.aborted (.error e)) (.error (.error e) y)

section

variable {source : String} {dotMatchesAny : Bool} {x : Logged Graph}

theorem compile_ne_fault (source : String) (dotMatchesAny : Bool) (x y : Logged Graph) (f : Fault) :
    compile source dotMatchesAny x ≠ .error (.fault f) y := by
  intro failed
  obtain ⟨_, _, made⟩ | ⟨_, _, rejected⟩ := compile_cases source dotMatchesAny x
  · cases made.symm.trans failed
  · cases rejected.symm.trans failed

theorem compile_of_parse {value : Value} {y : Logged Reading}
    (parsed : Reading.parse (Reading.start source dotMatchesAny x) = .ok value y) :
    compile source dotMatchesAny x = match value with
      | .fragment f => .ok f ⟨y.state.graph,
          y.log.push (.compiled source (y.state.graph.size - x.state.size))⟩
      | _ => .error (.fault (.misfitValues 0)) ⟨y.state.graph, y.log⟩ := by
  refine (Parse.bind_of_ok rfl).trans
    ((Parse.bind_of_ok (a := value) (y := ⟨y.state.graph, y.log⟩) ?_).trans ?_)
  · rw [Reading.start] at parsed
    simp only [Recorded.via, parsed]
  · cases value <;> rfl

theorem compile_fails {failure : Failure} {y : Logged Reading}
    (parsed : Reading.parse (Reading.start source dotMatchesAny x) = .error failure y) :
    compile source dotMatchesAny x = .error failure ⟨y.state.graph, y.log⟩ := compile_error parsed

theorem exists_verdict (source : String) (dotMatchesAny : Bool) (x : Logged Graph) :
    ∃ verdict y, Parse.parse table Reading.client (Reading.moves source.toList.length)
        (Reading.start source dotMatchesAny x) = some (verdict, y) ∧
      Ends verdict (compile source dotMatchesAny x) := by
  have fine := compile_ne_fault source dotMatchesAny x
  -- An end that would be a fault of the parser would be one of compiling.
  cases parsed : Parse.parse table Reading.client
      (Reading.moves (Reading.start source dotMatchesAny x).state.rest.length)
      (Reading.start source dotMatchesAny x) with
  | none => exact (fine _ _ (compile_fails (by rw [Reading.parse, parsed]))).elim
  | some ended =>
      obtain ⟨verdict, y⟩ := ended
      refine ⟨verdict, y, parsed, ?_⟩
      cases verdict with
      | accepted value =>
          have compiled := compile_of_parse (by rw [Reading.parse, parsed])
          cases value with
          | fragment f => exact compiled ▸ .accepted f _
          | none => exact (fine _ _ compiled).elim
          | letter => exact (fine _ _ compiled).elim
          | range => exact (fine _ _ compiled).elim
          | ranges => exact (fine _ _ compiled).elim
      | rejected diagnostics =>
          exact compile_fails (by rw [Reading.parse, parsed]) ▸ .rejected diagnostics _
      | aborted failure =>
          have failed := compile_fails (by rw [Reading.parse, parsed])
          cases failure with
          | error e => exact failed ▸ .aborted e _
          | fault f => exact (fine _ _ failed).elim
      | broken => exact (fine _ _ (compile_fails (by rw [Reading.parse, parsed]))).elim

end

/-- At this point of a run the program makes no mistake: a reduction finds a value of the right kind
for each symbol of its production, above the bottom of the stack, and combines them without a fault;
its head can be shifted on what is left; and the pattern is cut between characters only, at the token
read last, wherever the next one is read to, and around it. -/
structure Faultless (source : String) (m : Machine Symbol Value) (y : Logged Reading) : Prop where
  reduces : ∀ {s p v stack token m₁ z}, m.stack = (s, v) :: stack →
    m.select Reading.client y = .ok (token, m₁) z → table.action? s token.symbol = some (.reduce p) →
      ∃ head popped entry below, productions[p]? = some (head, popped.length) ∧
        m.stack = popped ++ entry :: below ∧
        List.Forall₂ Value.Fits (rightHand p) (popped.map Prod.snd).reverse ∧
        ∀ fault w, Reading.reduce p (popped.map Prod.snd).reverse
          (Reading.client.observe (.reduce s p (Alphabet.name head)) z) ≠ .error (.fault fault) w
  goes : ∀ {head}, m.reduced = some head → ∃ s v stack s', m.stack = (s, v) :: stack ∧
    table.action? s head.symbol = some (.shift s')
  tokenOffset : String.Pos.Raw.IsValid source ⟨y.state.tokenOffset⟩
  ahead : ∀ n, String.Pos.Raw.IsValid source
    ⟨y.state.offset + (String.ofList (y.state.rest.take n)).utf8ByteSize⟩
  text : ∀ {token z}, Reading.next y = .ok token z →
    token.text = String.Pos.Raw.extract source ⟨y.state.offset⟩ ⟨z.state.offset⟩

variable {source : String} {dotMatchesAny : Bool} {x : Logged Graph} {m m' : Machine Symbol Value}
  {l : Ledger Symbol Value} {y : Logged Reading} {token : Token} {s : Nat}

theorem table_continues : table.Continues := by decide +kernel

theorem diagnostics_of_moves (moves : Moves table Reading.client s token m m')
    (fine : m.diagnostics = []) : m'.diagnostics = [] := by
  cases moves with
  | shift => simpa using fine
  | reduce => simpa using fine
  | discard => exact fine
  -- There is no state to unwind to.
  | unwind _ _ _ unwound => exact ((Machine.action_of_unwound unwound).2 (action_error _)).elim

section

variable (reached : Reached table Reading.client (Reading.start source dotMatchesAny x) m l y)
include reached

theorem follows_of_reached : m.diagnostics = [] ∧ Follows dotMatchesAny source.toList m y.state := by
  induction reached with
  | start => exact ⟨rfl, rfl, rfl, [], [], [], [], rfl, .start _, .nil, rfl, rfl⟩
  | step _ top select moved ih =>
      have fine := (Machine.diagnostics_select select).trans ih.1
      have fine' := diagnostics_of_moves (.of_select top select moved) fine
      exact ⟨fine', (ih.2.step moved).1 _ rfl fine'⟩

theorem cuts_of_reached : y.state.Cuts source := by
  induction reached with
  | start => exact ⟨[], [], rfl, rfl, rfl⟩
  | step _ _ _ moved ih => exact ((keeps_cuts source).step ih).done_of_ok moved

theorem goes_of_reached {head : Token} (pending : m.reduced = some head) :
    ∃ s v stack s', m.stack = (s, v) :: stack ∧
      table.action? s head.symbol = some (.shift s') := by
  obtain ⟨s, v, stack, top, some⟩ := (reached.coherent table_continues).pending head pending
  obtain ⟨_, _, _, _, _, _, _, shown, _⟩ := (follows_of_reached reached).2.spells
  rw [pending] at shown
  cases action : table.action? s head.symbol with
  | none => exact (some action).elim
  | some a =>
      cases a with
      | shift s' => exact ⟨s, v, stack, s', top, action⟩
      | reduce p => exact ((reduce_fits action).2.1 shown.1).elim

theorem step_ne_fault (fault : Fault) (w : Logged Reading) :
    m.step table Reading.client y ≠ .error (.fault fault) w := by
  intro failed
  obtain ⟨verdict, z, parsed, ends⟩ := exists_verdict source dotMatchesAny x
  cases reached.eq_of_run (Parse.run_error failed 0) parsed
  cases ends

theorem faultless_of_reached : Faultless source m y where
  reduces := by
    intro s p v stack token m₁ z top select action
    obtain ⟨same, takes⟩ := (follows_of_reached reached).2.select select
    obtain ⟨_, signs, _, _, _, path, _⟩ := takes.spells
    rw [same, top] at path
    obtain ⟨head, popped, entry, below, known, shape, fits⟩ := path.exists_production action
    refine ⟨head, popped, entry, below, known, top.trans shape, fits, fun fault w failed => ?_⟩
    obtain ⟨heads, lengths⟩ := table_of_production known
    have settled : (m₁.settle token.symbol).stack = popped ++ entry :: below := by
      rw [Machine.stack_settle, same, top, shape]
    refine step_ne_fault reached fault w ((Machine.step_reduce top select action).trans ?_)
    exact Machine.reduce_error popped settled heads lengths failed
  goes := goes_of_reached reached
  tokenOffset := (cuts_of_reached reached).tokenOffset
  ahead := (cuts_of_reached reached).ahead
  text read := ((cuts_of_reached reached).next read).2

end

/-- To compile a pattern ends in a fragment or in an error of the pattern, as the parser's verdict
says, which it comes to within the moves that it is given; and no point of the run is at fault. -/
theorem compile_faultless (source : String) (dotMatchesAny : Bool) (x : Logged Graph) :
    (∃ verdict y, Parse.parse table Reading.client (Reading.moves source.toList.length)
        (Reading.start source dotMatchesAny x) = some (verdict, y) ∧
      Ends verdict (compile source dotMatchesAny x)) ∧
    ∀ m l y, Reached table Reading.client (Reading.start source dotMatchesAny x) m l y →
      Faultless source m y :=
  ⟨exists_verdict source dotMatchesAny x, fun _ _ _ reached => faultless_of_reached reached⟩

end LongestMatch.Pattern
