import LongestMatch.Parse.Table

/-!
# Parsing by a table

The parser keeps a stack of states with the value of the symbol that led to each. It asks its client
for tokens and for the values of reductions, and tells it every move and every diagnostic.

On an unexpected token the parser unwinds its stack to a state that can go on with the error symbol,
and throws tokens away until one fits. This only serves to find further errors: input for which
there was a diagnostic is not accepted.
-/

namespace LongestMatch.Parse

structure Token (S V : Type) where
  symbol : S
  value : V
  text : String := ""

structure Client (S V ε σ : Type) where
  blank : V
  /-- The next token; after the last one the end of the input, time and again. -/
  next : EStateM ε σ (Token S V)
  reduce : Nat → List V → EStateM ε σ V
  report : Diagnostic → σ → σ
  observe : Move → σ → σ

/-- The parser between two moves. The stack has its top first; `reduced` is the head of the last
reduction, to be shifted before the token that waits in `lookahead`. -/
structure Machine (S V : Type) where
  stack : List (Nat × V)
  reduced : Option (Token S V) := none
  lookahead : Option (Token S V) := none
  recovering : Bool := false
  diagnostics : List Diagnostic := []

inductive Verdict (V ε : Type) where
  | accepted (value : V)
  | rejected (diagnostics : List Diagnostic)
  | aborted (failure : ε)
  | broken

inductive Progress (S V ε : Type) where
  | running (machine : Machine S V)
  | ended (verdict : Verdict V ε)

namespace Machine

variable {S V ε σ : Type} [Alphabet S]

def initial (blank : V) : Machine S V := { stack := [(0, blank)] }

def rejection (m : Machine S V) : Verdict V ε :=
  .rejected (if m.diagnostics.isEmpty then [.unfinished] else m.diagnostics)

def select (c : Client S V ε σ) (m : Machine S V) : EStateM ε σ (Token S V × Machine S V) :=
  match m.reduced, m.lookahead with
  | some symbol, _ => return (symbol, { m with reduced := none })
  | none, some symbol => return (symbol, { m with lookahead := none })
  | none, none => return (← c.next, m)

/-- A symbol other than the error symbol on which there is an action ends the recovery. -/
def settle (m : Machine S V) (symbol : S) : Machine S V :=
  if symbol = Alphabet.error then m else { m with recovering := false }

def diagnose (c : Client S V ε σ) (m : Machine S V) (d : Diagnostic) :
    EStateM ε σ (Machine S V) := do
  modify (c.report d)
  return { m with diagnostics := m.diagnostics ++ [d] }

def reduce (t : Table S) (c : Client S V ε σ) (m : Machine S V) (state production : Nat)
    (symbol : Token S V) : EStateM ε σ (Progress S V ε) := do
  match t.heads[production]?, t.lengths[production]? with
  | some head, some length =>
    match m.stack.drop length with
    | [] =>
      let m ← m.diagnose c (.overdrawn production length m.stack.length)
      return .ended m.rejection
    | stack =>
      modify (c.observe (.reduce state production (Alphabet.name head)))
      let value ← c.reduce production ((m.stack.take length).map Prod.snd).reverse
      if production = 0 then
        return .ended (if m.diagnostics.isEmpty then .accepted value else m.rejection)
      else
        return .running { m with
          stack
          reduced := some ⟨head, value, ""⟩
          lookahead := some symbol }
  | _, _ => return .ended .broken

def recover (t : Table S) (c : Client S V ε σ) (m : Machine S V) (state : Nat)
    (symbol : Token S V) : EStateM ε σ (Progress S V ε) := do
  if m.recovering then
    if symbol.symbol = Alphabet.endMark then
      return .ended m.rejection
    else
      modify (c.observe (.discard state (Alphabet.name symbol.symbol)))
      return .running m
  else
    let m ← m.diagnose c (.unexpected (Alphabet.name symbol.symbol) symbol.text)
    if symbol.symbol = Alphabet.endMark then
      return .ended m.rejection
    else
      match m.stack.dropWhile fun entry => (t.action? entry.1 Alphabet.error).isNone with
      | [] => return .ended m.rejection
      | stack =>
        return .running { m with
          stack
          reduced := some ⟨Alphabet.error, c.blank, ""⟩
          lookahead := some symbol
          recovering := true }

def step (t : Table S) (c : Client S V ε σ) (m : Machine S V) :
    EStateM ε σ (Progress S V ε) := do
  match m.stack with
  | [] => return .ended m.rejection
  | (state, _) :: _ =>
    let (symbol, m) ← m.select c
    match t.action? state symbol.symbol with
    | some (.shift target) =>
      modify (c.observe (.shift state (Alphabet.name symbol.symbol) target))
      let m := m.settle symbol.symbol
      return .running { m with stack := (target, symbol.value) :: m.stack }
    | some (.reduce production) => (m.settle symbol.symbol).reduce t c state production symbol
    | none => m.recover t c state symbol

end Machine

variable {S V ε σ : Type} [Alphabet S]

/-- Runs the parser for at most `bound` moves; `none` if it has not ended by then. A failure of the
client ends the run. -/
def run (t : Table S) (c : Client S V ε σ) (bound : Nat) (m : Machine S V) (s : σ) :
    Option (Verdict V ε × σ) :=
  match bound with
  | 0 => none
  | bound + 1 =>
    match m.step t c s with
    | .ok (.running m) s => run t c bound m s
    | .ok (.ended verdict) s => some (verdict, s)
    | .error failure s => some (.aborted failure, s)

def parse (t : Table S) (c : Client S V ε σ) (bound : Nat) (s : σ) : Option (Verdict V ε × σ) :=
  run t c bound (.initial c.blank) s

end LongestMatch.Parse
