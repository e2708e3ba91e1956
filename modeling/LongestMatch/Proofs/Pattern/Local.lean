import Mathlib.Data.Multiset.Bind
import LongestMatch.Proofs.Fragment.Shifting
import LongestMatch.Proofs.Fragment.Tidy
import LongestMatch.Proofs.Parse.Held
import LongestMatch.Proofs.Parse.Lockstep
import LongestMatch.Proofs.Pattern.Rejection

namespace LongestMatch.Pattern

open Parse (Client)
open Build Fragment Recorded

def Value.renamed (image : NodeId → NodeId) : Value → Value
  | fragment f => fragment (f.renamed image)
  | value => value

def Value.fragments : Value → Multiset Fragment
  | fragment f => {f}
  | _ => 0

theorem value_of_readToken {dotMatchesAny : Bool} {offset : Nat} {text rest : List Char}
    {token : Token} (read : readToken dotMatchesAny offset text = .ok (token, rest)) :
    token.value = .none ∨ ∃ letter, token.value = .letter letter := by
  by_cases done : text = []
  · subst done
    cases read
    exact .inl rfl
  · obtain ⟨lexeme, _, spelled⟩ := exists_lexeme done read
    obtain ⟨symbol, value, text⟩ := token
    cases spelled with
    | mark => exact .inl rfl
    | dot => exact .inr ⟨_, rfl⟩
    | plain => exact .inr ⟨_, rfl⟩
    | escape => exact .inr ⟨_, rfl⟩
    | hex => exact .inr ⟨_, rfl⟩

variable {g : Graph}

theorem shifts_letter (letter : Letter) :
    Shifts g (fun f f' => f' = f.renamed g.behind) letter.fragment letter.fragment := by
  cases letter with
  | code n => exact shifts_literal n n
  | wildcard => exact shifts_any

theorem shifts_value {work work' : Build Fragment}
    (shifts : Shifts g (fun f f' => f' = f.renamed g.behind) work work') :
    Shifts g (fun (value : Value) value' => value' = value.renamed g.behind)
      (do return .fragment (← work)) (do return .fragment (← work')) := by
  refine shifts.bind ?_
  rintro f _ rfl
  exact .pure rfl

theorem shifts_combine (production : Nat) (values : List Value) :
    Shifts g (fun value value' => value' = value.renamed g.behind) (combine production values)
      (combine production (values.map (Value.renamed g.behind))) := by
  -- The productions come in their order, and last the values that no production takes.
  fun_cases combine production values
  · exact .pure rfl
  · exact .pure rfl
  · exact shifts_value (shifts_concatenate _ _)
  · exact shifts_value (shifts_union _ _)
  · exact shifts_value (shifts_plus _)
  · exact shifts_value (shifts_star _)
  · exact shifts_value (shifts_ofClass _)
  · exact shifts_value (shifts_ofNegatedClass _)
  · exact shifts_value (shifts_letter _)
  · exact .pure rfl
  · exact .pure rfl
  · exact .pure rfl
  · exact .pure rfl
  · rename_i first dash last reversed
    show Shifts g _ _ (if last.literal < first.literal then _ else _)
    rw [if_pos reversed]
    exact .fail _
  · rename_i first dash last ordered
    show Shifts g _ _ (if last.literal < first.literal then _ else _)
    rw [if_neg ordered]
    exact .pure rfl
  · exact .fault _

def Carries (h : Graph) (values : Multiset Value) : Prop :=
  h.Tidy ((values.bind Value.fragments).map Fragment.entry)
    ((values.bind Value.fragments).map Fragment.exit)

namespace Carries

variable {h : Graph} {values values' : Multiset Value}

theorem fewer (carries : Carries h values) (le : values' ≤ values) : Carries h values' := by
  obtain ⟨more, rfl⟩ := Multiset.le_iff_exists_add.1 le
  have fragments : values'.bind Value.fragments ≤ (values' + more).bind Value.fragments := by
    rw [Multiset.add_bind]
    exact Multiset.le_add_right _ _
  exact Graph.Tidy.fewer carries (Multiset.map_le_map fragments) (Multiset.map_le_map fragments)

theorem of_sublist {args args' : List Value} (carries : Carries h (args + values))
    (sublist : args'.Sublist args) : Carries h (args' + values) :=
  carries.fewer (add_le_add_left (Multiset.coe_le.2 sublist.subperm) _)

theorem add (carries : Carries h values) {value : Value} (none : value.fragments = 0) :
    Carries h ({value} + values) := by
  rw [Carries, Multiset.singleton_add, Multiset.cons_bind, none, zero_add]
  exact carries

end Carries

theorem bind_fragments_cons (value : Value) (args : List Value) :
    ((value :: args : List Value) : Multiset Value).bind Value.fragments =
      value.fragments + (args : Multiset Value).bind Value.fragments := by
  rw [← Multiset.cons_coe, Multiset.cons_bind]

theorem leaves_value {x : Logged Graph} {values : Multiset Value} {work : Build Fragment}
    (leaves : LeavesTidy work x ((values.bind Value.fragments).map Fragment.entry)
      ((values.bind Value.fragments).map Fragment.exit)) :
    Leaves (do return Value.fragment (← work)) x (fun value y => Carries y.state ({value} + values))
      StillPlain := by
  refine leaves.bind fun f y tidy => .pure ?_
  simpa [Carries, Value.fragments] using tidy

theorem leaves_letter {x : Logged Graph} {ins outs : Multiset NodeId} (tidy : x.state.Tidy ins outs)
    (letter : Letter) : LeavesTidy letter.fragment x ins outs := by
  cases letter with
  | code n => exact leavesTidy_literal tidy n n
  | wildcard => exact leavesTidy_any tidy

theorem leaves_combine {x : Logged Graph} {values : Multiset Value} (production : Nat)
    (args : List Value) (carries : Carries x.state (args + values)) :
    Leaves (combine production args) x (fun value y => Carries y.state ({value} + values))
      StillPlain := by
  have rest : Carries x.state values := carries.fewer (Multiset.le_add_left _ _)
  fun_cases combine production args
  · exact .pure carries
  · exact .pure carries
  · refine leaves_value (leavesTidy_concatenate ?_)
    simpa [Carries, bind_fragments_cons, Value.fragments] using carries
  · rename_i f bar other
    have operands : Carries x.state (([.fragment f, .fragment other] : List Value) + values) :=
      carries.of_sublist (by simp)
    refine leaves_value (leavesTidy_union ?_)
    simpa [Carries, bind_fragments_cons, Value.fragments] using operands
  · rename_i f sign
    have operand : Carries x.state (([.fragment f] : List Value) + values) :=
      carries.of_sublist (by simp)
    refine leaves_value (leavesTidy_plus ?_)
    simpa [Carries, bind_fragments_cons, Value.fragments] using operand
  · rename_i f sign
    have operand : Carries x.state (([.fragment f] : List Value) + values) :=
      carries.of_sublist (by simp)
    refine leaves_value (leavesTidy_star ?_)
    simpa [Carries, bind_fragments_cons, Value.fragments] using operand
  · exact leaves_value (leavesTidy_ofClass rest _)
  · exact leaves_value (leavesTidy_ofNegatedClass rest _)
  · exact leaves_value (leaves_letter rest _)
  · rename_i lparen value rparen
    have inner : Carries x.state (([value] : List Value) + values) := carries.of_sublist (by simp)
    exact .pure inner
  · exact .pure (rest.add rfl)
  · exact .pure (rest.add rfl)
  · exact .pure (rest.add rfl)
  · exact .of_error rfl rest.toPlain
  · exact .pure (rest.add rfl)
  · exact .of_error rfl trivial

def Reading.behind (g : Graph) (r : Reading) : Reading := { r with graph := g.followedBy r.graph }

theorem echoes_next : Echoes (Reading.behind g)
    (fun (token : Token) token' => token' = token.map (Value.renamed g.behind))
    Reading.next Reading.next := by
  refine Echoes.bind .current ?_
  rintro r _ rfl
  refine Echoes.bind (.change fun _ => ?_) fun _ _ _ => ?_
  · rfl
  dsimp only [Reading.behind]
  cases read : readToken r.dotMatchesAny r.offset r.rest with
  | error e => exact .fail e
  | ok result =>
      obtain ⟨⟨symbol, value, text⟩, rest⟩ := result
      refine Echoes.bind (.change fun _ => ?_) fun _ _ _ => .pure ?_
      · rfl
      · obtain rfl | ⟨letter, rfl⟩ : value = .none ∨ ∃ letter, value = .letter letter :=
          value_of_readToken read
        · rfl
        · rfl

theorem echoes_reduce (production : Nat) (values : List Value) : Echoes (Reading.behind g)
    (fun (value : Value) value' => value' = value.renamed g.behind)
    (Reading.reduce production values)
    (Reading.reduce production (values.map (Value.renamed g.behind))) := by
  refine Echoes.via ?_ ?_ (shifts_combine production values)
  · exact fun _ => rfl
  · exact fun _ _ => rfl

theorem mirrors_client (g : Graph) : Reading.client.Mirrors Reading.client (Value.renamed g.behind)
    (fun x y => y.state = x.state.behind g) Failure.IsFault where
  blank := rfl
  next := echoes_next
  reduce := echoes_reduce
  report _ _ _ states := states
  observe _ _ _ states := states

theorem echoes_parse : Echoes (Reading.behind g)
    (fun (value : Value) value' => value' = value.renamed g.behind) Reading.parse Reading.parse := by
  intro x y states
  have mirrored := (mirrors_client g).run (t := table) (Reading.moves x.state.rest.length)
    (.initial Reading.client.blank) states
  have rest : y.state.rest = x.state.rest := by
    rw [states]
    rfl
  have initial : (Parse.Machine.initial Reading.client.blank).map (Value.renamed g.behind) =
      (.initial Reading.client.blank : Parse.Machine Symbol Value) := rfl
  rw [initial] at mirrored
  rw [Reading.parse, Reading.parse, rest, Parse.parse, Parse.parse]
  generalize Parse.run table _ _ _ x = result, Parse.run table _ _ _ y = result' at mirrored
  cases mirrored with
  | unfinished => exact .excused trivial
  | @ended verdict _ _ states =>
      cases verdict with
      | accepted value => exact .ok rfl states
      | rejected diagnostics => exact .error states
      | aborted failure => exact .error states
      | broken => exact .error states
  | excused fault => exact .excused fault

theorem leaves_next {x : Logged Reading} {values : Multiset Value}
    (carries : Carries x.state.graph values) : Leaves Reading.next x
      (fun token y => Carries y.state.graph ({token.value} + values))
      (fun failure y => StillPlain failure ⟨y.state.graph, y.log⟩) := by
  cases read : readToken x.state.dotMatchesAny x.state.offset x.state.rest with
  | error e => exact .of_error (next_error read x.log) carries.toPlain
  | ok result =>
      obtain ⟨token, rest⟩ := result
      refine .of_ok (next_eq read x.log) (carries.add ?_)
      obtain none | ⟨letter, value⟩ := value_of_readToken read
      · rw [none]
        rfl
      · rw [value]
        rfl

theorem leaves_reduce {x : Logged Reading} {values : Multiset Value} (production : Nat)
    (args : List Value) (carries : Carries x.state.graph (args + values)) :
    Leaves (Reading.reduce production args) x
      (fun value y => Carries y.state.graph ({value} + values))
      (fun failure y => StillPlain failure ⟨y.state.graph, y.log⟩) :=
  .via (leaves_combine production args carries)

theorem keeps_client : Reading.client.Keeps (fun values x => Carries x.state.graph values)
    (fun failure x => StillPlain failure ⟨x.state.graph, x.log⟩) where
  fewer := Carries.fewer
  blank carries := carries.add rfl
  next := leaves_next
  reduce := leaves_reduce
  report _ carries := carries
  observe _ carries := carries

theorem leaves_parse {x : Logged Reading} (carries : Carries x.state.graph 0) :
    Leaves Reading.parse x (fun value y => Carries y.state.graph {value})
      (fun failure y => StillPlain failure ⟨y.state.graph, y.log⟩) := by
  cases run : Parse.parse table Reading.client (Reading.moves x.state.rest.length) x with
  | none =>
      refine .of_error (e := .fault .unbounded) (y := x) ?_ trivial
      rw [Reading.parse, run]
  | some outcome =>
      obtain ⟨verdict, y⟩ := outcome
      have kept := keeps_client.run carries run
      cases verdict with
      | accepted value => exact .of_ok (by rw [Reading.parse, run]) kept
      | rejected diagnostics =>
          refine .of_error (e := .error (.rejected diagnostics)) (y := y) ?_ kept.toPlain
          rw [Reading.parse, run]
      | aborted failure => exact .of_error (by rw [Reading.parse, run]) kept
      | broken =>
          refine .of_error (e := .fault .brokenTable) (y := y) ?_ trivial
          rw [Reading.parse, run]

theorem echoes_compile (source : String) (dotMatchesAny : Bool) :
    Shifts g (fun f f' => f' = f.renamed g.behind) (compile source dotMatchesAny)
      (compile source dotMatchesAny) := by
  refine Echoes.bind .current ?_
  rintro k _ rfl
  refine Echoes.bind (Echoes.via ?_ ?_ (echoes_parse (g := g))) ?_
  · exact fun _ => rfl
  · exact fun _ _ => rfl
  rintro value _ rfl
  cases value with
  | fragment f =>
      refine Echoes.bind .current fun _ _ _ => ?_
      exact (Echoes.record _ _).bind fun _ _ _ => .pure rfl
  | none => exact .fault _
  | letter => exact .fault _
  | range => exact .fault _
  | ranges => exact .fault _

theorem leaves_compile (source : String) (dotMatchesAny : Bool) {x : Logged Graph}
    (tidy : x.state.Tidy 0 0) : Leaves (compile source dotMatchesAny) x
      (fun f y => y.state.Tidy {f.entry} {f.exit}) StillPlain := by
  have looked : Leaves current x (fun _ y => y = x) StillPlain := .of_ok rfl rfl
  refine looked.bind ?_
  rintro before x rfl
  have parsed : Leaves (via (fun graph =>
      ({ source, dotMatchesAny, rest := source.toList, graph }, Reading.graph)) Reading.parse) x
      (fun value y => Carries y.state {value}) StillPlain := .via (leaves_parse tidy)
  refine parsed.bind fun value y carries => ?_
  cases value with
  | fragment f =>
      refine .of_ok rfl ?_
      simpa [Carries, Value.fragments] using carries
  | none => exact .of_error rfl trivial
  | letter => exact .of_error rfl trivial
  | range => exact .of_error rfl trivial
  | ranges => exact .of_error rfl trivial

theorem compile_cases (source : String) (dotMatchesAny : Bool) (x : Logged Graph) :
    (∃ f y, compile source dotMatchesAny x = .ok f y) ∨
      ∃ e y, compile source dotMatchesAny x = .error (.error e) y := by
  by_cases sound : ∃ tokens, Sound dotMatchesAny source.toList tokens
  · obtain ⟨tokens, sound⟩ := sound
    obtain ⟨b, spelled⟩ := sound.exists_body
    obtain ⟨f, h, makes, _⟩ := makes_compile spelled x.state
    obtain ⟨log, compiled⟩ := makes x.log
    exact .inl ⟨f, _, compiled⟩
  · obtain ⟨_, _, _, e, _, _, _, y, _, failed, _⟩ := exists_rejectedAt sound x
    exact .inr ⟨e, _, failed⟩

end LongestMatch.Pattern

namespace LongestMatch

namespace Graph

def Leads (h : Graph) (p q : NodeId) : Prop := ∃ e ∈ (h.nodeD p).edges, q ∈ e.targets

instance (h : Graph) (p q : NodeId) : Decidable (h.Leads p q) :=
  inferInstanceAs (Decidable (∃ e ∈ (h.nodeD p).edges, q ∈ e.targets))

variable {g k : Graph} {p q : NodeId}

theorem leads_iff : k.Leads p q ↔ ∃ label, q ∈ k.targets p label := by
  have targets : k.Leads p q ↔ q ∈ Fragment.Copying.allTargets (k.nodeD p) := by
    rw [Leads, Fragment.Copying.allTargets, Node.edges, Node.epsilonTargets]
    cases (k.nodeD p).epsilon <;> simp [Edge.targets]
  rw [targets, Fragment.Copying.mem_allTargets]
  rfl

theorem leads_followedBy_of_lt (old : g.HasNode p) :
    (g.followedBy k).Leads p q ↔ g.Leads p q := by
  rw [Leads, Leads, nodeD_followedBy_of_lt g k old]

theorem leads_followedBy : (g.followedBy k).Leads (g.behind p) q ↔
    ∃ n, k.Leads p n ∧ q = g.behind n := by
  simp only [leads_iff, targets_followedBy, List.mem_map]
  tauto

end Graph

namespace Pattern

open Graph

variable {g added : Graph}

theorem leads_added (plain : added.Plain) (p q : Nat) (new : g.size ≤ p)
    (leads : (g.followedBy added).Leads p q) : g.size ≤ q ∧ q < (g.followedBy added).size := by
  obtain ⟨n, rfl⟩ : ∃ n, p = g.behind n := Nat.exists_eq_add_of_le new
  obtain ⟨m, edge, rfl⟩ := leads_followedBy.1 leads
  obtain ⟨label, target⟩ := leads_iff.1 edge
  rw [size_followedBy]
  exact ⟨Nat.le_add_right _ _, Nat.add_lt_add_left (plain.inside n label m target) _⟩

theorem handlers_added (plain : added.Plain) (p : Nat) (new : g.size ≤ p) :
    ((g.followedBy added).nodeD p).handlers = [] := by
  obtain ⟨n, rfl⟩ : ∃ n, p = g.behind n := Nat.exists_eq_add_of_le new
  rw [nodeD_followedBy]
  exact plain.bare n

theorem leads_entry {ins outs : Multiset NodeId} (tidy : added.Tidy ins outs) {entry : NodeId}
    (member : entry ∈ ins) (p : Nat) (leads : (g.followedBy added).Leads p (g.behind entry)) :
    p < g.size ∧ g.Leads p (g.behind entry) := by
  rcases Nat.lt_or_ge p g.size with old | new
  · exact ⟨old, (leads_followedBy_of_lt old).1 leads⟩
  · obtain ⟨n, rfl⟩ : ∃ n, p = g.behind n := Nat.exists_eq_add_of_le new
    obtain ⟨m, edge, equal⟩ := leads_followedBy.1 leads
    obtain rfl := g.behind_injective equal
    obtain ⟨label, target⟩ := leads_iff.1 edge
    exact (tidy.unreached _ member n label target).elim

/-- To compile a pattern adds to any graph the nodes that it adds to the empty graph, behind the nodes
that are there, which stay as they are; the fragment is the same under these numbers, or the error is
the same. Edges of new nodes lead to new nodes, and new nodes have no handlers. No edge leads to the
entry, unless the graph has one that led to no node before, and none leads on from the exit. -/
theorem compile_local (source : String) (dotMatchesAny : Bool) (g : Graph) (log log' : Array Event) :
    ∃ added : Graph,
      ((∃ f final final', compile source dotMatchesAny ⟨∅, log⟩ = .ok f ⟨added, final⟩ ∧
          compile source dotMatchesAny ⟨g, log'⟩ =
            .ok (f.renamed g.behind) ⟨g.followedBy added, final'⟩ ∧
          f.entry < added.size ∧ f.exit < added.size ∧
          (∀ p : Nat, (g.followedBy added).Leads p (g.behind f.entry) →
            p < g.size ∧ g.Leads p (g.behind f.entry)) ∧
          ((∀ p q : Nat, g.Leads p q → q < g.size) →
            ∀ p, ¬ (g.followedBy added).Leads p (g.behind f.entry)) ∧
          ((g.followedBy added).nodeD (g.behind f.exit)).edges = []) ∨
        ∃ e final final', compile source dotMatchesAny ⟨∅, log⟩ = .error (.error e) ⟨added, final⟩ ∧
          compile source dotMatchesAny ⟨g, log'⟩ = .error (.error e) ⟨g.followedBy added, final'⟩) ∧
      (∀ p : Nat, p < g.size → (g.followedBy added).node? p = g.node? p) ∧
      (∀ p q : Nat, g.size ≤ p → (g.followedBy added).Leads p q →
        g.size ≤ q ∧ q < (g.followedBy added).size) ∧
      ∀ p : Nat, g.size ≤ p → ((g.followedBy added).nodeD p).handlers = [] := by
  have leaves := leaves_compile source dotMatchesAny (x := ⟨∅, log⟩) tidy_empty
  have alike := echoes_compile (g := g) source dotMatchesAny ⟨∅, log⟩ ⟨g, log'⟩
    g.followedBy_empty.symm
  -- The run behind `g` has to follow the one in the empty graph, which meets no fault.
  rcases compile_cases source dotMatchesAny ⟨∅, log⟩ with ⟨f, ⟨added, final⟩, compiled⟩ |
    ⟨e, ⟨added, final⟩, failed⟩
  · have tidy := leaves.done_of_ok compiled
    rw [compiled] at alike
    obtain ⟨_, ⟨_, final'⟩, behind, rfl, rfl⟩ := alike.exists_ok
    have entry := leads_entry (g := g) tidy (Multiset.mem_singleton_self f.entry)
    refine ⟨added, .inl ⟨f, final, final', compiled, behind,
        tidy.ins_lt _ (Multiset.mem_singleton_self _), tidy.outs_lt _ (Multiset.mem_singleton_self _),
        entry, fun whole p leads => ?_, ?_⟩,
      fun p => node?_followedBy_of_lt g added, leads_added tidy.toPlain, handlers_added tidy.toPlain⟩
    · exact Nat.not_lt.2 (Nat.le_add_right _ _) (whole p _ (entry p leads).2)
    · rw [nodeD_followedBy, tidy.blank _ (Multiset.mem_singleton_self _)]
      rfl
  · have plain : added.Plain := leaves.failed_of_error failed
    rw [failed] at alike
    obtain ⟨⟨_, final'⟩, behind, rfl⟩ := alike.exists_error (fun fault => fault)
    exact ⟨added, .inr ⟨e, final, final', failed, behind⟩,
      fun p => node?_followedBy_of_lt g added, leads_added plain, handlers_added plain⟩

theorem compile_local_behind_node : ∃ added f final final',
    compile "a+b" false ⟨∅, #[]⟩ = .ok f ⟨added, final⟩ ∧
      compile "a+b" false ⟨(∅ : Graph).push {}, #[]⟩ =
        .ok (f.renamed (1 + ·)) ⟨((∅ : Graph).push {}).followedBy added, final'⟩ ∧
      ∀ p, ¬ (((∅ : Graph).push {}).followedBy added).Leads p (1 + f.entry) := by
  obtain ⟨f', y, compiled⟩ := Build.exists_of_succeeds
    (by decide +kernel : Build.succeeds (compile "a+b" false ⟨∅, #[]⟩) = true)
  have whole : ∀ p q : Nat, ((∅ : Graph).push {}).Leads p q → q < ((∅ : Graph).push {}).size := by
    rintro p q ⟨e, member, _⟩
    rw [nodeD_push_empty, nodeD_of_size_le (Nat.zero_le p)] at member
    cases member
  obtain ⟨added, ⟨f, final, final', alone, behind, _, _, _, unreached, _⟩ |
      ⟨e, final, _, failed, _⟩, _⟩ := compile_local "a+b" false ((∅ : Graph).push {}) #[] #[]
  · exact ⟨added, f, final, final', alone, behind, unreached whole⟩
  · cases compiled.symm.trans failed

/-- The only node leads to the node that is added next. -/
def dangling : Graph := (∅ : Graph).push { epsilon := some [1] }

def entersFrom (p : NodeId) : EStateM.Result Failure (Logged Graph) Fragment → Bool
  | .ok f y => y.state.Leads p f.entry
  | .error _ _ => false

theorem exists_of_entersFrom {p : NodeId} {built : EStateM.Result Failure (Logged Graph) Fragment}
    (enters : entersFrom p built = true) : ∃ f y, built = .ok f y ∧ y.state.Leads p f.entry := by
  cases built with
  | error e y => cases enters
  | ok f y => exact ⟨f, y, rfl, of_decide_eq_true enters⟩

/-- The edge that led to no node leads to the entry of what is compiled behind it. -/
theorem compile_behind_dangling :
    ∃ f y, compile "a" true ⟨dangling, #[]⟩ = .ok f y ∧ y.state.Leads 0 f.entry :=
  exists_of_entersFrom (by decide +kernel)

end Pattern

end LongestMatch
