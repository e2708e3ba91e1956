import Mathlib.Data.List.Forall2
import LongestMatch.Lexer
import LongestMatch.Proofs.HandlerTable
import LongestMatch.Proofs.Lexer.Branches
import LongestMatch.Proofs.Pattern.Language

namespace LongestMatch

open Build
open Parse (bind_eq_ok)

def Pattern.Matches (source : String) (dotMatchesAny : Bool) (text : List Char) : Prop :=
  ∃ a x, automaton source dotMatchesAny 0 { state := ∅ } = .ok a x ∧
    a.matches? (String.ofList text) = .ok true

theorem Pattern.Body.matches_iff {b : Body} {source : String} {dotMatchesAny : Bool}
    (spelled : b.Spelled dotMatchesAny source) (text : List Char) :
    Matches source dotMatchesAny text ↔ codes text ∈ b.language true := by
  obtain ⟨a, g, yields, single, accepts⟩ := yields_automaton spelled ∅ 0
  obtain ⟨log, made⟩ := yields #[]
  obtain ⟨yes, matched, yes_iff⟩ := single.matchesFrom_eq single.start text
  rw [← accepts, ← yes_iff]
  constructor
  · rintro ⟨a', x, made', matched'⟩
    rw [made] at made'
    cases made'
    rw [Automaton.matches?, String.toList_ofList, matched] at matched'
    exact Except.ok.inj matched'
  · rintro rfl
    refine ⟨a, _, made, ?_⟩
    rw [Automaton.matches?, String.toList_ofList, matched]

namespace Lexer

variable {R σ : Type} {l : Lexer R} {g : Graph} {start : NodeId} {dotMatchesAny : Bool}
  {table table' : HandlerTable R} {rules : List (Rule R)} {branches : List Branch}

def Reads (l : Lexer R) (id : Nat) (text : List Char) : Prop :=
  ∃ rule, l.rules[id]? = some rule ∧ Pattern.Matches rule.pattern l.dotMatchesAny text

def Spells (dotMatchesAny : Bool) (rule : Rule R) (branch : Branch) : Prop :=
  ∃ b : Pattern.Body, b.Spelled dotMatchesAny rule.pattern ∧ branch.language = b.language true

theorem Spells.matches_iff {rule : Rule R} {branch : Branch} (spells : Spells dotMatchesAny rule branch)
    (text : List Char) :
    Pattern.Matches rule.pattern dotMatchesAny text ↔ codes text ∈ branch.language := by
  obtain ⟨b, spelled, language⟩ := spells
  rw [language]
  exact b.matches_iff spelled text

theorem addRules_branches {x y : Logged Graph} (all : x.state.Branches start branches)
    (size : table.size = branches.length)
    (added : addRules dotMatchesAny start table rules x = .ok table' y) :
    ∃ more, y.state.Branches start (branches ++ more) ∧
      table'.entries.toList = table.entries.toList ++ rules.map (fun rule => (rule.tag, rule.handler)) ∧
        List.Forall₂ (Spells dotMatchesAny) rules more := by
  induction rules generalizing table branches x with
  | nil =>
      cases added
      exact ⟨[], by simpa using all, by simp, .nil⟩
  | cons rule rules ih =>
      obtain ⟨⟨id, grown⟩, x₁, inserted, rest⟩ := bind_eq_ok.1 added
      obtain ⟨f, x₂, compiled, rest⟩ := bind_eq_ok.1 rest
      obtain ⟨_, x₃, accepted, rest⟩ := bind_eq_ok.1 rest
      obtain ⟨_, x₄, joined, rest⟩ := bind_eq_ok.1 rest
      obtain ⟨inserted, rfl⟩ := ofExcept_eq_ok.1 inserted
      obtain ⟨b, spelled⟩ := Pattern.exists_spelled compiled
      obtain ⟨f', h, yields, owns, changed⟩ := Pattern.makes_compile spelled x₁.state
      obtain ⟨rfl, rfl⟩ := yields.eq_of_ok compiled
      obtain ⟨id_eq, entries⟩ : id = table.size ∧
          grown.entries.toList = table.entries.toList ++ [(rule.tag, rule.handler)] := by
        cases result : table.insert rule.tag rule.handler with
        | error e =>
            rw [result] at inserted
            cases inserted
        | ok pair =>
            rw [result] at inserted
            cases inserted
            exact HandlerTable.insert_eq_ok result
      obtain ⟨h₁, h₂, accept, join, all⟩ := all.add owns changed
      rw [id_eq, size] at accepted
      obtain ⟨_, rfl⟩ := accept.eq_of_ok accepted
      obtain ⟨_, rfl⟩ := join.eq_of_ok joined
      obtain ⟨more, all, entries', spells⟩ := ih all (by
        rw [HandlerTable.size, ← Array.length_toList, entries, List.length_append,
          Array.length_toList, List.length_append, ← size]
        rfl) rest
      rw [List.append_assoc] at all
      refine ⟨_, all, ?_, .cons ⟨b, spelled, rfl⟩ spells⟩
      rw [entries', entries, List.append_assoc]
      rfl

structure Assembled (l : Lexer R) (a : Automaton R) : Prop where
  single : a.Single
  entries : a.handlers.entries.toList = l.rules.map fun rule => (rule.tag, rule.handler)
  ascending : ∀ n, Ascending (a.graph.nodeD n).handlers
  stuck : ∀ text, a.graph.walk a.start (codes text) = none → ∀ id, ¬ l.Reads id text
  handlers : ∀ text n, a.graph.walk a.start (codes text) = some n →
    ∀ id : Nat, id ∈ (a.graph.nodeD n).handlers ↔ l.Reads id text

theorem reads_iff {more : List Branch} (spells : List.Forall₂ (Spells l.dotMatchesAny) l.rules more)
    (id : Nat) (text : List Char) :
    (∃ b, more[id]? = some b ∧ codes text ∈ b.language) ↔ l.Reads id text := by
  constructor
  · rintro ⟨b, found, member⟩
    obtain ⟨inside, rfl⟩ := List.getElem?_eq_some_iff.1 found
    have inside' : id < l.rules.length := spells.length_eq ▸ inside
    refine ⟨l.rules[id], List.getElem?_eq_getElem inside', ?_⟩
    exact ((List.forall₂_iff_get.1 spells).2 id inside' inside).matches_iff text |>.2 member
  · rintro ⟨rule, found, matched⟩
    obtain ⟨inside, rfl⟩ := List.getElem?_eq_some_iff.1 found
    have inside' : id < more.length := spells.length_eq ▸ inside
    refine ⟨more[id], List.getElem?_eq_getElem inside', ?_⟩
    exact ((List.forall₂_iff_get.1 spells).2 id inside inside').matches_iff text |>.1 matched

theorem assembled_of_branches {states : Graph} {first : NodeId} (all : g.Branches start branches)
    (spells : List.Forall₂ (Spells l.dotMatchesAny) l.rules branches)
    (entries : table.entries.toList = l.rules.map fun rule => (rule.tag, rule.handler))
    (determined : g.Determined start states first) :
    l.Assembled { graph := states, start := first, handlers := table } := by
  have reads : ∀ text id, l.Reads id text ↔
      ∃ q ∈ g.reach {start} (codes text), id ∈ (g.nodeD q).handlers := fun text id => by
    rw [← reads_iff spells, all.handles_iff]
  refine ⟨⟨determined.inside, determined.single⟩, entries, determined.ascending, ?_, ?_⟩
  · intro text stuck id read
    obtain ⟨q, reached, _⟩ := (reads text id).1 read
    rw [determined.stuck _ stuck] at reached
    cases reached
  · intro text n walk id
    rw [reads, determined.handlers _ n walk]

theorem buildGraph_branches {log : Array Event} {y : Logged Graph}
    (built : l.buildGraph { state := ∅, log } = .ok (start, table) y) :
    ∃ branches, y.state.Branches start branches ∧
      table.entries.toList = l.rules.map (fun rule => (rule.tag, rule.handler)) ∧
        List.Forall₂ (Spells l.dotMatchesAny) l.rules branches := by
  obtain ⟨_, x, alloc, rest⟩ := bind_eq_ok.1 built
  cases alloc
  obtain ⟨_, x', added, rest⟩ := bind_eq_ok.1 rest
  cases rest
  exact addRules_branches (x := ⟨_, _⟩) Graph.Branches.single_node rfl added

theorem build_cases {x y : Logged σ} {a : Automaton R} (built : l.build x = .ok a y) :
    ∃ start table z states first, l.buildGraph { state := ∅, log := x.log } = .ok (start, table) z ∧
      z.state.determinize start l.maxStates = .ok (states, first) ∧
        a = { graph := states, start := first, handlers := table } := by
  simp only [build, Recorded.via] at built
  split at built
  · rename_i a' t work
    cases built
    obtain ⟨⟨start, table⟩, z, graph, rest⟩ := bind_eq_ok.1 work
    obtain ⟨g, _, current, rest⟩ := bind_eq_ok.1 rest
    cases current
    obtain ⟨⟨states, first⟩, _, determinized, rest⟩ := bind_eq_ok.1 rest
    obtain ⟨_, _, _, rest⟩ := bind_eq_ok.1 rest
    cases rest
    obtain ⟨_, _, result, rest⟩ := bind_eq_ok.1 determinized
    obtain ⟨result, _⟩ := ofExcept_eq_ok.1 result
    cases rest
    exact ⟨start, table, z, _, _, graph, result, rfl⟩
  · cases built

theorem build_assembled {x y : Logged σ} {a : Automaton R} (built : l.build x = .ok a y) :
    l.Assembled a := by
  obtain ⟨start, table, z, states, first, graph, result, rfl⟩ := build_cases built
  obtain ⟨branches, all, entries, spells⟩ := buildGraph_branches graph
  rcases Graph.determinize_determined all.region (.inl rfl) l.maxStates with
    ⟨_, _, meets⟩ | ⟨states', first', determinized, determined⟩
  · rw [result] at meets
    cases meets
  · rw [result] at determinized
    cases determinized
    exact assembled_of_branches all spells entries determined

end Lexer

end LongestMatch
