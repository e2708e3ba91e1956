import LongestMatch.Proofs.Determinize.Walks

/-!
# The limit on the number of states

The limit only decides whether the construction goes on. It is asked for before each new state, so a
construction with a limit does what it does without one up to the state that would be one too many
(`determinize_limit`).
-/

namespace LongestMatch.Graph

variable {α β : Type} {limit begun : Nat} {count : α → Nat} {count' : β → Nat}

/-- A computation that ends without a limit, with no fewer states than it begins with, ends in the
same way with a limit that allows for all these states, and meets any other limit. -/
structure Limited (limit begun : Nat) (count : α → Nat) (free limited : Except Failure α) : Prop where
  more : ∀ a, free = .ok a → begun ≤ count a
  within : ∀ a, free = .ok a → count a ≤ limit → limited = .ok a
  beyond : ∀ a, free = .ok a → begun ≤ limit → limit < count a →
    limited = .error (.error (.tooManyStates limit))

theorem limited_same (limit begun : Nat) (result : Except Failure α) :
    Limited limit begun (fun _ => begun) result result where
  more _ _ := Nat.le_refl _
  within _ ends _ := ends
  beyond _ _ few many := absurd few (Nat.not_le.2 many)

theorem limited_ok (limit : Nat) (count : α → Nat) (a : α) :
    Limited limit (count a) count (.ok a) (.ok a) where
  more b ends := by
    cases ends
    exact Nat.le_refl _
  within b ends _ := ends
  beyond b ends few many := by
    cases ends
    exact absurd few (Nat.not_le.2 many)

theorem Limited.bind {first first' : Except Failure α} {next next' : α → Except Failure β}
    (limited : Limited limit begun count first first')
    (rest : ∀ a, Limited limit (count a) count' (next a) (next' a)) :
    Limited limit begun count' (first >>= next) (first' >>= next') where
  more b ends := by
    obtain ⟨a, here, there⟩ := bind_ok_cases ends
    exact Nat.le_trans (limited.more a here) ((rest a).more b there)
  within b ends few := by
    obtain ⟨a, here, there⟩ := bind_ok_cases ends
    rw [limited.within a here (Nat.le_trans ((rest a).more b there) few)]
    exact (rest a).within b there few
  beyond b ends few many := by
    obtain ⟨a, here, there⟩ := bind_ok_cases ends
    -- The limit is met before the first part ends, or that part ends as it does without a limit.
    rcases Nat.lt_or_ge limit (count a) with early | late
    · rw [limited.beyond a here few early]
      rfl
    · rw [limited.within a here late]
      exact (rest a).beyond b there late many

namespace Subsets

variable {g : Graph}

theorem limited_resolve (g : Graph) (limit : Nat) (set : List NodeId) (s : Subsets) :
    Limited limit s.states.size (fun result => result.2.states.size)
      (s.resolve g none set) (s.resolve g (some limit) set) := by
  rw [resolve, resolve]
  cases s.memo.find? (signature set, 0) with
  | some entry => exact limited_ok limit (fun result => result.2.states.size) (entry.2, s)
  | none =>
      simp only [Option.filter_none]
      by_cases full : limit ≤ s.states.size
      · rw [Option.filter_some, if_pos (decide_eq_true full)]
        constructor
        · intro result ends
          cases ends
          simp
        · intro result ends within
          cases ends
          simp only [size_push] at within
          exact absurd full (Nat.not_le.2 within)
        · intro result ends few many
          rfl
      · rw [Option.filter_some, if_neg (mt of_decide_eq_true full)]
        constructor
        · intro result ends
          cases ends
          simp
        · intro result ends within
          exact ends
        · intro result ends few many
          cases ends
          simp only [size_push] at many
          exact absurd (Nat.le_of_lt_succ many) full

theorem limited_link (g : Graph) (limit : Nat) (state : NodeId) (s : Subsets) (edges : List Edge) :
    Limited limit s.states.size (fun s' => s'.states.size)
      (s.link g none state edges) (s.link g (some limit) state edges) := by
  induction edges generalizing s with
  | nil => exact limited_ok limit (fun s' => s'.states.size) s
  | cons e edges ih =>
      rw [link, link]
      apply (limited_same limit s.states.size (g.closure e.targets)).bind
      intro set
      apply (limited_resolve g limit set s).bind
      rintro ⟨target, s'⟩
      have rest := ih { s' with states := s'.states.modify state (·.addEdge (e.retarget [target])) }
      rwa [size_modify] at rest

theorem limited_expand (g : Graph) (limit : Nat) (state : NodeId) (set : List NodeId) (s : Subsets) :
    Limited limit s.states.size (fun s' => s'.states.size)
      (s.expand g none state set) (s.expand g (some limit) state set) := by
  have links := limited_link g limit state
    { s with states := s.states.modify state fun _ => (g.pour set (s.states.nodeD state)).withoutEdges }
    (g.pour set (s.states.nodeD state)).edges
  rwa [size_modify] at links

theorem limited_finish (g : Graph) (limit bound : Nat) (state : NodeId) (s : Subsets) :
    Limited limit s.states.size (fun s' => s'.states.size)
      (s.finish g none bound state) (s.finish g (some limit) bound state) := by
  induction bound generalizing s state with
  | zero =>
      rw [finish, finish]
      cases s.sets[state]? with
      | none => exact limited_ok limit (fun s' => s'.states.size) s
      | some set => constructor <;> intro s' ends <;> cases ends
  | succ bound ih =>
      rw [finish, finish]
      cases s.sets[state]? with
      | none => exact limited_ok limit (fun s' => s'.states.size) s
      | some set =>
          apply (limited_expand g limit state set s).bind
          intro s'
          exact ih (state + 1) s'

end Subsets

theorem limited_determinize (g : Graph) (start : NodeId) (limit : Nat) :
    Limited limit 0 (fun result => result.1.size)
      (g.determinize start none) (g.determinize start (some limit)) := by
  rw [determinize, determinize]
  apply (limited_same limit 0 (g.closure [start])).bind
  intro set
  apply (Subsets.limited_resolve g limit set {}).bind
  rintro ⟨first, s⟩
  apply (Subsets.limited_finish g limit _ first s).bind
  intro s'
  exact limited_ok limit (fun result => result.1.size) (s'.states, first)

variable {g : Graph} {p : NodeId}

theorem determinize_limit (inside : ∀ n < g.size, ∀ e ∈ (g.nodeD n).edges, ∀ q ∈ e.targets,
    g.HasNode q) (member : g.HasNode p) (limit : Nat) :
    ∃ states first, g.determinize p none = .ok (states, first) ∧
      (states.size ≤ limit → g.determinize p (some limit) = .ok (states, first)) ∧
        (limit < states.size →
          g.determinize p (some limit) = .error (.error (.tooManyStates limit))) := by
  rcases determinize_cases (region_of_edges inside) member none with
    ⟨_, unlimited, _⟩ | ⟨s, result, _⟩
  · cases unlimited
  have limited := limited_determinize g p limit
  exact ⟨s.states, 0, result, limited.within _ result, limited.beyond _ result (Nat.zero_le _)⟩

theorem determinize_limit_crossing :
    (∀ n < crossing.size, ∀ e ∈ (crossing.nodeD n).edges, ∀ q ∈ e.targets,
      crossing.HasNode q) ∧ crossing.HasNode 0 ∧
    ∃ states first, crossing.determinize 0 none = .ok (states, first) ∧ states.size = 2 ∧
      crossing.determinize 0 (some 2) = .ok (states, first) ∧
        crossing.determinize 0 (some 1) = .error (.error (.tooManyStates 1)) := by
  have inside : ∀ n < crossing.size, ∀ e ∈ (crossing.nodeD n).edges, ∀ q ∈ e.targets,
      crossing.HasNode q := by decide
  have start : crossing.HasNode 0 := by decide
  have count : (crossing.determinize 0 none).toOption.map (·.1.size) = some 2 := by decide +kernel
  obtain ⟨states, first, unlimited, enough, _⟩ := determinize_limit inside start 2
  obtain ⟨states', first', unlimited', _, exceeded⟩ := determinize_limit inside start 1
  cases unlimited.symm.trans unlimited'
  rw [unlimited] at count
  have size : states.size = 2 := Option.some_inj.1 count
  exact ⟨inside, start, states, first, unlimited, size, enough (by omega), exceeded (by omega)⟩

end LongestMatch.Graph
