import LongestMatch.Proofs.Build

/-!
# Languages of combined fragments

Fragments that live in disjoint closed sets of nodes combine to fragments that read what the
combination says. A fragment under construction owns an interval of nodes; a combination of two
neighbours owns both intervals and the nodes that it adds behind them.
-/

namespace LongestMatch

open Graph Build
open scoped Computability

namespace Fragment

structure RunsIn (f : Fragment) (g : Graph) (nodes : Set NodeId) : Prop where
  closed : g.Closed nodes
  entry : f.entry ∈ nodes

structure LivesIn (f : Fragment) (g : Graph) (nodes : Set NodeId) : Prop where
  closed : g.Closed nodes
  entry : f.entry ∈ nodes
  exit : f.exit ∈ nodes

variable {g h : Graph} {f next other : Fragment} {A B : Set NodeId}
  {joins : NodeId → NodeId → Prop} {word : List Nat} {r : NodeId}

theorem LivesIn.runs (lives : f.LivesIn g A) : f.RunsIn g A := ⟨lives.closed, lives.entry⟩

theorem LivesIn.insert_exit (lives : f.LivesIn g A) : insert f.exit A = A :=
  Set.insert_eq_of_mem lives.exit

theorem RunsIn.reads_join (runs : f.RunsIn g A) (joined : g.JoinsBy joins h)
    (only : ∀ x ∈ A, ∀ y, joins x y → x = f.exit) :
    h.Reads f.entry word r ↔ g.Reads f.entry word r ∨
      ∃ u ∈ f.language g, ∃ v y, word = u ++ v ∧ joins f.exit y ∧ h.Reads y v r := by
  rw [Graph.reads_join joined]
  constructor
  · rintro (path | ⟨u, v, x, y, equal, path, join, rest⟩)
    · exact .inl path
    · obtain rfl := only x (path.mem runs.closed runs.entry) y join
      exact .inr ⟨u, path, v, y, equal, join, rest⟩
  · rintro (path | ⟨u, path, v, y, equal, join, rest⟩)
    · exact .inl path
    · exact .inr ⟨u, v, f.exit, y, equal, path, join, rest⟩

theorem RunsIn.reads_eq (runs : f.RunsIn g A) (joined : g.JoinsBy joins h)
    (none : ∀ x ∈ A, ∀ y, ¬ joins x y) : h.Reads f.entry word r ↔ g.Reads f.entry word r :=
  reads_congr runs.closed
    (fun x member label y => by simp [joined x label y, none x member y]) runs.entry

theorem not_reads_of_notMem (runs : f.RunsIn g A) (outside : r ∉ A) :
    ¬ g.Reads f.entry word r := fun path => outside (path.mem runs.closed runs.entry)

/-! The exits need not be among the nodes that can be reached: a fragment without a path to its exit
reads nothing, and neither does what it is concatenated with. -/

theorem language_concatenate (first : f.RunsIn g A) (second : next.RunsIn g B)
    (apart : Disjoint (insert f.exit A) (insert next.exit B))
    (joined : g.JoinsBy (fun x y => x = f.exit ∧ y = next.entry) h) :
    language h ⟨f.entry, next.exit⟩ = f.language g * next.language g := by
  ext word
  have behind : ∀ v, h.Reads next.entry v next.exit ↔ v ∈ next.language g := fun v =>
    second.reads_eq joined fun x member y join => Set.disjoint_left.1 apart
      (.inl join.1) (.inr member)
  rw [mem_language, first.reads_join joined fun x _ y join => join.1, Language.mem_mul]
  constructor
  · rintro (path | ⟨u, left, v, y, rfl, ⟨_, rfl⟩, rest⟩)
    · exact (Set.disjoint_left.1 apart (.inr (path.mem first.closed first.entry)) (.inl rfl)).elim
    · exact ⟨u, left, v, (behind v).1 rest, rfl⟩
  · rintro ⟨u, left, v, right, rfl⟩
    exact .inr ⟨u, left, v, next.entry, rfl, ⟨rfl, rfl⟩, (behind v).2 right⟩

theorem RunsIn.reads_stop (runs : f.RunsIn g A) (joined : g.JoinsBy joins h) {stop : NodeId}
    (outside : stop ∉ A) (dead : ∀ label, h.targets stop label = [])
    (only : ∀ x ∈ A, ∀ y, joins x y ↔ x = f.exit ∧ y = stop) :
    h.Reads f.entry word stop ↔ word ∈ f.language g := by
  have reached : ∀ {u}, u ∈ f.language g → f.exit ∈ A := fun path =>
    path.mem runs.closed runs.entry
  rw [runs.reads_join joined fun x member y join => ((only x member y).1 join).1,
    or_iff_right (not_reads_of_notMem runs outside)]
  constructor
  · rintro ⟨u, path, v, y, rfl, join, rest⟩
    obtain ⟨_, rfl⟩ := (only _ (reached path) y).1 join
    obtain ⟨rfl, _⟩ := (Graph.reads_of_targets_eq_nil dead).1 rest
    rwa [List.append_nil]
  · intro path
    exact ⟨word, path, [], stop, (List.append_nil word).symm,
      (only _ (reached path) stop).2 ⟨rfl, rfl⟩, .stay stop⟩

theorem language_union (first : f.RunsIn g A) (second : other.RunsIn g B)
    (apart : Disjoint (insert f.exit A) (insert other.exit B)) {start stop : NodeId}
    (start_free : ∀ label, g.targets start label = [])
    (stop_free : ∀ label, g.targets stop label = []) (distinct : start ≠ stop)
    (startA : start ∉ insert f.exit A) (startB : start ∉ insert other.exit B)
    (stopA : stop ∉ insert f.exit A) (stopB : stop ∉ insert other.exit B)
    (joined : g.JoinsBy (fun x y => x = start ∧ (y = f.entry ∨ y = other.entry) ∨
      (x = f.exit ∨ x = other.exit) ∧ y = stop) h) :
    language h ⟨start, stop⟩ = f.language g + other.language g := by
  ext word
  have dead : ∀ label, h.targets stop label = [] := by
    refine fun label => List.eq_nil_iff_forall_not_mem.2 fun y => ?_
    rw [joined stop label y, stop_free]
    rintro (nothing | ⟨_, ⟨rfl, _⟩ | ⟨rfl | rfl, _⟩⟩)
    · cases nothing
    · exact distinct rfl
    · exact stopA (.inl rfl)
    · exact stopB (.inl rfl)
  have left : h.Reads f.entry word stop ↔ word ∈ f.language g := by
    apply first.reads_stop joined (fun member => stopA (.inr member)) dead
    intro x member y
    have notStart : x ≠ start := fun equal => startA (equal ▸ .inr member)
    have notOther : x ≠ other.exit := fun equal =>
      Set.disjoint_left.1 apart (.inr member) (.inl equal)
    simp [notStart, notOther]
  have right : h.Reads other.entry word stop ↔ word ∈ other.language g := by
    apply second.reads_stop joined (fun member => stopB (.inr member)) dead
    intro x member y
    have notStart : x ≠ start := fun equal => startB (equal ▸ .inr member)
    have notFirst : x ≠ f.exit := fun equal =>
      Set.disjoint_left.1 apart (.inl equal) (.inr member)
    simp [notStart, notFirst]
  rw [mem_language, Language.mem_add, Graph.reads_join joined, ← left, ← right]
  constructor
  · rintro (path | ⟨u, v, x, y, rfl, path, join, rest⟩)
    · exact (distinct ((Graph.reads_of_targets_eq_nil start_free).1 path).2.symm).elim
    · obtain ⟨rfl, rfl⟩ := (Graph.reads_of_targets_eq_nil start_free).1 path
      rcases join with ⟨_, rfl | rfl⟩ | ⟨equal | equal, _⟩
      · exact .inl rest
      · exact .inr rest
      · exact (startA (.inl equal)).elim
      · exact (startB (.inl equal)).elim
  · rintro (path | path)
    · exact .inr ⟨[], word, start, f.entry, rfl, .stay _, .inl ⟨rfl, .inl rfl⟩, path⟩
    · exact .inr ⟨[], word, start, other.entry, rfl, .stay _, .inl ⟨rfl, .inr rfl⟩, path⟩

theorem language_star (runs : f.RunsIn g A) {start stop : NodeId}
    (start_free : ∀ label, g.targets start label = [])
    (stop_free : ∀ label, g.targets stop label = []) (distinct : start ≠ stop)
    (startA : start ∉ A) (stopA : stop ∉ A)
    (joined : g.JoinsBy (fun x y => (x = start ∨ x = f.exit) ∧ (y = f.entry ∨ y = stop)) h) :
    language h ⟨start, stop⟩ = (f.language g)∗ := by
  -- The invariant along a path to `stop`: what is left to read in the fragment, then whole words.
  have unroll : ∀ {p v q}, h.Reads p v q → q = stop →
      (p ∈ A → ∃ u w, v = u ++ w ∧ g.Reads p u f.exit ∧ w ∈ (f.language g)∗) ∧
        (p = start ∨ p = stop → v ∈ (f.language g)∗) := by
    intro p v q path
    induction path with
    | stay p =>
        rintro rfl
        exact ⟨fun member => (stopA member).elim, fun _ => Language.nil_mem_kstar _⟩
    | @step p q r label word next path ih =>
        intro target
        obtain ⟨inside, outside⟩ := ih target
        rcases (joined _ _ _).1 next with old | ⟨rfl, from_, to_⟩
        · refine ⟨fun member => ?_, ?_⟩
          · obtain ⟨u, w, rfl, path, words⟩ := inside (runs.closed _ member _ _ old)
            exact ⟨label.toList ++ u, w, (List.append_assoc ..).symm, .step old path, words⟩
          · rintro (rfl | rfl)
            · rw [start_free] at old; cases old
            · rw [stop_free] at old; cases old
        · have words : word ∈ (f.language g)∗ := by
            rcases to_ with rfl | rfl
            · obtain ⟨u, w, rfl, path, words⟩ := inside runs.entry
              rw [← Language.one_add_self_mul_kstar_eq_kstar]
              exact .inr (Language.append_mem_mul path words)
            · exact outside (.inr rfl)
          refine ⟨fun member => ?_, fun _ => words⟩
          rcases from_ with rfl | rfl
          · exact (startA member).elim
          · exact ⟨[], word, rfl, .stay _, words⟩
  ext word
  rw [mem_language]
  constructor
  · exact fun path => (unroll path rfl).2 (.inl rfl)
  · rw [Language.mem_kstar]
    rintro ⟨words, rfl, all⟩
    have again : ∀ p, p = start ∨ p = f.exit → h.Reads p words.flatten stop := by
      induction words with
      | nil => exact fun p from_ => joined.silent ⟨from_, .inr rfl⟩ (.stay _)
      | cons u words ih =>
          intro p from_
          have rest := ih (fun y member => all y (List.mem_cons_of_mem _ member)) f.exit (.inr rfl)
          exact joined.silent ⟨from_, .inl rfl⟩ ((joined.mono (all u List.mem_cons_self)).trans rest)
    exact again start (.inl rfl)

theorem yields_join (extended : g.Extends A joins h) {p : Nat} (inside : p < h.size)
    (owned : p ∈ A ∨ g.size ≤ p) (next : List NodeId) :
    ∃ h', Yields (addEdge p (.epsilon next)) h () h' ∧ h'.size = h.size ∧
      g.Extends A (fun x y => joins x y ∨ x = p ∧ y ∈ next) h' :=
  ⟨_, yields_addEdge inside _, size_modify .., extended.addEdge inside owned next⟩

theorem yields_fresh_extends (g : Graph) (A : Set NodeId) :
    ∃ h, Yields fresh g ⟨g.size, g.size + 1⟩ h ∧ h.size = g.size + 2 ∧
      g.Extends A (fun _ _ => False) h :=
  ⟨_, yields_fresh g, by simp, (Extends.refl g A).push.push⟩

theorem extends_concatenate (exit : g.HasNode f.exit) (next : Fragment) :
    ∃ h, Yields (f.concatenate next) g ⟨f.entry, next.exit⟩ h ∧
      g.Extends {f.exit} (fun x y => x = f.exit ∧ y = next.entry) h := by
  obtain ⟨h, yields, _, extended⟩ := yields_join (Extends.refl g {f.exit}) exit (.inl rfl)
    [next.entry]
  exact ⟨h, yields.bind (yields_pure _ _), extended.congr fun x y => by simp⟩

theorem extends_union (exit : g.HasNode f.exit)
    (exit' : g.HasNode other.exit) :
    ∃ h, Yields (f.union other) g ⟨g.size, g.size + 1⟩ h ∧ h.size = g.size + 2 ∧
      g.Extends {f.exit, other.exit} (fun x y =>
        x = g.size ∧ (y = f.entry ∨ y = other.entry) ∨
          (x = f.exit ∨ x = other.exit) ∧ y = g.size + 1) h := by
  obtain ⟨h₁, fresh, size₁, extended⟩ := yields_fresh_extends g {f.exit, other.exit}
  obtain ⟨h₂, start, size₂, extended⟩ := yields_join extended (p := g.size) (by omega)
    (.inr (Nat.le_refl _)) [f.entry, other.entry]
  obtain ⟨h₃, left, size₃, extended⟩ := yields_join extended (p := f.exit) (by omega)
    (.inl (.inl rfl)) [g.size + 1]
  obtain ⟨h, right, size, extended⟩ := yields_join extended (p := other.exit) (by omega)
    (.inl (.inr rfl)) [g.size + 1]
  refine ⟨h, fresh.bind (start.bind (left.bind (right.bind (yields_pure _ _)))), by omega,
    extended.congr fun x y => ?_⟩
  simp only [List.mem_cons, List.not_mem_nil, or_false, false_or]
  tauto

theorem extends_star (exit : g.HasNode f.exit) :
    ∃ h, Yields f.star g ⟨g.size, g.size + 1⟩ h ∧ h.size = g.size + 2 ∧
      g.Extends {f.exit} (fun x y =>
        (x = g.size ∨ x = f.exit) ∧ (y = f.entry ∨ y = g.size + 1)) h := by
  obtain ⟨h₁, fresh, size₁, extended⟩ := yields_fresh_extends g {f.exit}
  obtain ⟨h₂, start, size₂, extended⟩ := yields_join extended (p := g.size) (by omega)
    (.inr (Nat.le_refl _)) [f.entry, g.size + 1]
  obtain ⟨h, again, size, extended⟩ := yields_join extended (p := f.exit) (by omega)
    (.inl rfl) [f.entry, g.size + 1]
  refine ⟨h, fresh.bind (start.bind (again.bind (yields_pure _ _))), by omega,
    extended.congr fun x y => ?_⟩
  simp only [List.mem_cons, List.not_mem_nil, or_false, false_or]
  tauto

theorem notMem_of_size_le {nodes : Set NodeId} (inside : ∀ n ∈ nodes, n < g.size) {n : Nat}
    (beyond : g.size ≤ n) : n ∉ nodes := fun member => Nat.not_lt.2 beyond (inside n member)

theorem language_union_new (first : f.RunsIn g A) (second : other.RunsIn g B)
    (apart : Disjoint (insert f.exit A) (insert other.exit B))
    (inside : ∀ n ∈ insert f.exit A, n < g.size) (inside' : ∀ n ∈ insert other.exit B, n < g.size)
    (joined : g.JoinsBy (fun x y => x = g.size ∧ (y = f.entry ∨ y = other.entry) ∨
      (x = f.exit ∨ x = other.exit) ∧ y = g.size + 1) h) :
    language h ⟨g.size, g.size + 1⟩ = f.language g + other.language g :=
  language_union first second apart (targets_of_size_le (Nat.le_refl _))
    (targets_of_size_le (Nat.le_succ _)) (Nat.ne_of_lt (Nat.lt_succ_self _))
    (notMem_of_size_le inside (Nat.le_refl _)) (notMem_of_size_le inside' (Nat.le_refl _))
    (notMem_of_size_le inside (Nat.le_succ _)) (notMem_of_size_le inside' (Nat.le_succ _)) joined

theorem language_star_new (runs : f.RunsIn g A) (inside : ∀ n ∈ A, n < g.size)
    (joined : g.JoinsBy (fun x y =>
      (x = g.size ∨ x = f.exit) ∧ (y = f.entry ∨ y = g.size + 1)) h) :
    language h ⟨g.size, g.size + 1⟩ = (f.language g)∗ :=
  language_star runs (targets_of_size_le (Nat.le_refl _)) (targets_of_size_le (Nat.le_succ _))
    (Nat.ne_of_lt (Nat.lt_succ_self _)) (notMem_of_size_le inside (Nat.le_refl _))
    (notMem_of_size_le inside (Nat.le_succ _)) joined

end Fragment

end LongestMatch
