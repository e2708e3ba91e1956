import LongestMatch.Proofs.Pattern.Parsing

namespace LongestMatch.Pattern

open Position Build

variable {dotMatchesAny : Bool} {b : Body}

def Body.Spelled (b : Body) (dotMatchesAny : Bool) (source : String) : Prop :=
  Spells dotMatchesAny source.toList b.signs

theorem Spells.length_le {text : List Char} {signs : List Sign}
    (spells : Spells dotMatchesAny text signs) : signs.length ≤ text.length := by
  induction spells with
  | nil => exact Nat.le_refl _
  | cons lexeme _ ih =>
      have := List.length_pos_of_ne_nil lexeme.ne_nil
      rw [List.length_cons, List.length_append]
      omega

theorem Body.exists_parsed (valid : Valid b.signs) (g : Graph) :
    ∃ f h, f.Owns h (Set.Ico g.size h.size) (b.language true) ∧ g.Grows (Set.Ico g.size g.size) h ∧
      ∀ {r : Reading}, r.dotMatchesAny = dotMatchesAny → Spells dotMatchesAny r.rest b.signs →
        r.graph = g → ∀ log bound, 7 * b.signs.length + 2 < bound → ∃ r' log',
          Parse.parse table Reading.client bound ⟨r, log⟩ =
            some (.accepted (.fragment f), ⟨r', log'⟩) ∧ r'.graph = h := by
  obtain ⟨f, h, ⟨moves, bound, goes⟩, owns, grown⟩ :=
    (b.isRead valid : b.IsRead dotMatchesAny) .whole [] [] .none [] (g := g) (fun _ => trivial) rfl rfl
  refine ⟨f, h, owns, grown, fun {r} option text graph log many enough => ?_⟩
  have start : At dotMatchesAny ⟨[(0, .none)], b.signs ++ [], g⟩ (.initial .none) r := by
    refine ⟨rfl, rfl, rfl, option, graph, ?_⟩
    rw [List.append_nil]
    exact text
  obtain ⟨m', r', log', stop, run⟩ := goes start log
  obtain ⟨spare, enough⟩ : ∃ spare, many = spare + 1 + moves := by
    refine ⟨many - 1 - moves, ?_⟩
    have : stackWeight (Place.whole.holding [] .none []) = 1 := rfl
    simp only [List.append_nil] at bound
    omega
  obtain ⟨r'', log'', accepted, graph'⟩ := stop.accepts log' spare
  refine ⟨r'', log'', ?_, graph'⟩
  rw [Parse.parse, enough]
  exact (run (spare + 1)).trans accepted

theorem yields_parse {source : String} (spelled : b.Spelled dotMatchesAny source) (g : Graph) :
    ∃ f h, f.Owns h (Set.Ico g.size h.size) (b.language true) ∧ g.Grows (Set.Ico g.size g.size) h ∧
      ∀ {r : Reading}, r.dotMatchesAny = dotMatchesAny → r.rest = source.toList → r.graph = g →
        ∀ log, ∃ r' log', Reading.parse ⟨r, log⟩ = .ok (.fragment f) ⟨r', log'⟩ ∧ r'.graph = h := by
  obtain ⟨f, h, owns, grown, parsed⟩ := Body.exists_parsed spelled.valid g
  refine ⟨f, h, owns, grown, fun {r} option text graph log => ?_⟩
  have few := spelled.length_le
  obtain ⟨r', log', parsed, graph'⟩ := parsed option (text ▸ spelled) graph log
    (Reading.moves r.rest.length) (by rw [text, Reading.moves]; omega)
  refine ⟨r', log', ?_, graph'⟩
  rw [Reading.parse, parsed]

theorem makes_compile {source : String} (spelled : b.Spelled dotMatchesAny source) (g : Graph) :
    (compile source dotMatchesAny).MakesFrom g g.size (b.language true) := by
  obtain ⟨f, h, owns, grown, parse⟩ := yields_parse spelled g
  have parsed : Yields (Recorded.via (fun graph =>
      ({ source, dotMatchesAny, rest := source.toList, graph }, Reading.graph)) Reading.parse) g
      (.fragment f) h := by
    intro log
    obtain ⟨r, log', parsed, graph⟩ := parse
      (r := { source, dotMatchesAny, rest := source.toList, graph := g }) rfl rfl rfl log
    refine ⟨log', ?_⟩
    simp only [Recorded.via, parsed, graph]
  refine ⟨f, h, (yields_current g).bind (parsed.bind ?_), owns, grown⟩
  exact (yields_current h).bind ((yields_record _ h).bind (yields_pure f h))

end LongestMatch.Pattern
