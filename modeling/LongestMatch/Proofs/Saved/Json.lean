import LongestMatch.Proofs.Json.RoundTrip
import LongestMatch.Saved.Json

namespace LongestMatch

open Json

theorem mapM_map_eq_some {α β : Type} {f : β → Option α} {g : α → β} {xs : List α}
    (each : ∀ x ∈ xs, f (g x) = some x) : (xs.map g).mapM f = some xs := by
  induction xs with
  | nil => rfl
  | cons x xs ih =>
      rw [List.map_cons, List.mapM_cons, each x List.mem_cons_self,
        ih fun x member => each x (List.mem_cons_of_mem _ member)]
      rfl

theorem forall₂_map_map {α β γ : Type} {relation : β → γ → Prop} {f : α → β} {g : α → γ} {xs : List α}
    (each : ∀ x ∈ xs, relation (f x) (g x)) : List.Forall₂ relation (xs.map f) (xs.map g) := by
  rw [List.forall₂_map_left_iff, List.forall₂_map_right_iff, List.forall₂_same]
  exact each

namespace SavedEdge

structure Fits (e : SavedEdge) : Prop where
  first : e.first < UInt32.size
  last : e.last < UInt32.size
  target : e.target < UInt64.size

def json (e : SavedEdge) : Json :=
  .object [(some "start", .natural e.first), (some "end", .natural e.last),
    (some "target", .natural e.target)]

theorem writes (e : SavedEdge) : Writes e.write e.json :=
  writes_object (.cons ⟨rfl, writes_natural _⟩ (.cons ⟨rfl, writes_natural _⟩
    (.cons ⟨rfl, writes_natural _⟩ .nil)))

theorem ofJson?_json {e : SavedEdge} (fits : e.Fits) : ofJson? e.json = some e := by
  have fields : e.json.record? ["start", "end", "target"] =
      some [.natural e.first, .natural e.last, .natural e.target] := by
    rfl
  rw [ofJson?, fields]
  simp only [Option.bind_eq_bind, Option.bind_some, below?, if_pos fits.first, if_pos fits.last,
    if_pos fits.target]
  rfl

end SavedEdge

namespace SavedNode

def json (n : SavedNode) : Json :=
  .object [(some "edges", .array (n.edges.map SavedEdge.json)),
    (some "handlers", .array (n.handlers.map fun tag => .string (some tag)))]

theorem writes (n : SavedNode) : Writes n.write n.json :=
  writes_object (.cons ⟨rfl, writes_array (forall₂_map_map fun e _ => e.writes)⟩
    (.cons ⟨rfl, writes_array (forall₂_map_map fun tag _ => writes_string tag)⟩ .nil))

theorem ofJson?_json {n : SavedNode} (fits : ∀ e ∈ n.edges, e.Fits) : ofJson? n.json = some n := by
  have fields : n.json.record? ["edges", "handlers"] =
      some [.array (n.edges.map SavedEdge.json),
        .array (n.handlers.map fun tag => .string (some tag))] := by
    rfl
  rw [ofJson?, fields]
  simp only [Option.bind_eq_bind, Option.bind_some, array?,
    mapM_map_eq_some fun e member => SavedEdge.ofJson?_json (fits e member),
    mapM_map_eq_some fun tag _ => (rfl : Json.string? (.string (some tag)) = some tag)]
  rfl

end SavedNode

namespace Saved

def json (s : Saved) : Json := .object [(some "nodes", .array (s.nodes.map SavedNode.json))]

theorem writes (s : Saved) :
    Writes (writeObject [("nodes", writeArray (s.nodes.map SavedNode.write))]) s.json :=
  writes_object (.cons ⟨rfl, writes_array (forall₂_map_map fun n _ => n.writes)⟩ .nil)

theorem ofJson?_json {s : Saved} (fits : ∀ n ∈ s.nodes, ∀ e ∈ n.edges, e.Fits) :
    ofJson? s.json = some s := by
  have fields : s.json.record? ["nodes"] = some [.array (s.nodes.map SavedNode.json)] := by
    rfl
  rw [ofJson?, fields]
  simp only [Option.bind_eq_bind, Option.bind_some, array?,
    mapM_map_eq_some fun n member => SavedNode.ofJson?_json (fits n member)]
  rfl

theorem read_write {s : Saved} (fits : ∀ n ∈ s.nodes, ∀ e ∈ n.edges, e.Fits) :
    read s.write = .ok s := by
  rw [read, write, String.toList_ofList, parse?_of_writes s.writes, Option.bind_some,
    ofJson?_json fits]

end Saved

end LongestMatch
