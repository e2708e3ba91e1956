import Mathlib.Data.List.Induction
import Mathlib.Data.List.Nodup
import LongestMatch.HandlerTable

namespace LongestMatch.HandlerTable

variable {R : Type} {table table' : HandlerTable R} {tag : String} {handler : String → R}
  {h : HandlerId}

theorem find?_eq_none : table.find? tag = none ↔ tag ∉ table.tags := by
  rw [find?, Array.findIdx?_eq_none_iff, tags, List.mem_map]
  simp only [decide_eq_false_iff_not, Array.mem_toList_iff, not_exists, not_and]

theorem exists_entry? (found : table.find? tag = some h) :
    ∃ handler, table.entry? h = some (tag, handler) := by
  obtain ⟨inside, same, _⟩ := Array.findIdx?_eq_some_iff_getElem.1 found
  exact ⟨table.entries[h].2, by
    rw [HandlerTable.entry?, Array.getElem?_eq_getElem inside, ← of_decide_eq_true same]⟩

theorem getElem?_tags (known : table.entry? h = some (tag, handler)) : table.tags[h]? = some tag := by
  have there : table.entries[h]? = some (tag, handler) := known
  rw [tags, List.getElem?_map, Array.getElem?_toList, there]
  rfl

theorem mem_tags {entry : String × (String → R)} (known : table.entry? h = some entry) :
    entry.1 ∈ table.tags := List.mem_of_getElem? (getElem?_tags known)

theorem find?_of_entry? (distinct : table.tags.Nodup) (known : table.entry? h = some (tag, handler)) :
    table.find? tag = some h := by
  cases found : table.find? tag with
  | none => exact absurd (mem_tags known) (find?_eq_none.1 found)
  | some h' =>
      obtain ⟨_, known'⟩ := exists_entry? found
      obtain ⟨inside, here⟩ := List.getElem?_eq_some_iff.1 (getElem?_tags known)
      obtain ⟨inside', here'⟩ := List.getElem?_eq_some_iff.1 (getElem?_tags known')
      rw [distinct.getElem_inj_iff.1 (here'.trans here.symm)]

theorem insert_eq_ok (inserted : table.insert tag handler = .ok (h, table')) :
    h = table.size ∧ table'.entries.toList = table.entries.toList ++ [(tag, handler)] := by
  rw [insert] at inserted
  split at inserted
  · cases inserted
  · cases inserted
    exact ⟨rfl, Array.toList_push ..⟩

theorem notMem_of_insert (inserted : table.insert tag handler = .ok (h, table')) :
    tag ∉ table.tags := by
  rw [insert] at inserted
  split at inserted
  · cases inserted
  · exact find?_eq_none.1 ‹_›

theorem insert_of_notMem (new : tag ∉ table.tags) :
    table.insert tag handler = .ok (table.size, ⟨table.entries.push (tag, handler)⟩) := by
  rw [insert, find?_eq_none.2 new]

inductive Filled : HandlerTable R → Prop
  | empty : Filled {}
  | insert {table table' : HandlerTable R} {tag : String} {handler : String → R} {h : HandlerId} :
      Filled table → table.insert tag handler = .ok (h, table') → Filled table'

theorem filled_iff : table.Filled ↔ table.tags.Nodup := by
  constructor
  · intro filled
    induction filled with
    | empty => exact List.nodup_nil
    | insert _ inserted ih =>
        have more := ih.concat (notMem_of_insert inserted)
        rw [List.concat_eq_append] at more
        rwa [tags, (insert_eq_ok inserted).2, List.map_append]
  · intro distinct
    obtain ⟨⟨entries⟩⟩ := table
    induction entries using List.reverseRecOn with
    | nil => exact .empty
    | append_singleton entries entry ih =>
        rw [tags, List.map_append, List.map_singleton, ← List.concat_eq_append] at distinct
        obtain ⟨new, distinct⟩ := (List.nodup_concat ..).1 distinct
        have filled : Filled ⟨Array.push ⟨entries⟩ entry⟩ :=
          .insert (ih distinct) (insert_of_notMem new)
        rwa [List.push_toArray] at filled

end LongestMatch.HandlerTable
