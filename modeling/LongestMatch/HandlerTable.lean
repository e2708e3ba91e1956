import LongestMatch.Error
import LongestMatch.Graph

namespace LongestMatch

structure HandlerTable (R : Type) where
  entries : Array (String × (String → R)) := #[]

namespace HandlerTable

variable {R : Type}

def size (t : HandlerTable R) : Nat := t.entries.size

def isEmpty (t : HandlerTable R) : Bool := t.entries.isEmpty

def tags (t : HandlerTable R) : List String := t.entries.toList.map Prod.fst

def entry? (t : HandlerTable R) (id : HandlerId) : Option (String × (String → R)) := t.entries[id]?

def find? (t : HandlerTable R) (tag : String) : Option HandlerId :=
  t.entries.findIdx? fun entry => entry.1 = tag

def insert (t : HandlerTable R) (tag : String) (handler : String → R) :
    Except Error (HandlerId × HandlerTable R) :=
  match t.find? tag with
  | some _ => .error (.repeatedTag tag)
  | none => .ok (t.size, ⟨t.entries.push (tag, handler)⟩)

def text (t : HandlerTable R) : String := Text.listText (t.tags.map Text.quoted)

end HandlerTable

end LongestMatch
