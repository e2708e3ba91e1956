import Mathlib.Data.List.Basic
import Mathlib.Tactic.Common
import LongestMatch.Parse.Table

namespace LongestMatch.Parse

structure Numeral (digits : List Char) (n : Nat) : Prop where
  nonempty : digits ≠ []
  each : ∀ c ∈ digits, c.isDigit
  value : Nat.ofDigitChars 10 digits 0 = n

def IsSign (sign : List Char) : Prop := sign = [] ∨ sign = ['+']

theorem numeral_iff {digits : List Char} {n : Nat} : Numeral digits n ↔
    ¬ (digits.isEmpty ∨ !digits.all Char.isDigit) ∧
      digits.foldl (fun value c => value * 10 + (c.toNat - '0'.toNat)) 0 = n := by
  have value : digits.foldl (fun value c => value * 10 + (c.toNat - '0'.toNat)) 0 =
      Nat.ofDigitChars 10 digits 0 := by simp only [Nat.ofDigitChars, Nat.mul_comm 10]
  rw [value]
  constructor
  · rintro ⟨some, each, rfl⟩
    simpa [some] using each
  · rintro ⟨fine, rfl⟩
    simp only [Bool.not_eq_true', not_or, List.isEmpty_iff, Bool.not_eq_false, List.all_eq_true]
      at fine
    exact ⟨fine.1, fine.2, rfl⟩

theorem number?_signed (digits : List Char) : number? ('+' :: digits) =
    if digits.isEmpty ∨ !digits.all Char.isDigit then none
    else
      let value := digits.foldl (fun value c => value * 10 + (c.toNat - '0'.toNat)) 0
      if value < UInt64.size then some value else none := rfl

theorem number?_unsigned {digits : List Char} (plain : ∀ rest, digits ≠ '+' :: rest) :
    number? digits =
      if digits.isEmpty ∨ !digits.all Char.isDigit then none
      else
        let value := digits.foldl (fun value c => value * 10 + (c.toNat - '0'.toNat)) 0
        if value < UInt64.size then some value else none := by
  rw [number?]
  exact plain

theorem number?_eq_some {text : List Char} {n : Nat} : number? text = some n ↔
    n < UInt64.size ∧ ∃ sign digits, IsSign sign ∧ text = sign ++ digits ∧ Numeral digits n := by
  have read : ∀ digits : List Char, ((if digits.isEmpty ∨ !digits.all Char.isDigit then none
      else
        let value := digits.foldl (fun value c => value * 10 + (c.toNat - '0'.toNat)) 0
        if value < UInt64.size then some value else none) = some n) ↔
      n < UInt64.size ∧ Numeral digits n := by
    intro digits
    rw [numeral_iff]
    grind
  by_cases signed : ∃ rest, text = '+' :: rest
  · obtain ⟨rest, rfl⟩ := signed
    rw [number?_signed, read]
    refine and_congr_right fun _ => ⟨fun numeral => ⟨['+'], rest, .inr rfl, rfl, numeral⟩, ?_⟩
    rintro ⟨sign, digits, rfl | rfl, same, numeral⟩
    · cases same
      cases numeral.each '+' List.mem_cons_self
    · cases same
      exact numeral
  · rw [not_exists] at signed
    rw [number?_unsigned signed, read]
    refine and_congr_right fun _ => ⟨fun numeral => ⟨[], text, .inl rfl, rfl, numeral⟩, ?_⟩
    rintro ⟨sign, digits, rfl | rfl, rfl, numeral⟩
    · exact numeral
    · exact (signed digits rfl).elim

namespace Action

def letter : Action → Char
  | shift _ => 's'
  | reduce _ => 'r'

def index : Action → Nat
  | shift state => state
  | reduce production => production

def Spelled (a : Action) (text : String) : Prop :=
  ∃ digits, text.toList = a.letter :: digits ∧ Numeral digits a.index

/-- The text is read as the action: there may be a sign before its number. -/
def Legible (a : Action) (text : String) : Prop :=
  ∃ sign digits, IsSign sign ∧ text.toList = a.letter :: (sign ++ digits) ∧ Numeral digits a.index

theorem Legible.ne_err {a : Action} {text : String} (legible : a.Legible text) : text ≠ "err" := by
  rintro rfl
  obtain ⟨_, _, _, same, _⟩ := legible
  cases a <;> cases same

theorem Legible.unique {a b : Action} {text : String} (left : a.Legible text) (right : b.Legible text) :
    a = b := by
  obtain ⟨sign, digits, sign', same, numeral⟩ := left
  obtain ⟨more, digits', more', same', numeral'⟩ := right
  obtain ⟨letter, rest⟩ := List.cons.inj (same.symm.trans same')
  have equal : digits = digits' := by
    rcases sign' with rfl | rfl <;> rcases more' with rfl | rfl
    · exact rest
    · exact nomatch numeral.each '+' (by rw [show digits = '+' :: digits' from rest]; exact .head _)
    · exact nomatch numeral'.each '+' (by rw [show digits' = '+' :: digits from rest.symm]; exact .head _)
    · exact (List.cons.inj rest).2
  have index : a.index = b.index := by rw [← numeral.value, ← numeral'.value, equal]
  cases a <;> cases b <;> first | cases letter; done | exact congrArg _ index

theorem decode_eq_none {text : String} : decode text = .ok none ↔ text = "err" := by
  rw [decode]
  grind

theorem decode_eq_some {text : String} {a : Action} :
    decode text = .ok (some a) ↔ a.index < UInt64.size ∧ a.Legible text := by
  have lettered : decode text = .ok (some a) ↔
      ∃ rest, text.toList = a.letter :: rest ∧ number? rest = some a.index := by
    by_cases none : text = "err"
    · rw [decode_eq_none.2 none]
      subst none
      cases a <;> simp [letter]
    · rw [decode, if_neg none]
      cases text.toList with
      | nil => simp
      | cons kind rest =>
          cases read : number? rest <;> cases a <;> simp [letter, index, read] <;> grind
  simp only [lettered, Legible, number?_eq_some]
  constructor
  · rintro ⟨rest, same, room, sign, digits, sign', rfl, numeral⟩
    exact ⟨room, sign, digits, sign', same, numeral⟩
  · rintro ⟨room, sign, digits, sign', same, numeral⟩
    exact ⟨_, same, room, sign, digits, sign', rfl, numeral⟩

def read? (text : String) : Option Action := (decode text).toOption.join

theorem legible_of_read? {text : String} {a : Action} (read : read? text = some a) : a.Legible text := by
  rw [read?] at read
  cases decoded : decode text with
  | error defect =>
      rw [decoded] at read
      cases read
  | ok action =>
      rw [decoded] at read
      cases (show action = some a from read)
      exact (decode_eq_some.1 decoded).2

def Fine (states productions : Nat) (text : String) : Prop :=
  text = "err" ∨ ∃ a : Action, a.Legible text ∧ a.InRange states productions

theorem index_lt {a : Action} {states productions bound : Nat} (inside : a.InRange states productions)
    (room : states ≤ bound) (room' : productions ≤ bound) : a.index < bound := by
  cases a with
  | shift => exact Nat.lt_of_lt_of_le inside room
  | reduce => exact Nat.lt_of_lt_of_le inside room'

theorem decode_cases (text : String) : (text = "err" ∧ decode text = .ok none) ∨
    (∃ a, decode text = .ok (some a) ∧ a.Legible text) ∨
      (decode text = .error (.badAction text) ∧ text ≠ "err" ∧
        ∀ a : Action, a.Legible text → UInt64.size ≤ a.index) := by
  cases read : decode text with
  | ok action =>
      cases action with
      | none => exact .inl ⟨decode_eq_none.1 read, rfl⟩
      | some a => exact .inr (.inl ⟨a, rfl, (decode_eq_some.1 read).2⟩)
  | error defect =>
      have named : defect = .badAction text := by
        rw [decode] at read
        grind
      refine .inr (.inr ⟨by rw [named], fun none => ?_, fun a legible => ?_⟩)
      · cases read.symm.trans (decode_eq_none.2 none)
      · refine Nat.le_of_not_lt fun room => ?_
        cases read.symm.trans (decode_eq_some.2 ⟨room, legible⟩)

def Signed (text : String) : Prop := text.toList[1]? = some '+'

instance (text : String) : Decidable (Signed text) := inferInstanceAs (Decidable (_ = _))

theorem spelled_iff {a : Action} {text : String} : a.Spelled text ↔ a.Legible text ∧ ¬ Signed text := by
  constructor
  · rintro ⟨digits, same, numeral⟩
    refine ⟨⟨[], digits, .inl rfl, same, numeral⟩, fun signed => ?_⟩
    rw [Signed, same, List.getElem?_cons_succ] at signed
    cases numeral.each '+' (List.mem_of_getElem? signed)
  · rintro ⟨⟨sign, digits, rfl | rfl, same, numeral⟩, plain⟩
    · exact ⟨digits, same, numeral⟩
    · exact (plain (by rw [Signed, same]; rfl)).elim

end Action

namespace Table

variable {S : Type}

def named (row : List (S × String)) : List (S × Action) :=
  (row.filterMap fun entry => (Action.read? entry.2).map (entry.1, ·)).reverse

variable [Alphabet S] {states productions state : Nat}

omit [Alphabet S] in
theorem named_cons (entry : S × String) (row : List (S × String)) :
    named (entry :: row) = named row ++ ((Action.read? entry.2).map (entry.1, ·)).toList := by
  rw [named, List.filterMap_cons]
  cases Action.read? entry.2 <;> simp [named]

inductive Faulty (states productions state : Nat) (entry : S × String) : TableDefect → Prop
  | unreadable : entry.2 ≠ "err" → (∀ a : Action, a.Legible entry.2 → UInt64.size ≤ a.index) →
      Faulty states productions state entry (.badAction entry.2)
  | outOfRange {a : Action} : a.Legible entry.2 → ¬ a.InRange states productions →
      Faulty states productions state entry
        (.outOfRange state entry.2 (Alphabet.name entry.1))

theorem Faulty.not_fine {entry : S × String} {defect : TableDefect}
    (faulty : Faulty states productions state entry defect) (room : states ≤ UInt64.size)
    (room' : productions ≤ UInt64.size) : ¬ Action.Fine states productions entry.2 := by
  rintro (none | ⟨a, legible, inside⟩)
  · cases faulty with
    | unreadable some => exact some none
    | outOfRange legible => exact legible.ne_err none
  · cases faulty with
    | unreadable _ large =>
        exact Nat.not_lt.2 (large a legible) (Action.index_lt inside room room')
    | outOfRange legible' outside => exact outside (legible.unique legible' ▸ inside)

theorem readRow_cases (states productions state : Nat) (row : List (S × Action))
    (entries : List (S × String)) :
    (readRow states productions state row entries = .ok (named entries ++ row) ∧
      ∀ entry ∈ entries, Action.Fine states productions entry.2) ∨
    ∃ defect, readRow states productions state row entries = .error defect ∧
      ∃ entry ∈ entries, Faulty states productions state entry defect := by
  induction entries generalizing row with
  | nil => exact .inl ⟨rfl, List.forall_mem_nil _⟩
  | cons entry entries ih =>
      rcases Action.decode_cases entry.2 with ⟨none, read⟩ | ⟨a, read, legible⟩ | ⟨read, some, large⟩
      · have reads : readRow states productions state row (entry :: entries) =
            readRow states productions state row entries := by
          rw [readRow, read]
          rfl
        rw [reads, named_cons, Action.read?, read]
        rcases ih row with ⟨read', all⟩ | ⟨defect, failed, entry', member, faulty⟩
        · exact .inl ⟨by simpa [Except.toOption] using read', List.forall_mem_cons.2 ⟨.inl none, all⟩⟩
        · exact .inr ⟨defect, failed, entry', List.mem_cons_of_mem _ member, faulty⟩
      · by_cases inside : a.InRange states productions
        · have reads : readRow states productions state row (entry :: entries) =
              readRow states productions state ((entry.1, a) :: row) entries := by
            rw [readRow, read]
            simp only [bind, Except.bind, if_pos inside]
          rw [reads, named_cons, Action.read?, read]
          rcases ih ((entry.1, a) :: row) with ⟨read', all⟩ | ⟨defect, failed, entry', member, faulty⟩
          · exact .inl ⟨by simpa [Except.toOption] using read',
              List.forall_mem_cons.2 ⟨.inr ⟨a, legible, inside⟩, all⟩⟩
          · exact .inr ⟨defect, failed, entry', List.mem_cons_of_mem _ member, faulty⟩
        · refine .inr ⟨_, ?_, entry, List.mem_cons_self, .outOfRange legible inside⟩
          rw [readRow, read]
          simp only [bind, Except.bind, if_neg inside]
      · refine .inr ⟨_, ?_, entry, List.mem_cons_self, .unreadable some large⟩
        rw [readRow, read]
        rfl

theorem readRows_cases (states productions state : Nat) (rows : List (List (S × String))) :
    (readRows states productions state rows = .ok (rows.map named) ∧
      ∀ row ∈ rows, ∀ entry ∈ row, Action.Fine states productions entry.2) ∨
    ∃ defect, readRows states productions state rows = .error defect ∧
      ∃ i row, rows[i]? = some row ∧ ∃ entry ∈ row,
        Faulty states productions (state + i) entry defect := by
  induction rows generalizing state with
  | nil => exact .inl ⟨rfl, List.forall_mem_nil _⟩
  | cons row rows ih =>
      rw [readRows]
      rcases readRow_cases states productions state [] row with
        ⟨read, fine⟩ | ⟨defect, failed, faulty⟩
      · rw [List.append_nil] at read
        rw [read]
        rcases ih (state + 1) with ⟨read', all⟩ | ⟨defect, failed, i, row', there, faulty⟩
        · refine .inl ⟨?_, List.forall_mem_cons.2 ⟨fine, all⟩⟩
          simp only [bind, Except.bind, read']
          rfl
        · refine .inr ⟨defect, ?_, i + 1, row', there, ?_⟩
          · simp only [bind, Except.bind, failed]
          · rwa [Nat.add_right_comm] at faulty
      · refine .inr ⟨defect, ?_, 0, row, rfl, faulty⟩
        rw [failed]
        rfl

variable {rows : List (List (S × String))} {heads : List S} {lengths : List Nat} {t : Table S}

structure Readable (rows : List (List (S × String))) (heads : List S) (lengths : List Nat) : Prop where
  counts : heads.length = lengths.length
  nonempty : heads ≠ []
  actions : ∀ row ∈ rows, ∀ entry ∈ row, Action.Fine rows.length heads.length entry.2

inductive Refused (rows : List (List (S × String))) (heads : List S) (lengths : List Nat) :
    TableDefect → Prop
  | counts : heads.length ≠ lengths.length →
      Refused rows heads lengths (.unequalCounts heads.length lengths.length)
  | empty : heads = [] → lengths = [] → Refused rows heads lengths .noProductions
  | entry {state : Nat} {row : List (S × String)} {entry : S × String} {defect : TableDefect} :
      rows[state]? = some row → entry ∈ row →
        Faulty rows.length heads.length state entry defect → Refused rows heads lengths defect

theorem Refused.not_readable {defect : TableDefect} (refused : Refused rows heads lengths defect)
    (room : rows.length ≤ UInt64.size) (room' : heads.length ≤ UInt64.size) :
    ¬ Readable rows heads lengths := by
  intro readable
  cases refused with
  | counts unequal => exact unequal readable.counts
  | empty none => exact readable.nonempty none
  | entry there member faulty =>
      exact faulty.not_fine room room'
        (readable.actions _ (List.mem_of_getElem? there) _ member)

theorem ofRows_cases (rows : List (List (S × String))) (heads : List S) (lengths : List Nat) :
    (ofRows rows heads lengths =
        .ok ⟨(rows.map named).toArray, heads.toArray, lengths.toArray⟩ ∧
      Readable rows heads lengths) ∨
    ∃ defect, ofRows rows heads lengths = .error defect ∧ Refused rows heads lengths defect := by
  by_cases counts : heads.length = lengths.length
  · by_cases none : heads = []
    · subst none
      have none : lengths = [] := List.length_eq_zero_iff.1 counts.symm
      subst none
      exact .inr ⟨_, rfl, .empty rfl rfl⟩
    · have opened : ofRows rows heads lengths = (do
          let rows ← readRows rows.length heads.length 0 rows
          return ⟨rows.toArray, heads.toArray, lengths.toArray⟩) := by
        rw [ofRows, if_neg (not_not.2 counts), if_neg (by simpa using none)]
      rcases readRows_cases rows.length heads.length 0 rows with
        ⟨read, fine⟩ | ⟨defect, failed, i, row, there, entry, member, faulty⟩
      · exact .inl ⟨by rw [opened, read]; rfl, counts, none, fine⟩
      · rw [Nat.zero_add] at faulty
        exact .inr ⟨defect, by rw [opened, failed]; rfl, .entry there member faulty⟩
  · refine .inr ⟨_, ?_, .counts counts⟩
    rw [ofRows, if_pos counts]
    rfl

def LastNamed (row : List (S × String)) (x : S) (a : Action) : Prop :=
  ∃ before text after, row = before ++ (x, text) :: after ∧ a.Legible text ∧
    ∀ entry ∈ after, entry.1 = x → entry.2 = "err"

def lookUp (row : List (S × String)) (x : S) : Option Action :=
  ((named row).find? fun entry => entry.1 = x).map Prod.snd

theorem lookUp_cons (entry : S × String) (row : List (S × String)) (x : S) :
    lookUp (entry :: row) x =
      (lookUp row x).or (if entry.1 = x then Action.read? entry.2 else none) := by
  rw [lookUp, named_cons, List.find?_append, lookUp]
  cases (named row).find? fun entry => entry.1 = x with
  | some _ => rfl
  | none => cases Action.read? entry.2 <;> by_cases same : entry.1 = x <;> simp [same]

theorem lookUp_eq_none {row : List (S × String)} {x : S} : lookUp row x = none ↔
    ∀ entry ∈ row, entry.1 = x → Action.read? entry.2 = none := by
  induction row with
  | nil => simp [lookUp, named]
  | cons entry row ih => rw [lookUp_cons, Option.or_eq_none_iff, ih, List.forall_mem_cons, and_comm]; simp

theorem lookUp_eq_some {row : List (S × String)} {x : S} {a : Action} : lookUp row x = some a ↔
    ∃ before text after, row = before ++ (x, text) :: after ∧ Action.read? text = some a ∧
      ∀ entry ∈ after, entry.1 = x → Action.read? entry.2 = none := by
  induction row with
  | nil => simp [lookUp, named]
  | cons entry row ih =>
      rw [lookUp_cons]
      constructor
      · intro found
        cases later : lookUp row x with
        | some b =>
            rw [later] at found
            cases found
            obtain ⟨before, text, after, rfl, named⟩ := ih.1 later
            exact ⟨entry :: before, text, after, rfl, named⟩
        | none =>
            rw [later, Option.none_or] at found
            split at found
            · rename_i same
              subst same
              exact ⟨[], entry.2, row, rfl, found, lookUp_eq_none.1 later⟩
            · cases found
      · rintro ⟨before, text, after, split, named, last⟩
        cases before with
        | nil =>
            cases split
            rw [lookUp_eq_none.2 last, if_pos rfl, Option.none_or, named]
        | cons _ before =>
            cases split
            rw [ih.2 ⟨before, text, after, rfl, named, last⟩, Option.some_or]

theorem action?_eq (built : ofRows rows heads lengths = .ok t) (i : Nat) (x : S) :
    t.action? i x = rows[i]?.bind (lookUp · x) := by
  rcases ofRows_cases rows heads lengths with ⟨read, _⟩ | ⟨defect, failed, _⟩
  · cases built.symm.trans read
    rw [action?, List.getElem?_toArray, List.getElem?_map, Option.bind_map]
    rfl
  · cases built.symm.trans failed

theorem counts_of_ofRows (built : ofRows rows heads lengths = .ok t) :
    t.stateCount = rows.length ∧ t.productionCount = heads.length ∧ t.lengths.size = heads.length := by
  rcases ofRows_cases rows heads lengths with ⟨read, readable⟩ | ⟨defect, failed, _⟩
  · cases built.symm.trans read
    exact ⟨by simp [stateCount], by simp [productionCount], by simp [readable.counts]⟩
  · cases built.symm.trans failed

structure Complete (t : Table S) : Prop where
  lengths : t.lengths.size = t.productionCount
  inRange : ∀ s symbol a, t.action? s symbol = some a → a.InRange t.stateCount t.productionCount

theorem complete_of_ofRows (built : ofRows rows heads lengths = .ok t) : t.Complete := by
  obtain ⟨states, productions, sizes⟩ := counts_of_ofRows built
  refine ⟨sizes.trans productions.symm, fun s symbol a action => ?_⟩
  rw [action?_eq built] at action
  obtain ⟨row, there, found⟩ := Option.bind_eq_some_iff.1 action
  obtain ⟨before, text, after, split, named, _⟩ := lookUp_eq_some.1 found
  rcases ofRows_cases rows heads lengths with ⟨_, readable⟩ | ⟨defect, failed, _⟩
  · have legible := Action.legible_of_read? named
    have member : (symbol, text) ∈ row := by simp [split]
    rcases readable.actions row (List.mem_of_getElem? there) _ member with none | ⟨b, legible', inside⟩
    · exact (legible.ne_err none).elim
    · rw [states, productions, legible.unique legible']
      exact inside
  · cases built.symm.trans failed

/-- A description as the format has it: productions are not empty, and numbers are digits and nothing
else. -/
structure Documented (rows : List (List (S × String))) (heads : List S) (lengths : List Nat) :
    Prop where
  counts : heads.length = lengths.length
  nonempty : heads ≠ []
  filled : ∀ length ∈ lengths, 1 ≤ length
  actions : ∀ row ∈ rows, ∀ entry ∈ row,
    entry.2 = "err" ∨ ∃ a : Action, a.Spelled entry.2 ∧ a.InRange rows.length heads.length

omit [Alphabet S] in
theorem documented_iff : Documented rows heads lengths ↔ Readable rows heads lengths ∧
    (∀ length ∈ lengths, 1 ≤ length) ∧ ∀ row ∈ rows, ∀ entry ∈ row, ¬ Action.Signed entry.2 := by
  constructor
  · rintro ⟨counts, some, filled, actions⟩
    refine ⟨⟨counts, some, fun row member entry member' => ?_⟩, filled,
      fun row member entry member' => ?_⟩
    · exact (actions row member entry member').imp_right fun ⟨a, spelled, inside⟩ =>
        ⟨a, (Action.spelled_iff.1 spelled).1, inside⟩
    · rcases actions row member entry member' with none | ⟨a, spelled, _⟩
      · rw [none]
        decide
      · exact (Action.spelled_iff.1 spelled).2
  · rintro ⟨⟨counts, some, actions⟩, filled, plain⟩
    exact ⟨counts, some, filled, fun row member entry member' =>
      (actions row member entry member').imp_right fun ⟨a, legible, inside⟩ =>
        ⟨a, Action.spelled_iff.2 ⟨legible, plain row member entry member'⟩, inside⟩⟩

section

variable (room : rows.length ≤ UInt64.size) (room' : heads.length ≤ UInt64.size)
include room room'

omit [Alphabet S] in
theorem Readable.read?_eq_none (readable : Readable rows heads lengths) {row : List (S × String)}
    (member : row ∈ rows) {entry : S × String} (member' : entry ∈ row) :
    Action.read? entry.2 = none ↔ entry.2 = "err" := by
  constructor
  · intro unread
    refine (readable.actions row member entry member').resolve_right ?_
    rintro ⟨a, legible, inside⟩
    rw [Action.read?, Action.decode_eq_some.2 ⟨Action.index_lt inside room room', legible⟩] at unread
    cases unread
  · intro none
    rw [Action.read?, Action.decode_eq_none.2 none]
    rfl

omit [Alphabet S] in
theorem Readable.read?_eq_some (readable : Readable rows heads lengths) {row : List (S × String)}
    (member : row ∈ rows) {entry : S × String} (member' : entry ∈ row) {a : Action} :
    Action.read? entry.2 = some a ↔ a.Legible entry.2 := by
  refine ⟨Action.legible_of_read?, fun legible => ?_⟩
  rcases readable.actions row member entry member' with none | ⟨b, legible', inside⟩
  · exact (legible.ne_err none).elim
  · cases legible.unique legible'
    rw [Action.read?, Action.decode_eq_some.2 ⟨Action.index_lt inside room room', legible⟩]
    rfl

theorem Readable.lookUp_eq_some (readable : Readable rows heads lengths) {row : List (S × String)}
    (member : row ∈ rows) {x : S} {a : Action} : lookUp row x = some a ↔ LastNamed row x a := by
  rw [Table.lookUp_eq_some]
  constructor
  · rintro ⟨before, text, after, rfl, named, last⟩
    refine ⟨before, text, after, rfl, ?_, fun entry later same => ?_⟩
    · have there : (x, text) ∈ before ++ (x, text) :: after := by simp
      exact (readable.read?_eq_some room room' member there).1 named
    · exact (readable.read?_eq_none room room' member (by simp [later])).1 (last entry later same)
  · rintro ⟨before, text, after, rfl, legible, last⟩
    refine ⟨before, text, after, rfl, ?_, fun entry later same => ?_⟩
    · have there : (x, text) ∈ before ++ (x, text) :: after := by simp
      exact (readable.read?_eq_some room room' member there).2 legible
    · exact (readable.read?_eq_none room room' member (by simp [later])).2 (last entry later same)

/-- A description is accepted exactly if it is readable, which is what the format asks for unless a
production is empty or a number has a sign. In a table that has been accepted, what is looked up in a state
is the last action that its row names for the symbol. -/
theorem ofRows_documented_iff :
    ((∃ t, ofRows rows heads lengths = .ok t) ↔ Readable rows heads lengths) ∧
    (¬ Readable rows heads lengths →
      ∃ defect, ofRows rows heads lengths = .error defect ∧ Refused rows heads lengths defect) ∧
    (((∃ t, ofRows rows heads lengths = .ok t) ↔ Documented rows heads lengths) ↔
      (Readable rows heads lengths → (∀ length ∈ lengths, 1 ≤ length) ∧
        ∀ row ∈ rows, ∀ entry ∈ row, ¬ Action.Signed entry.2)) ∧
    ∀ t, ofRows rows heads lengths = .ok t → ∀ i x,
      (∀ a, t.action? i x = some a ↔ ∃ row, rows[i]? = some row ∧ LastNamed row x a) ∧
      (t.action? i x = none ↔
        ∀ row, rows[i]? = some row → ∀ entry ∈ row, entry.1 = x → entry.2 = "err") := by
  have accepted : (∃ t, ofRows rows heads lengths = .ok t) ↔ Readable rows heads lengths := by
    rcases ofRows_cases rows heads lengths with ⟨read, readable⟩ | ⟨defect, failed, refused⟩
    · exact ⟨fun _ => readable, fun _ => ⟨_, read⟩⟩
    · constructor
      · rintro ⟨t, built⟩
        cases built.symm.trans failed
      · exact fun readable => (refused.not_readable room room' readable).elim
  refine ⟨accepted, fun broken => ?_, ?_, fun t built i x => ?_⟩
  · exact (ofRows_cases rows heads lengths).resolve_left fun read => broken read.2
  · rw [accepted, documented_iff]
    exact ⟨fun agree readable => (agree.1 readable).2,
      fun fine => ⟨fun readable => ⟨readable, fine readable⟩, And.left⟩⟩
  · have readable := accepted.1 ⟨t, built⟩
    rw [action?_eq built]
    refine ⟨fun a => ?_, ?_⟩
    · rw [Option.bind_eq_some_iff]
      refine exists_congr fun row => and_congr_right fun there => ?_
      exact readable.lookUp_eq_some room room' (List.mem_of_getElem? there)
    · rw [Option.bind_eq_none_iff]
      refine forall_congr' fun row => forall_congr' fun there => ?_
      rw [lookUp_eq_none]
      refine forall₂_congr fun entry member => imp_congr_right fun _ => ?_
      exact readable.read?_eq_none room room' (List.mem_of_getElem? there) member

end

theorem ofRows_documented_iff_repeated :
    [[("n", "r0"), ("m", "s0"), ("n", "s01"), ("m", "err")], [("$", "r0")]].length ≤ UInt64.size ∧
    ["S"].length ≤ UInt64.size ∧
    ∃ t, ofRows [[("n", "r0"), ("m", "s0"), ("n", "s01"), ("m", "err")], [("$", "r0")]] ["S"] [1] = .ok t ∧
      Documented [[("n", "r0"), ("m", "s0"), ("n", "s01"), ("m", "err")], [("$", "r0")]] ["S"] [1] ∧
      t.action? 0 "n" = some (.shift 1) ∧ t.action? 0 "m" = some (.shift 0) ∧
      t.action? 1 "n" = none := by
  have room : [[("n", "r0"), ("m", "s0"), ("n", "s01"), ("m", "err")], [("$", "r0")]].length ≤
      UInt64.size := by decide
  have room' : ["S"].length ≤ UInt64.size := by decide
  have built : ofRows [[("n", "r0"), ("m", "s0"), ("n", "s01"), ("m", "err")], [("$", "r0")]] ["S"] [1] =
      .ok ⟨#[[("n", .shift 1), ("m", .shift 0), ("n", .reduce 0)], [("$", .reduce 0)]], #["S"], #[1]⟩ := rfl
  obtain ⟨_, _, documented, looked⟩ := @ofRows_documented_iff _ _ _ _ [1] room room'
  refine ⟨room, room', _, built, (documented.2 fun _ => ⟨by decide, ?_⟩).1 ⟨_, built⟩,
    ((looked _ built 0 "n").1 _).2 ⟨_, rfl, [("n", "r0"), ("m", "s0")], "s01", [("m", "err")], rfl,
      ⟨[], ['0', '1'], .inl rfl, rfl, by decide, by simp, rfl⟩, by decide⟩,
    ((looked _ built 0 "m").1 _).2 ⟨_, rfl, [("n", "r0")], "s0", [("n", "s01"), ("m", "err")], rfl,
      ⟨[], ['0'], .inl rfl, rfl, by decide, by simp, rfl⟩, by decide⟩,
    (looked _ built 1 "n").2.2 ?_⟩
  · decide
  · rintro row ⟨⟩
    decide

/-- A table with an empty production and one in which a number has a sign are accepted, although they are
not what the format asks for. -/
theorem emptyProduction_accepted :
    (∃ t, ofRows [[("x", "r1"), ("E", "s0")]] ["S", "E"] [1, 0] = .ok t) ∧
    ¬ Documented [[("x", "r1"), ("E", "s0")]] ["S", "E"] [1, 0] ∧
    (∃ t, ofRows [[("x", "s+0")]] ["S"] [1] = .ok t) ∧
    ¬ Documented [[("x", "s+0")]] ["S"] [1] := by
  refine ⟨⟨_, rfl⟩, fun documented => ?_, ⟨_, rfl⟩, fun documented => ?_⟩
  · exact absurd (documented.filled 0 (by decide)) (by decide)
  · refine (documented_iff.1 documented).2.2 _ (List.mem_singleton_self _) _ (List.mem_singleton_self _) ?_
    decide

end Table

end LongestMatch.Parse
