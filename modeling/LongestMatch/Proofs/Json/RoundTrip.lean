import Mathlib.Data.List.Forall2
import Mathlib.Data.List.TakeDrop
import Mathlib.Tactic.Common
import LongestMatch.Json.Reader
import LongestMatch.Json.Writer

namespace LongestMatch.Json

theorem hexNumber?_low : ∀ n < 0x10, (Text.hexDigits n).length = 1 ∧
    hexNumber? (['0', '0', '0'] ++ Text.hexDigits n) = some n := by decide

theorem hexNumber?_high : ∀ n < 0x20, 0x10 ≤ n → (Text.hexDigits n).length = 2 ∧
    hexNumber? (['0', '0'] ++ Text.hexDigits n) = some n := by decide

theorem pieces_unit {digits : List Char} (four : digits.length = 4) {unit : Nat}
    (number : hexNumber? digits = some unit) (rest : List Char) :
    pieces ('\\' :: 'u' :: (digits ++ rest)) =
      (pieces rest).map fun (found, rest) => (.unit unit :: found, rest) := by
  match digits, four with
  | [a, b, c, d], _ =>
    simp only [List.cons_append, List.nil_append]
    rw [pieces, number]
    cases pieces rest <;> rfl

theorem pieces_escaped {e c : Char} (stands : escaped? e = some c) (rest : List Char) :
    pieces ('\\' :: e :: rest) =
      (pieces rest).map fun (found, rest) => (.char c :: found, rest) := by
  have other : e ≠ 'u' := by
    rintro rfl
    cases stands
  rw [pieces, stands]
  · cases pieces rest <;> rfl
  · intro _ _ _ _ _ same
    exact (other same).elim

theorem pieces_char {c : Char} (quote : c ≠ '\x22') (backslash : c ≠ '\\') (shown : 0x20 ≤ c.toNat)
    (rest : List Char) :
    pieces (c :: rest) = (pieces rest).map fun (found, rest) => (.char c :: found, rest) := by
  rw [pieces, if_neg (Nat.not_lt.2 shown)]
  · cases pieces rest <;> rfl
  · exact fun same => quote same
  · exact fun _ _ _ _ _ same => (backslash same).elim
  · exact fun _ _ same => (backslash same).elim

def Piece.StandsFor (p : Piece) (c : Char) : Prop :=
  ∀ more, characters? (p :: more) = (characters? more).map (c :: ·)

theorem Piece.StandsFor.char (c : Char) : (Piece.char c).StandsFor c := fun more => by
  rw [characters?]

theorem Piece.StandsFor.unit {c : Char} (low : c.toNat < 0x20) :
    (Piece.unit c.toNat).StandsFor c := by
  intro more
  rw [characters?.eq_def]
  simp only
  rw [if_pos (.inl (by omega)), Char.ofNat_toNat]

theorem exists_piece (c : Char) : ∃ p : Piece, p.StandsFor c ∧ ∀ rest,
    pieces (escape c ++ rest) = (pieces rest).map fun (found, rest) => (p :: found, rest) := by
  unfold escape
  split_ifs with special back feed line carriage tab low high
  · refine ⟨_, .char c, pieces_escaped ?_⟩
    rcases special with rfl | rfl <;> rfl
  · subst back; exact ⟨_, .char _, pieces_escaped rfl⟩
  · subst feed; exact ⟨_, .char _, pieces_escaped rfl⟩
  · subst line; exact ⟨_, .char _, pieces_escaped rfl⟩
  · subst carriage; exact ⟨_, .char _, pieces_escaped rfl⟩
  · subst tab; exact ⟨_, .char _, pieces_escaped rfl⟩
  · obtain ⟨length, number⟩ := hexNumber?_low c.toNat low
    exact ⟨_, .unit (by omega), pieces_unit (by simp [length]) number⟩
  · obtain ⟨length, number⟩ := hexNumber?_high c.toNat high (by omega)
    exact ⟨_, .unit high, pieces_unit (by simp [length]) number⟩
  · obtain ⟨quote, backslash⟩ := not_or.1 special
    exact ⟨_, .char c, pieces_char quote backslash (by omega)⟩

theorem pieces_text (text rest : List Char) : ∃ found,
    pieces (text.flatMap escape ++ '\x22' :: rest) = some (found, rest) ∧
      characters? found = some text := by
  induction text with
  | nil => exact ⟨[], by rw [List.flatMap_nil, List.nil_append, pieces], by rw [characters?]⟩
  | cons c text ih =>
      obtain ⟨p, stands, reads⟩ := exists_piece c
      obtain ⟨found, ends, characters⟩ := ih
      refine ⟨p :: found, ?_, ?_⟩
      · rw [List.flatMap_cons, List.append_assoc, reads, ends]
        rfl
      · rw [stands, characters]
        rfl

theorem readText_writeString (text : String) (rest : List Char) :
    readText (text.toList.flatMap escape ++ '\x22' :: rest) = some (some text, rest) := by
  obtain ⟨found, ends, characters⟩ := pieces_text text.toList rest
  rw [readText, ends]
  simp [characters]

theorem isDigit_of_mem_writeNatural {n : Nat} {c : Char} (member : c ∈ writeNatural n) : c.isDigit :=
  Nat.isDigit_of_mem_toDigits (by decide) (by decide) member

theorem decimal_writeNatural (n : Nat) : decimal (writeNatural n) = n := by
  have same : decimal (writeNatural n) = Nat.ofDigitChars 10 (writeNatural n) 0 := by
    simp only [decimal, Nat.ofDigitChars, Nat.mul_comm 10]
  rw [same]
  exact Nat.ofDigitChars_ten_toDigits

theorem eq_zero_of_head?_writeNatural (n : Nat) : (writeNatural n).head? = some '0' → n = 0 := by
  induction n using Nat.strongRecOn with
  | ind n ih =>
    intro zero
    rcases Nat.lt_or_ge n 10 with digit | more
    · rw [writeNatural, Nat.toDigits_of_lt_base digit, List.head?_cons] at zero
      exact Nat.digitChar_eq_zero.1 (Option.some.inj zero)
    · have front : (writeNatural (n / 10)).head? = some '0' := by
        rw [writeNatural, Nat.toDigits_of_base_le (by decide) more,
          List.head?_append_of_ne_nil _ Nat.toDigits_ne_nil] at zero
        exact zero
      have := ih (n / 10) (by omega) front
      omega

def Stops (rest : List Char) : Prop :=
  ∀ c ∈ rest.head?, c.isDigit = false ∧ c ≠ '.' ∧ c ≠ 'e' ∧ c ≠ 'E'

theorem stops_cons {c : Char} (stop : c.isDigit = false ∧ c ≠ '.' ∧ c ≠ 'e' ∧ c ≠ 'E')
    (rest : List Char) : Stops (c :: rest) := fun _ front => Option.some.inj front ▸ stop

theorem span_writeNatural (n : Nat) {rest : List Char} (stops : Stops rest) :
    (writeNatural n ++ rest).span Char.isDigit = (writeNatural n, rest) := by
  have digits : ∀ c ∈ writeNatural n, c.isDigit := fun c => isDigit_of_mem_writeNatural
  rw [List.span_eq_takeWhile_dropWhile, List.takeWhile_append_of_pos digits,
    List.dropWhile_append_of_pos digits]
  cases rest with
  | nil => rw [List.takeWhile_nil, List.append_nil, List.dropWhile_nil]
  | cons c rest =>
      have stop := (stops c rfl).1
      rw [List.takeWhile_cons_of_neg (by simp [stop]), List.dropWhile_cons_of_neg (by simp [stop]),
        List.append_nil]

theorem digits_writeNatural (n : Nat) {rest : List Char} (stops : Stops rest) :
    digits (writeNatural n ++ rest) = some (writeNatural n, rest) := by
  rw [digits, span_writeNatural n stops]
  cases written : writeNatural n with
  | nil => exact (Nat.toDigits_ne_nil written).elim
  | cons c cs => rfl

theorem readNatural_writeNatural (n : Nat) {rest : List Char} (stops : Stops rest) :
    readNatural (writeNatural n ++ rest) = some (n, rest) := by
  rw [readNatural, digits_writeNatural n stops]
  show (if (writeNatural n).head? = some '0' ∧ (writeNatural n).length ≠ 1 then none
    else some (decimal (writeNatural n), rest)) = some (n, rest)
  rw [if_neg, decimal_writeNatural]
  rintro ⟨zero, long⟩
  rw [eq_zero_of_head?_writeNatural n zero] at long
  exact long rfl

theorem fraction_of_stops {rest : List Char} (stops : Stops rest) :
    fraction rest = some (false, rest) := by
  cases rest with
  | nil => rfl
  | cons c rest =>
      rw [fraction]
      intro _ same
      exact (stops c rfl).2.1 (List.cons.inj same).1

theorem exponent_of_stops {rest : List Char} (stops : Stops rest) :
    exponent rest = some (false, rest) := by
  cases rest with
  | nil => rfl
  | cons c rest =>
      obtain ⟨_, _, lower, upper⟩ := stops c rfl
      rw [exponent.eq_def]
      exact if_neg (by simp [lower, upper])

theorem exists_writeNatural (n : Nat) : ∃ c cs, writeNatural n = c :: cs ∧ c.isDigit := by
  obtain ⟨c, cs, written⟩ := List.exists_cons_of_ne_nil (Nat.toDigits_ne_nil (b := 10) (n := n))
  refine ⟨c, cs, written, isDigit_of_mem_writeNatural (n := n) ?_⟩
  rw [writeNatural, written]
  exact List.mem_cons_self

theorem numeral_writeNatural (n : Nat) {rest : List Char} (stops : Stops rest) :
    numeral (writeNatural n ++ rest) = some (.natural n, rest) := by
  rw [numeral]
  · simp only [readNatural_writeNatural n stops, fraction_of_stops stops, exponent_of_stops stops,
      Option.bind_eq_bind, Option.bind_some]
    rfl
  · intro _ minus
    obtain ⟨c, cs, written, digit⟩ := exists_writeNatural n
    rw [written, List.cons_append] at minus
    rw [(List.cons.inj minus).1] at digit
    cases digit

theorem skipBlanks_cons {c : Char} (shown : isBlank c = false) (cs : List Char) :
    skipBlanks (c :: cs) = c :: cs := List.dropWhile_cons_of_neg (by simp [shown])

theorem value_string (bound : Nat) (cs : List Char) :
    value (bound + 1) ('\x22' :: cs) = (readText cs).map fun (found, rest) => (.string found, rest) := by
  simp only [value, skipBlanks_cons (show isBlank '\x22' = false by decide)]
  cases readText cs <;> rfl

/-- The text is that of a value: the reader takes it off whatever it stands before. -/
structure Writes (text : List Char) (j : Json) : Prop where
  front : ∃ c cs, text = c :: cs ∧ isBlank c = false ∧ c ≠ ']' ∧ c ≠ '\x7d'
  reads : ∀ bound rest, text.length ≤ bound → Stops rest → value bound (text ++ rest) = some (j, rest)

theorem isBlank_of_isDigit {c : Char} (digit : c.isDigit) : isBlank c = false := by
  by_contra blank
  simp only [isBlank, Bool.or_eq_true, decide_eq_true_eq, Bool.not_eq_false] at blank
  rcases blank with ((rfl | rfl) | rfl) | rfl <;> cases digit

theorem value_digit {c : Char} (digit : c.isDigit) (bound : Nat) (cs : List Char) :
    value (bound + 1) (c :: cs) = numeral (c :: cs) := by
  simp only [value, skipBlanks_cons (isBlank_of_isDigit digit)]
  split <;> rename_i same
  · cases same; cases digit
  · cases same; cases digit
  · cases same; cases digit
  · cases same; cases digit
  · cases same; cases digit
  · cases same; cases digit
  · rfl

theorem Writes.pos {text : List Char} {j : Json} (writes : Writes text j) : 0 < text.length := by
  obtain ⟨c, cs, rfl, _⟩ := writes.front
  exact Nat.succ_pos _

theorem writes_string (text : String) : Writes (writeString text) (.string (some text)) := by
  refine ⟨⟨_, _, rfl, by decide, by decide, by decide⟩, fun bound rest room _ => ?_⟩
  obtain ⟨bound, rfl⟩ : ∃ left, bound = left + 1 := ⟨bound - 1, by simp [writeString] at room; omega⟩
  rw [writeString, List.cons_append, List.cons_append, List.append_assoc, value_string,
    List.singleton_append, readText_writeString]
  rfl

theorem writes_natural (n : Nat) : Writes (writeNatural n) (.natural n) := by
  obtain ⟨c, cs, written, digit⟩ := exists_writeNatural n
  refine ⟨⟨c, cs, written, isBlank_of_isDigit digit, ?_, ?_⟩, fun bound rest room stops => ?_⟩
  · rintro rfl
    cases digit
  · rintro rfl
    cases digit
  · obtain ⟨bound, rfl⟩ : ∃ left, bound = left + 1 := ⟨bound - 1, by simp [written] at room; omega⟩
    rw [written, List.cons_append, value_digit digit, ← List.cons_append, ← written,
      numeral_writeNatural n stops]

theorem separated_cons_cons (text text' : List Char) (more : List (List Char)) :
    separated (text :: text' :: more) = text ++ ',' :: separated (text' :: more) := rfl

theorem exists_separated (c : Char) (cs : List Char) (more : List (List Char)) :
    ∃ rest, separated ((c :: cs) :: more) = c :: rest := by
  cases more with
  | nil => exact ⟨cs, rfl⟩
  | cons text more => exact ⟨_, rfl⟩

theorem items_last {bound : Nat} {cs rest : List Char} {j : Json}
    (item : value bound cs = some (j, ']' :: rest)) : items (bound + 1) cs = some ([j], rest) := by
  simp only [items, item, Option.bind_eq_bind, Option.bind_some,
    skipBlanks_cons (show isBlank ']' = false by decide)]

theorem items_more {bound : Nat} {cs rest : List Char} {j : Json}
    (item : value bound cs = some (j, ',' :: rest)) : items (bound + 1) cs =
      (items bound rest).map fun (more, rest) => (j :: more, rest) := by
  simp only [items, item, Option.bind_eq_bind, Option.bind_some,
    skipBlanks_cons (show isBlank ',' = false by decide)]
  cases items bound rest <;> rfl

theorem items_separated {text : List Char} {texts : List (List Char)} {j : Json} {js : List Json}
    (here : Writes text j) (each : List.Forall₂ Writes texts js) {bound : Nat}
    (room : (separated (text :: texts)).length < bound) (rest : List Char) :
    items bound (separated (text :: texts) ++ ']' :: rest) = some (j :: js, rest) := by
  obtain ⟨bound, rfl⟩ : ∃ left, bound = left + 1 := ⟨bound - 1, by omega⟩
  induction each generalizing text j bound with
  | nil =>
      exact items_last (here.reads bound _ (Nat.le_of_lt_succ room) (stops_cons (by decide) rest))
  | @cons text' j' texts js there _ ih =>
      rw [separated_cons_cons, List.length_append, List.length_cons] at room
      have := here.pos
      obtain ⟨bound, rfl⟩ : ∃ left, bound = left + 1 := ⟨bound - 1, by omega⟩
      rw [separated_cons_cons, List.append_assoc, List.cons_append,
        items_more (here.reads _ _ (by omega) (stops_cons (by decide) _)),
        ih there bound (by omega)]
      rfl

theorem value_array_nil (bound : Nat) (rest : List Char) :
    value (bound + 1) ('[' :: ']' :: rest) = some (.array [], rest) := by
  simp only [value, skipBlanks_cons (show isBlank '[' = false by decide),
    skipBlanks_cons (show isBlank ']' = false by decide)]

theorem value_array {c : Char} (shown : isBlank c = false) (item : c ≠ ']') (bound : Nat)
    (cs : List Char) : value (bound + 1) ('[' :: c :: cs) =
      (items bound (c :: cs)).map fun (found, rest) => (.array found, rest) := by
  simp only [value, skipBlanks_cons (show isBlank '[' = false by decide), skipBlanks_cons shown]
  split
  · rename_i same
    exact (item (List.cons.inj same).1).elim
  · cases items bound (c :: cs) <;> rfl

theorem writes_array {texts : List (List Char)} {js : List Json}
    (each : List.Forall₂ Writes texts js) : Writes (writeArray texts) (.array js) := by
  refine ⟨⟨_, _, rfl, by decide, by decide, by decide⟩, fun bound rest room _ => ?_⟩
  simp only [writeArray, List.length_cons, List.length_append, List.length_nil] at room
  obtain ⟨bound, rfl⟩ : ∃ left, bound = left + 1 := ⟨bound - 1, by omega⟩
  rw [writeArray, List.cons_append, List.cons_append, List.append_assoc, List.singleton_append]
  cases each with
  | nil => exact value_array_nil bound rest
  | @cons text j texts js here each =>
      obtain ⟨c, cs, rfl, shown, item, _⟩ := here.front
      have found := items_separated here each (Nat.lt_of_succ_le (Nat.le_of_succ_le_succ room)) rest
      obtain ⟨more, start⟩ := exists_separated c cs texts
      rw [start, List.cons_append] at found ⊢
      rw [value_array shown item, found]
      rfl

theorem members_last {bound : Nat} {key : String} {text rest : List Char} {j : Json}
    (member : value bound (text ++ '\x7d' :: rest) = some (j, '\x7d' :: rest)) :
    members (bound + 1) (writeMember key text ++ '\x7d' :: rest) =
      some ([(some key, j)], rest) := by
  have name := readText_writeString key (':' :: (text ++ '\x7d' :: rest))
  simp only [writeMember, writeString, List.cons_append, List.append_assoc, List.nil_append, members,
    skipBlanks_cons (show isBlank '\x22' = false by decide), name, Option.bind_eq_bind,
    Option.bind_some, skipBlanks_cons (show isBlank ':' = false by decide), member,
    skipBlanks_cons (show isBlank '\x7d' = false by decide)]

theorem members_more {bound : Nat} {key : String} {text rest : List Char} {j : Json}
    (member : value bound (text ++ ',' :: rest) = some (j, ',' :: rest)) :
    members (bound + 1) (writeMember key text ++ ',' :: rest) =
      (members bound rest).map fun (more, rest) => ((some key, j) :: more, rest) := by
  have name := readText_writeString key (':' :: (text ++ ',' :: rest))
  simp only [writeMember, writeString, List.cons_append, List.append_assoc, List.nil_append, members,
    skipBlanks_cons (show isBlank '\x22' = false by decide), name, Option.bind_eq_bind,
    Option.bind_some, skipBlanks_cons (show isBlank ':' = false by decide), member,
    skipBlanks_cons (show isBlank ',' = false by decide)]
  cases members bound rest <;> rfl

def writeMembers (members : List (String × List Char)) : List Char :=
  separated (members.map fun (key, text) => writeMember key text)

theorem writeMembers_singleton (key : String) (text : List Char) :
    writeMembers [(key, text)] = writeMember key text := rfl

theorem writeMembers_cons (key : String) (text : List Char) (next : String × List Char)
    (more : List (String × List Char)) :
    writeMembers ((key, text) :: next :: more) =
      writeMember key text ++ ',' :: writeMembers (next :: more) := rfl

theorem length_writeMember (key : String) (text : List Char) :
    text.length < (writeMember key text).length := by
  rw [writeMember, List.length_append, List.length_cons]
  omega

theorem members_written {key : String} {text : List Char} {j : Json}
    {texts : List (String × List Char)} {js : List (Option String × Json)} (here : Writes text j)
    (each : List.Forall₂ (fun t m => m.1 = some t.1 ∧ Writes t.2 m.2) texts js) {bound : Nat}
    (room : (writeMembers ((key, text) :: texts)).length < bound) (rest : List Char) :
    members bound (writeMembers ((key, text) :: texts) ++ '\x7d' :: rest) =
      some ((some key, j) :: js, rest) := by
  obtain ⟨bound, rfl⟩ : ∃ left, bound = left + 1 := ⟨bound - 1, by omega⟩
  have within := length_writeMember key text
  induction each generalizing key text j bound with
  | nil =>
      rw [writeMembers_singleton] at room
      exact members_last (here.reads bound _ (by omega) (stops_cons (by decide) rest))
  | @cons next member texts js there _ ih =>
      obtain ⟨key', text'⟩ := next
      obtain ⟨_, j'⟩ := member
      obtain ⟨same, (writes : Writes text' j')⟩ := there
      cases same
      rw [writeMembers_cons, List.length_append, List.length_cons] at room
      obtain ⟨bound, rfl⟩ : ∃ left, bound = left + 1 := ⟨bound - 1, by omega⟩
      rw [writeMembers_cons, List.append_assoc, List.cons_append,
        members_more (here.reads _ _ (by omega) (stops_cons (by decide) _)),
        ih writes bound (by omega) (length_writeMember key' text')]
      rfl

theorem value_object_nil (bound : Nat) (rest : List Char) :
    value (bound + 1) ('\x7b' :: '\x7d' :: rest) = some (.object [], rest) := by
  simp only [value, skipBlanks_cons (show isBlank '\x7b' = false by decide),
    skipBlanks_cons (show isBlank '\x7d' = false by decide)]

theorem value_object (bound : Nat) (cs : List Char) : value (bound + 1) ('\x7b' :: '\x22' :: cs) =
    (members bound ('\x22' :: cs)).map fun (found, rest) => (.object found, rest) := by
  simp only [value, skipBlanks_cons (show isBlank '\x7b' = false by decide),
    skipBlanks_cons (show isBlank '\x22' = false by decide)]
  split
  · rename_i same
    exact absurd (List.cons.inj same).1 (by decide)
  · cases members bound ('\x22' :: cs) <;> rfl

theorem exists_writeMembers (key : String) (text : List Char) (texts : List (String × List Char)) :
    ∃ rest, writeMembers ((key, text) :: texts) = '\x22' :: rest := by
  cases texts with
  | nil => exact ⟨_, rfl⟩
  | cons next more => exact ⟨_, rfl⟩

theorem writes_object {texts : List (String × List Char)} {js : List (Option String × Json)}
    (each : List.Forall₂ (fun t m => m.1 = some t.1 ∧ Writes t.2 m.2) texts js) :
    Writes (writeObject texts) (.object js) := by
  refine ⟨⟨_, _, rfl, by decide, by decide, by decide⟩, fun bound rest room _ => ?_⟩
  have written : writeObject texts = '\x7b' :: writeMembers texts ++ ['\x7d'] := rfl
  simp only [written, List.length_cons, List.length_append, List.length_nil] at room
  obtain ⟨bound, rfl⟩ : ∃ left, bound = left + 1 := ⟨bound - 1, by omega⟩
  rw [written, List.cons_append, List.cons_append, List.append_assoc, List.singleton_append]
  cases each with
  | nil => exact value_object_nil bound rest
  | @cons next member texts js there each =>
      obtain ⟨key, text⟩ := next
      obtain ⟨_, j⟩ := member
      obtain ⟨same, (writes : Writes text j)⟩ := there
      cases same
      have found : members bound (writeMembers ((key, text) :: texts) ++ '\x7d' :: rest) =
          some ((some key, j) :: js, rest) := members_written writes each (by omega) rest
      obtain ⟨more, start⟩ := exists_writeMembers key text texts
      rw [start, List.cons_append] at found ⊢
      rw [value_object, found]
      rfl

theorem parse?_of_writes {text : List Char} {j : Json} (writes : Writes text j) :
    parse? text = some j := by
  have found := writes.reads (2 * text.length + 2) [] (by omega) (fun _ front => nomatch front)
  rw [List.append_nil] at found
  rw [parse?, found]
  rfl

end LongestMatch.Json
