import LongestMatch.Proofs.Pattern.Body

namespace LongestMatch.Pattern

def hexNumber : List Nat → Nat := List.foldl (fun code digit => code * 16 + digit) 0

inductive Lexeme (dotMatchesAny : Bool) : List Char → Sign → Prop
  | mark {c : Char} {symbol : Symbol} : Symbol.sign? c = some symbol →
      Lexeme dotMatchesAny [c] (Pattern.mark symbol)
  | dot : dotMatchesAny = true → Lexeme dotMatchesAny ['.'] Letter.wildcard.sign
  | plain {c : Char} : Symbol.sign? c = none → c ≠ '\\' → (c = '.' → dotMatchesAny = false) →
      c.toNat ≤ maxCode → Lexeme dotMatchesAny [c] (Letter.code c.toNat).sign
  | escape {c literal : Char} : escaped? c = some literal →
      Lexeme dotMatchesAny ['\\', c] (Letter.code literal.toNat).sign
  | hex {text : List Char} {digits : List Nat} : text.length = 4 →
      text.map Text.hexValue? = digits.map some →
      Lexeme dotMatchesAny ('\\' :: 'u' :: text) (Letter.code (hexNumber digits)).sign

inductive Spells (dotMatchesAny : Bool) : List Char → List Sign → Prop
  | nil : Spells dotMatchesAny [] []
  | cons {lexeme rest : List Char} {sign : Sign} {signs : List Sign} :
      Lexeme dotMatchesAny lexeme sign → Spells dotMatchesAny rest signs →
      Spells dotMatchesAny (lexeme ++ rest) (sign :: signs)

variable {dotMatchesAny : Bool} {text rest lexeme : List Char} {sign : Sign} {offset : Nat}

theorem Lexeme.ne_nil (spelled : Lexeme dotMatchesAny lexeme sign) : lexeme ≠ [] := by
  cases spelled <;> simp

theorem readHex_eq {digits : List Nat} (offset code : Nat) (rest : List Char)
    (values : text.map Text.hexValue? = digits.map some) :
    readHex offset code text.length (text ++ rest) =
      .ok (digits.foldl (fun code digit => code * 16 + digit) code, rest) := by
  induction text generalizing code digits with
  | nil =>
      rw [List.map_eq_nil_iff.1 values.symm]
      rfl
  | cons c text ih =>
      cases digits with
      | nil => cases values
      | cons digit digits =>
          rw [List.map_cons, List.map_cons, List.cons.injEq] at values
          rw [List.length_cons, List.cons_append, readHex, values.1]
          exact ih (code * 16 + digit) values.2

theorem exists_of_readHex {code count value : Nat}
    (read : readHex offset code count text = .ok (value, rest)) :
    ∃ (front : List Char) (digits : List Nat), text = front ++ rest ∧ front.length = count ∧
      front.map Text.hexValue? = digits.map some ∧
        value = digits.foldl (fun code digit => code * 16 + digit) code := by
  induction count generalizing text code with
  | zero =>
      cases read
      exact ⟨[], [], rfl, rfl, rfl, rfl⟩
  | succ count ih =>
      cases text with
      | nil => cases read
      | cons c text =>
          rw [readHex] at read
          split at read
          · rename_i digit known
            obtain ⟨front, digits, rfl, rfl, values, rfl⟩ := ih read
            exact ⟨c :: front, digit :: digits, rfl, rfl, by simp [known, values], rfl⟩
          · cases read

theorem readLetter_backslash (dotMatchesAny : Bool) (offset : Nat) (text : List Char) :
    readLetter dotMatchesAny offset '\\' text =
      (readEscape offset text).map fun (code, rest) => (.code code, rest) := by
  rw [readLetter, if_neg fun dot => absurd dot.1 (by decide), if_pos rfl]

theorem readToken_letter (lexeme : List Char) {c : Char} {letter : Letter} (plain : Symbol.sign? c = none)
    (read : readLetter dotMatchesAny offset c (lexeme ++ rest) = .ok (letter, rest)) :
    readToken dotMatchesAny offset (c :: lexeme ++ rest) =
      .ok (⟨.char, .letter letter, .ofList (c :: lexeme)⟩, rest) := by
  have taken : (c :: lexeme ++ rest).take ((c :: lexeme ++ rest).length - rest.length) = c :: lexeme := by
    rw [List.length_append, Nat.add_sub_cancel, List.take_left]
  rw [List.cons_append] at taken ⊢
  simp only [readToken, plain, read]
  show Except.ok _ = _
  rw [taken]

theorem Lexeme.readToken (spelled : Lexeme dotMatchesAny lexeme sign) (offset : Nat)
    (rest : List Char) : readToken dotMatchesAny offset (lexeme ++ rest) =
      .ok (⟨sign.1, sign.2, .ofList lexeme⟩, rest) := by
  cases spelled with
  | @mark c symbol known =>
      rw [List.singleton_append, Pattern.readToken, known]
      rfl
  | dot any => exact readToken_letter [] rfl (by rw [readLetter, if_pos ⟨rfl, any⟩, List.nil_append])
  | @plain c noMark noEscape noDot bounded =>
      refine readToken_letter [] noMark ?_
      rw [readLetter, if_neg fun dot => ?_, if_neg noEscape, if_neg (Nat.not_lt.2 bounded),
        List.nil_append]
      rw [noDot dot.1] at dot
      cases dot.2
  | @escape c literal known =>
      refine readToken_letter [c] (c := '\\') rfl ?_
      have other : c ≠ 'u' := by
        rintro rfl
        cases known
      rw [readLetter_backslash, List.singleton_append, readEscape, if_neg other, known]
      rfl
  | @hex text digits length values =>
      refine readToken_letter ('u' :: text) (c := '\\') rfl ?_
      rw [readLetter_backslash, List.cons_append, readEscape, if_pos rfl, ← length,
        readHex_eq offset 0 rest values]
      rfl

theorem exists_of_readEscape {code : Nat} (read : readEscape offset text = .ok (code, rest)) :
    ∃ front, text = front ++ rest ∧
      Lexeme dotMatchesAny ('\\' :: front) (Letter.code code).sign := by
  cases text with
  | nil => cases read
  | cons c text =>
      rw [readEscape] at read
      split at read
      · subst c
        obtain ⟨front, digits, rfl, length, values, rfl⟩ := exists_of_readHex read
        exact ⟨'u' :: front, rfl, .hex length values⟩
      · split at read
        · rename_i literal known
          cases read
          exact ⟨[c], rfl, .escape known⟩
        · cases read

theorem exists_of_readLetter {c : Char} {letter : Letter} (plain : Symbol.sign? c = none)
    (read : readLetter dotMatchesAny offset c text = .ok (letter, rest)) :
    ∃ lexeme, c :: text = lexeme ++ rest ∧ Lexeme dotMatchesAny lexeme letter.sign := by
  rw [readLetter] at read
  split at read
  · rename_i dot
    cases read
    exact ⟨[c], rfl, dot.1 ▸ .dot dot.2⟩
  · rename_i noDot
    split at read
    · subst c
      cases escape : readEscape offset text with
      | error e => rw [escape] at read; cases read
      | ok result =>
          rw [escape] at read
          cases read
          obtain ⟨front, rfl, spelled⟩ := exists_of_readEscape escape
          exact ⟨'\\' :: front, rfl, spelled⟩
    · rename_i noEscape
      split at read
      · cases read
      · cases read
        refine ⟨[c], rfl, .plain plain noEscape (fun dot => ?_) (by omega)⟩
        exact Bool.eq_false_iff.2 fun any => noDot ⟨dot, any⟩

theorem exists_lexeme {token : Token} (some : text ≠ [])
    (read : readToken dotMatchesAny offset text = .ok (token, rest)) :
    ∃ lexeme, text = lexeme ++ rest ∧ Lexeme dotMatchesAny lexeme (token.symbol, token.value) := by
  cases text with
  | nil => exact (some rfl).elim
  | cons c text =>
      rw [readToken] at read
      cases known : Symbol.sign? c with
      | some sign =>
          rw [known] at read
          cases read
          exact ⟨[c], rfl, .mark known⟩
      | none =>
          simp only [known] at read
          cases letter : readLetter dotMatchesAny offset c text with
          | error e => rw [letter] at read; cases read
          | ok result =>
              rw [letter] at read
              cases read
              exact exists_of_readLetter known letter

theorem lexeme_of_readToken {token : Token} (some : text ≠ [])
    (read : readToken dotMatchesAny offset text = .ok (token, rest)) :
    Lexeme dotMatchesAny token.text.toList (token.symbol, token.value) ∧
      text = token.text.toList ++ rest := by
  obtain ⟨lexeme, rfl, spelled⟩ := exists_lexeme some read
  have same := Except.ok.inj (read.symm.trans (spelled.readToken offset rest))
  have taken : token.text.toList = lexeme := by
    rw [congrArg (·.1.text) same, String.toList_ofList]
  rw [taken]
  exact ⟨spelled, rfl⟩

theorem append_of_readToken {token : Token}
    (read : readToken dotMatchesAny offset text = .ok (token, rest)) :
    text = token.text.toList ++ rest := by
  by_cases done : text = []
  · subst done
    cases read
    rfl
  · exact (lexeme_of_readToken done read).2

theorem length_lt_of_readToken {token : Token} (some : text ≠ [])
    (read : readToken dotMatchesAny offset text = .ok (token, rest)) : rest.length < text.length := by
  obtain ⟨lexeme, rfl, spelled⟩ := exists_lexeme some read
  rw [List.length_append]
  exact Nat.lt_add_of_pos_left (List.length_pos_of_ne_nil spelled.ne_nil)

def Begins (dotMatchesAny : Bool) (text : List Char) : Prop :=
  ∃ lexeme sign, Lexeme dotMatchesAny lexeme sign ∧ lexeme <+: text

/-- What is wrong with the front of a text that begins at `offset`: the text ends inside an escape
that can still be completed, or the escape is none, whatever comes behind the text, or the first
character is beyond what an automaton can read. -/
inductive Refuses (dotMatchesAny : Bool) (offset : Nat) : List Char → Error → Prop
  | unfinished {text more : List Char} {sign : Sign} :
      Lexeme dotMatchesAny ('\\' :: text ++ more) sign →
      Refuses dotMatchesAny offset ('\\' :: text) .unfinishedEscape
  | unknown {c : Char} {text : List Char} :
      (∀ more, ¬ Begins dotMatchesAny ('\\' :: c :: text ++ more)) →
      Refuses dotMatchesAny offset ('\\' :: c :: text) (.unknownEscape c offset)
  | beyond {c : Char} {text : List Char} : c ≠ '\\' → maxCode < c.toNat →
      Refuses dotMatchesAny offset (c :: text) (.codeOutOfRange c.toNat offset)

theorem Begins.readToken (begins : Begins dotMatchesAny text) (offset : Nat) :
    ∃ result, readToken dotMatchesAny offset text = .ok result := by
  obtain ⟨lexeme, sign, spelled, rest, rfl⟩ := begins
  exact ⟨_, spelled.readToken offset rest⟩

theorem not_begins_of_readToken {e : Error} (failed : readToken dotMatchesAny offset text = .error e) :
    ¬ Begins dotMatchesAny text := by
  intro begins
  obtain ⟨_, read⟩ := begins.readToken offset
  cases failed.symm.trans read

theorem readHex_error {code count : Nat} {e : Error}
    (failed : readHex offset code count text = .error e) :
    (e = .unfinishedEscape ∧ ∃ (more : List Char) (digits : List Nat),
      (text ++ more).length = count ∧ (text ++ more).map Text.hexValue? = digits.map some) ∨
    e = .unknownEscape 'u' offset ∧ ∀ more, readHex offset code count (text ++ more) = .error e := by
  induction count generalizing code text with
  | zero => cases failed
  | succ count ih =>
      cases text with
      | nil =>
          cases failed
          refine .inl ⟨rfl, List.replicate (count + 1) '0', List.replicate (count + 1) 0, ?_, ?_⟩
          · rw [List.nil_append, List.length_replicate]
          · rw [List.nil_append, List.map_replicate, List.map_replicate]
            rfl
      | cons c text =>
          rw [readHex] at failed
          cases known : Text.hexValue? c with
          | none =>
              simp only [known] at failed
              cases failed
              exact .inr ⟨rfl, fun more => by rw [List.cons_append, readHex, known]⟩
          | some digit =>
              simp only [known] at failed
              obtain ⟨rfl, more, digits, length, values⟩ | ⟨rfl, stays⟩ := ih failed
              · refine .inl ⟨rfl, more, digit :: digits, congrArg (· + 1) length, ?_⟩
                rw [List.cons_append, List.map_cons, known, values, List.map_cons]
              · refine .inr ⟨rfl, fun more => ?_⟩
                rw [List.cons_append, readHex, known]
                exact stays more

theorem readEscape_error (dotMatchesAny : Bool) {e : Error}
    (failed : readEscape offset text = .error e) :
    (e = .unfinishedEscape ∧ ∃ more sign, Lexeme dotMatchesAny ('\\' :: text ++ more) sign) ∨
    ∃ c rest, text = c :: rest ∧ e = .unknownEscape c offset ∧
      ∀ more, readEscape offset (text ++ more) = .error e := by
  cases text with
  | nil =>
      cases failed
      exact .inl ⟨rfl, ['n'], _, .escape rfl⟩
  | cons c text =>
      rw [readEscape] at failed
      split at failed
      · subst c
        obtain ⟨rfl, more, digits, length, values⟩ | ⟨rfl, stays⟩ := readHex_error failed
        · exact .inl ⟨rfl, more, _, .hex length values⟩
        · exact .inr ⟨'u', text, rfl, rfl, stays⟩
      · rename_i other
        split at failed
        · cases failed
        · rename_i unknown
          cases failed
          refine .inr ⟨c, text, rfl, rfl, fun more => ?_⟩
          rw [List.cons_append, readEscape, if_neg other, unknown]

theorem readToken_error {c : Char} {e : Error} (plain : Symbol.sign? c = none)
    (failed : readLetter dotMatchesAny offset c text = .error e) :
    readToken dotMatchesAny offset (c :: text) = .error e := by
  simp only [readToken, plain, failed]
  rfl

theorem readToken_backslash_error {e : Error} (failed : readEscape offset text = .error e) :
    readToken dotMatchesAny offset ('\\' :: text) = .error e :=
  readToken_error rfl (by rw [readLetter_backslash, failed]; rfl)

theorem refuses_of_readLetter {c : Char} {e : Error}
    (failed : readLetter dotMatchesAny offset c text = .error e) :
    Refuses dotMatchesAny offset (c :: text) e := by
  by_cases escape : c = '\\'
  · subst escape
    rw [readLetter_backslash] at failed
    cases read : readEscape offset text with
    | ok result =>
        rw [read] at failed
        cases failed
    | error e' =>
        rw [read] at failed
        cases failed
        obtain ⟨rfl, more, sign, spelled⟩ | ⟨c, rest, rfl, rfl, stays⟩ :=
          readEscape_error dotMatchesAny read
        · exact .unfinished spelled
        · exact .unknown fun more => not_begins_of_readToken (readToken_backslash_error (stays more))
  · rw [readLetter, if_neg escape] at failed
    split at failed
    · cases failed
    · split at failed <;> cases failed
      exact .beyond escape ‹_›

theorem refuses_of_readToken {e : Error} (failed : readToken dotMatchesAny offset text = .error e) :
    Refuses dotMatchesAny offset text e := by
  cases text with
  | nil => cases failed
  | cons c rest =>
      rw [readToken] at failed
      split at failed
      · cases failed
      cases letter : readLetter dotMatchesAny offset c rest with
      | ok result =>
          rw [letter] at failed
          cases failed
      | error e' =>
          rw [letter] at failed
          cases failed
          exact refuses_of_readLetter letter

theorem hexValue?_lt {c : Char} {digit : Nat} (known : Text.hexValue? c = some digit) :
    digit < 16 := by
  rw [Text.hexValue?] at known
  have value : ∀ {lower upper : Char}, lower ≤ c ∧ c ≤ upper →
      lower.toNat ≤ c.toNat ∧ c.toNat ≤ upper.toNat := fun between =>
    ⟨UInt32.le_iff_toNat_le.1 between.1, UInt32.le_iff_toNat_le.1 between.2⟩
  split at known
  · have := value ‹_›
    cases known
    simp at this ⊢
    omega
  · split at known
    · have := value ‹_›
      cases known
      simp at this ⊢
      omega
    · split at known
      · have := value ‹_›
        cases known
        simp at this ⊢
        omega
      · cases known

theorem foldl_hex_lt {digits : List Nat} (small : ∀ digit ∈ digits, digit < 16) (code : Nat) :
    digits.foldl (fun code digit => code * 16 + digit) code < (code + 1) * 16 ^ digits.length := by
  induction digits generalizing code with
  | nil => simp
  | cons digit digits ih =>
      have first := small digit List.mem_cons_self
      rw [List.foldl_cons, List.length_cons, Nat.pow_succ']
      calc _ < (code * 16 + digit + 1) * 16 ^ digits.length :=
            ih (fun d member => small d (List.mem_cons_of_mem _ member)) _
        _ ≤ ((code + 1) * 16) * 16 ^ digits.length := Nat.mul_le_mul_right _ (by omega)
        _ = (code + 1) * (16 * 16 ^ digits.length) := Nat.mul_assoc ..

theorem sign?_le {c : Char} {symbol : Symbol} (known : Symbol.sign? c = some symbol) :
    c.toNat ≤ maxCode := by
  unfold Symbol.sign? at known
  split at known <;> first | decide | cases known

theorem escaped?_le {c literal : Char} (known : escaped? c = some literal) :
    literal.toNat ≤ maxCode := by
  rw [escaped?] at known
  split at known
  · cases known; decide
  · split at known
    · cases known; decide
    · split at known
      · cases known; decide
      · split at known
        · rename_i shown
          cases known
          rcases shown with sign | other
          · obtain ⟨symbol, known⟩ := Option.isSome_iff_exists.1 sign
            exact sign?_le known
          · rcases List.mem_cons.1 other with rfl | other
            · decide
            · rcases List.mem_pair.1 other with rfl | rfl <;> decide
        · cases known

theorem Lexeme.code_le {n : Nat} (spelled : Lexeme dotMatchesAny lexeme (Letter.code n).sign) :
    n ≤ maxCode := by
  generalize equal : (Letter.code n).sign = sign at spelled
  cases spelled with
  | mark _ => cases equal
  | dot _ => cases equal
  | plain _ _ _ bounded => cases equal; exact bounded
  | escape known => cases equal; exact escaped?_le known
  | @hex text digits length values =>
      cases equal
      have size := congrArg List.length values
      rw [List.length_map, List.length_map, length] at size
      have small : ∀ digit ∈ digits, digit < 16 := by
        intro digit member
        have member : some digit ∈ text.map Text.hexValue? := by
          rw [values]
          exact List.mem_map_of_mem member
        obtain ⟨c, _, known⟩ := List.mem_map.1 member
        exact hexValue?_lt known
      have := foldl_hex_lt small 0
      rw [← size] at this
      exact Nat.le_of_lt_succ this

end LongestMatch.Pattern
