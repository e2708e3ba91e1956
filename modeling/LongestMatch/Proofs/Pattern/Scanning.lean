import LongestMatch.Proofs.Pattern.Accepted
import LongestMatch.Proofs.Pattern.States

namespace LongestMatch.Pattern

inductive Scanned (dotMatchesAny : Bool) :
    (offset : Nat) → (text : List Char) → List Token → (offset' : Nat) → (rest : List Char) → Prop
  | stop (offset : Nat) (text : List Char) : Scanned dotMatchesAny offset text [] offset text
  | read {offset offset' : Nat} {text text' rest : List Char} {token : Token} {tokens : List Token} :
      text ≠ [] → readToken dotMatchesAny offset text = .ok (token, text') →
      Scanned dotMatchesAny (offset + token.text.utf8ByteSize) text' tokens offset' rest →
      Scanned dotMatchesAny offset text (token :: tokens) offset' rest

def tokenSigns (tokens : List Token) : List Sign := tokens.map fun token => (token.symbol, token.value)

@[simp]
theorem tokenSigns_append (tokens more : List Token) :
    tokenSigns (tokens ++ more) = tokenSigns tokens ++ tokenSigns more := List.map_append

def tokenKinds (tokens : List Token) : List Symbol := tokens.map (·.symbol)

@[simp]
theorem tokenKinds_append (tokens more : List Token) :
    tokenKinds (tokens ++ more) = tokenKinds tokens ++ tokenKinds more := List.map_append

theorem kinds_tokenSigns (tokens : List Token) : kinds (tokenSigns tokens) = tokenKinds tokens := by
  simp [kinds, tokenSigns, tokenKinds]

variable {dotMatchesAny : Bool} {offset offset' : Nat} {text rest lexeme : List Char}
  {tokens : List Token} {token : Token} {sign : Sign} {signs more : List Sign}

theorem Lexeme.plain_sign (spelled : Lexeme dotMatchesAny lexeme sign) : Plain sign := by
  cases spelled with
  | @mark c symbol known =>
      refine .symbol fun char => ?_
      unfold Symbol.sign? at known
      split at known <;> cases known <;> cases char
  | dot _ => exact .letter (by decide)
  | plain noMark noEscape noDot bounded => exact .letter bounded
  | escape known => exact .letter (escaped?_le known)
  | hex length values =>
      have spelled : Lexeme dotMatchesAny _ _ := .hex length values
      exact .letter spelled.code_le

theorem Lexeme.terminal (spelled : Lexeme dotMatchesAny lexeme sign) : sign.1 ∈ terminals := by
  cases spelled with
  | @mark c symbol known =>
      unfold Symbol.sign? at known
      split at known <;> cases known <;> decide
  | dot _ | plain _ _ _ _ | escape _ | hex _ _ => exact (by decide : Symbol.char ∈ terminals)

theorem terminal_of_readToken (read : readToken dotMatchesAny offset text = .ok (token, rest)) :
    token.symbol ∈ terminals := by
  by_cases done : text = []
  · rw [done] at read
    cases read
    exact (by decide : Symbol.endMark ∈ terminals)
  · obtain ⟨lexeme, _, spelled⟩ := exists_lexeme done read
    exact spelled.terminal

inductive Unreadable : Error → Prop
  | unknownEscape (escape : Char) (offset : Nat) : Unreadable (.unknownEscape escape offset)
  | unfinishedEscape : Unreadable .unfinishedEscape
  | codeOutOfRange (code offset : Nat) : Unreadable (.codeOutOfRange code offset)

theorem unreadable_of_readToken {e : Error} (read : readToken dotMatchesAny offset text = .error e) :
    Unreadable e := by
  cases refuses_of_readToken read with
  | unfinished _ => exact .unfinishedEscape
  | unknown _ => exact .unknownEscape _ _
  | beyond _ _ => exact .codeOutOfRange _ _

theorem Spells.plain_signs (spells : Spells dotMatchesAny text signs) : ∀ sign ∈ signs, Plain sign := by
  induction spells with
  | nil => exact List.forall_mem_nil _
  | cons lexeme _ ih => exact List.forall_mem_cons.2 ⟨lexeme.plain_sign, ih⟩

theorem Spells.unique (spells : Spells dotMatchesAny text signs)
    (other : Spells dotMatchesAny text more) : signs = more := by
  induction spells generalizing more with
  | nil =>
      generalize none : ([] : List Char) = text at other
      cases other with
      | nil => rfl
      | cons lexeme _ => exact (lexeme.ne_nil (List.append_eq_nil_iff.1 none.symm).1).elim
  | @cons lexeme rest sign signs spelled _ ih =>
      generalize same : lexeme ++ rest = text at other
      cases other with
      | nil => exact (spelled.ne_nil (List.append_eq_nil_iff.1 same).1).elim
      | @cons lexeme' rest' sign' more spelled' others =>
          have read := spelled.readToken 0 rest
          rw [same, spelled'.readToken 0 rest'] at read
          obtain ⟨symbol, value⟩ := sign
          obtain ⟨symbol', value'⟩ := sign'
          simp only [Except.ok.injEq, Prod.mk.injEq, Parse.Token.mk.injEq] at read
          obtain ⟨⟨rfl, rfl, _⟩, rfl⟩ := read
          rw [ih others]

theorem exists_spells (few : ∀ sign ∈ signs, sign ∈ closers) (dotMatchesAny : Bool) :
    ∃ text, Spells dotMatchesAny text signs := by
  have spelled : ∀ sign ∈ closers, ∃ lexeme, Lexeme dotMatchesAny lexeme sign := by
    intro sign member
    simp only [closers, List.mem_cons, List.not_mem_nil, or_false] at member
    rcases member with rfl | rfl | rfl
    · exact ⟨[Char.ofNat maxCode], .plain (by decide) (by decide) (fun dot => absurd dot (by decide))
        (by decide)⟩
    · exact ⟨[']'], .mark rfl⟩
    · exact ⟨[')'], .mark rfl⟩
  induction signs with
  | nil => exact ⟨[], .nil⟩
  | cons sign signs ih =>
      obtain ⟨lexeme, first⟩ := spelled sign (few sign List.mem_cons_self)
      obtain ⟨text, rest⟩ := ih fun sign member => few sign (List.mem_cons_of_mem _ member)
      exact ⟨lexeme ++ text, .cons first rest⟩

namespace Scanned

theorem of_nil (scanned : Scanned dotMatchesAny offset text [] offset' rest) :
    offset = offset' ∧ text = rest := by
  cases scanned
  exact ⟨rfl, rfl⟩

theorem exists_front (scanned : Scanned dotMatchesAny offset text tokens offset' rest) :
    ∃ front, text = front ++ rest ∧ Spells dotMatchesAny front (tokenSigns tokens) ∧
      ∀ other, Scanned dotMatchesAny offset (front ++ other) tokens offset' other := by
  induction scanned with
  | stop offset text => exact ⟨[], rfl, .nil, fun other => .stop offset other⟩
  | @read offset offset' text text' rest token tokens some read _ ih =>
      obtain ⟨front, rfl, spells, others⟩ := ih
      obtain ⟨lexeme, rfl, spelled⟩ := exists_lexeme some read
      refine ⟨lexeme ++ front, (List.append_assoc ..).symm, .cons spelled spells, fun other => ?_⟩
      have same := spelled.readToken offset (front ++ rest)
      rw [read] at same
      rw [List.append_assoc]
      refine .read (fun none => spelled.ne_nil (List.append_eq_nil_iff.1 none).1) ?_ (others other)
      rw [spelled.readToken offset (front ++ other)]
      cases token
      cases same
      rfl

theorem concat (scanned : Scanned dotMatchesAny offset text tokens offset' rest) (some : rest ≠ [])
    {rest' : List Char} (read : readToken dotMatchesAny offset' rest = .ok (token, rest')) :
    Scanned dotMatchesAny offset text (tokens ++ [token]) (offset' + token.text.utf8ByteSize)
      rest' := by
  induction scanned with
  | stop offset text => exact .read some read (.stop _ _)
  | read more first _ ih => exact .read more first (ih some read)

theorem exists_of_concat
    (scanned : Scanned dotMatchesAny offset text (tokens ++ [token]) offset' rest) :
    ∃ o r, Scanned dotMatchesAny offset text tokens o r ∧ r ≠ [] ∧
      readToken dotMatchesAny o r = .ok (token, rest) ∧ offset' = o + token.text.utf8ByteSize := by
  induction tokens generalizing offset text with
  | nil =>
      cases scanned with
      | read some read rest =>
          cases rest
          exact ⟨_, _, .stop _ _, some, read, rfl⟩
  | cons first tokens ih =>
      cases scanned with
      | read some read rest =>
          obtain ⟨o, r, front, last⟩ := ih rest
          exact ⟨o, r, .read some read front, last⟩

theorem endMark_notMem (scanned : Scanned dotMatchesAny offset text tokens offset' rest) :
    .endMark ∉ tokenKinds tokens := by
  induction scanned with
  | stop offset text => exact List.not_mem_nil
  | read some read _ ih =>
      obtain ⟨lexeme, _, spelled⟩ := exists_lexeme some read
      exact List.not_mem_cons_of_ne_of_not_mem spelled.ne_endMark.symm ih

theorem unique (scanned : Scanned dotMatchesAny offset text tokens offset' rest) {others : List Token}
    {offset'' : Nat} {rest' : List Char}
    (scanned' : Scanned dotMatchesAny offset text others offset'' rest')
    (length : others.length = tokens.length) : others = tokens ∧ offset'' = offset' ∧ rest' = rest := by
  induction scanned generalizing others with
  | stop offset text =>
      obtain rfl := List.length_eq_zero_iff.1 length
      obtain ⟨rfl, rfl⟩ := scanned'.of_nil
      exact ⟨rfl, rfl, rfl⟩
  | read some read _ ih =>
      cases scanned' with
      | stop => cases length
      | read some' read' next =>
          rw [read] at read'
          cases read'
          obtain ⟨rfl, same⟩ := ih next (Nat.succ.inj length)
          exact ⟨rfl, same⟩

theorem length_le (scanned : Scanned dotMatchesAny offset text tokens offset' rest) :
    tokens.length + rest.length ≤ text.length := by
  obtain ⟨front, rfl, spells, _⟩ := scanned.exists_front
  have := spells.length_le
  simp only [tokenSigns, List.length_map, List.length_append] at this ⊢
  omega

end Scanned

end LongestMatch.Pattern
