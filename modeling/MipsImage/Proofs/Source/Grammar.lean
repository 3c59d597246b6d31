/-
The grammar of operands.

  operands   ::=  nothing  |  operand (separator operand)*
  operand    ::=  register  |  integer  |  '(' register ')'  |  name [('+' | '-') integer]
  separator  ::=  ','  |  nothing, between an integer and an operand that begins with '('

A derivation is data: it holds the tokens it stands for and the operands they mean, and
only what the grammar allows can be built.  Reading the tokens of a derivation gives its
operands (`Derivation.parse_tokens`), and tokens that can be read have a derivation
(`exists_derivation`).  Both go through the single operand, where all that has to be known
about what follows it is that no sign stands there.
-/
import Mathlib
import MipsImage.Source.Operand

namespace MipsImage

/-- A token of a given kind. -/
abbrev Terminal (kind : TokenKind) := { t : Token // t.kind = kind }

namespace Operand

/-! ## Derivations -/

/-- One operand. -/
inductive Phrase where
  | register (number : Register) (t : Terminal (.register number))
  | integer (value : Word) (t : Terminal (.integer value))
  | parenthesis (opening : Terminal .leftParen) (number : Register)
      (inner : Terminal (.register number)) (closing : Terminal .rightParen)
  | label (name : Terminal .identifier)
  | sum (name : Terminal .identifier) (sign : Terminal .plus) (value : Word)
      (offset : Terminal (.integer value))
  | difference (name : Terminal .identifier) (sign : Terminal .minus) (value : Word)
      (offset : Terminal (.integer value))

namespace Phrase

def tokens : Phrase → List Token
  | register _ t => [t]
  | integer _ t => [t]
  | parenthesis opening _ inner closing => [opening, inner, closing]
  | label name => [name]
  | sum name sign _ offset => [name, sign, offset]
  | difference name sign _ offset => [name, sign, offset]

/-- What the operand means. -/
def operand : Phrase → Operand
  | register number t => .register t number
  | integer value t => .integer t value
  | parenthesis _ number inner _ => .parenRegister inner number
  | label name => .label name 0
  | sum name _ value _ => .label name value
  | difference name _ value _ => .label name (-value)

/-- The token an operand begins with. -/
def first : Phrase → Token
  | register _ t => t
  | integer _ t => t
  | parenthesis opening _ _ _ => opening
  | label name => name
  | sum name _ _ _ => name
  | difference name _ _ _ => name

end Phrase

/-- What may come after an operand. -/
inductive Tail : Phrase → Type where
  | done {p : Phrase} : Tail p
  | comma {p : Phrase} (separator : Terminal .comma) (next : Phrase) (rest : Tail next) : Tail p
  | joined {p : Phrase} (integer : p.operand.isInteger = true) (next : Phrase)
      (opens : next.first.kind = .leftParen) (rest : Tail next) : Tail p

namespace Tail

def tokens {p : Phrase} : Tail p → List Token
  | done => []
  | comma separator next rest => separator :: (next.tokens ++ rest.tokens)
  | joined _ next _ rest => next.tokens ++ rest.tokens

def operands {p : Phrase} : Tail p → List Operand
  | done => []
  | comma _ next rest => next.operand :: rest.operands
  | joined _ next _ rest => next.operand :: rest.operands

end Tail

/-- The operands of a line. -/
inductive Derivation where
  | empty
  | operands (first : Phrase) (rest : Tail first)

namespace Derivation

def tokens : Derivation → List Token
  | empty => []
  | operands first rest => first.tokens ++ rest.tokens

/-- The operands in the order in which they are written. -/
def yield : Derivation → List Operand
  | empty => []
  | operands first rest => first.operand :: rest.operands

end Derivation

/-! ## One operand -/

/-- No sign stands at the front. -/
def Unsigned (ts : List Token) : Prop :=
  ∀ t ∈ ts.head?, t.kind ≠ .plus ∧ t.kind ≠ .minus

/-- The constant after a label is a sign and an integer, or it is left out. -/
theorem takeOffset_cases (ts : List Token) :
    takeOffset ts = (0, ts) ∨
    (∃ sign value v rest, ts = sign :: value :: rest ∧ sign.kind = .plus ∧
      value.kind = .integer v ∧ takeOffset ts = (v, rest)) ∨
    ∃ sign value v rest, ts = sign :: value :: rest ∧ sign.kind = .minus ∧
      value.kind = .integer v ∧ takeOffset ts = (-v, rest) := by
  rcases ts with _ | ⟨sign, _ | ⟨value, rest⟩⟩
  · exact .inl rfl
  · exact .inl rfl
  · simp only [takeOffset]
    split
    · rename_i v hsign hvalue
      exact .inr (.inl ⟨sign, value, v, rest, rfl, hsign, hvalue, rfl⟩)
    · rename_i v hsign hvalue
      exact .inr (.inr ⟨sign, value, v, rest, rfl, hsign, hvalue, by rw [UInt32.zero_sub]⟩)
    · exact .inl rfl

theorem takeOffset_of_unsigned {ts : List Token} (h : Unsigned ts) : takeOffset ts = (0, ts) := by
  rcases takeOffset_cases ts with heq | ⟨sign, value, v, rest, rfl, hsign, -⟩ |
    ⟨sign, value, v, rest, rfl, hsign, -⟩
  · exact heq
  · exact absurd hsign (h sign rfl).1
  · exact absurd hsign (h sign rfl).2

/-- A register between parentheses is all that is read after an opening one. -/
theorem takeParenthesis_eq_ok {opening : Token} {rest after : List Token} {op : Operand}
    (h : takeParenthesis opening rest = .ok (op, after)) :
    ∃ inner number closing, rest = inner :: closing :: after ∧ inner.kind = .register number ∧
      closing.kind = .rightParen ∧ op = parenRegister inner number := by
  cases rest with
  | nil => cases h
  | cons inner rest =>
    cases hk : inner.kind with
    | register number =>
      rw [takeParenthesis, hk] at h
      cases rest with
      | nil => cases h
      | cons closing rest =>
        dsimp only at h
        split_ifs at h with hclosing
        cases h
        exact ⟨inner, number, closing, rfl, hk, hclosing, rfl⟩
    | _ =>
      rw [takeParenthesis, hk] at h
      cases h

theorem takeParenthesis_eq_error {opening : Token} {rest : List Token} {fault : Fault}
    (h : takeParenthesis opening rest = .error fault) : fault.token ∈ opening :: rest := by
  cases rest with
  | nil =>
    cases h
    exact List.mem_cons_self
  | cons inner rest =>
    cases hk : inner.kind with
    | register number =>
      rw [takeParenthesis, hk] at h
      cases rest with
      | nil =>
        cases h
        exact List.mem_cons_self
      | cons closing rest =>
        dsimp only at h
        split_ifs at h
        cases h
        exact List.mem_cons_self
    | _ =>
      rw [takeParenthesis, hk] at h
      cases h
      exact List.mem_cons_of_mem _ List.mem_cons_self

/-- An operand is read off the front, whatever follows it without a sign. -/
theorem take_phrase (p : Phrase) {after : List Token} (h : Unsigned after) :
    ∃ rest, p.tokens ++ after = p.first :: rest ∧ take p.first rest = .ok (p.operand, after) := by
  cases p with
  | register number t =>
    refine ⟨after, rfl, ?_⟩
    simp only [Phrase.first, take, t.property]
    rfl
  | integer value t =>
    refine ⟨after, rfl, ?_⟩
    simp only [Phrase.first, take, t.property]
    rfl
  | parenthesis opening number inner closing =>
    refine ⟨inner :: closing :: after, rfl, ?_⟩
    simp only [Phrase.first, take, opening.property, takeParenthesis, inner.property,
      closing.property]
    rfl
  | label name =>
    refine ⟨after, rfl, ?_⟩
    simp only [Phrase.first, take, name.property, takeOffset_of_unsigned h]
    rfl
  | sum name sign value offset =>
    refine ⟨sign :: offset :: after, rfl, ?_⟩
    simp only [Phrase.first, take, name.property, takeOffset, sign.property, offset.property]
    rfl
  | difference name sign value offset =>
    refine ⟨sign :: offset :: after, rfl, ?_⟩
    simp only [Phrase.first, take, name.property, takeOffset, sign.property, offset.property,
      UInt32.zero_sub]
    rfl

/-- What can be read off the front is an operand of the grammar. -/
theorem exists_phrase {t : Token} {rest after : List Token} {op : Operand}
    (h : take t rest = .ok (op, after)) :
    ∃ p : Phrase, p.operand = op ∧ p.tokens ++ after = t :: rest := by
  cases hk : t.kind with
  | register number =>
    rw [take, hk] at h
    cases h
    exact ⟨.register number ⟨t, hk⟩, rfl, rfl⟩
  | integer value =>
    rw [take, hk] at h
    cases h
    exact ⟨.integer value ⟨t, hk⟩, rfl, rfl⟩
  | leftParen =>
    rw [take, hk] at h
    obtain ⟨inner, number, closing, rfl, hinner, hclosing, rfl⟩ := takeParenthesis_eq_ok h
    exact ⟨.parenthesis ⟨t, hk⟩ number ⟨inner, hinner⟩ ⟨closing, hclosing⟩, rfl, rfl⟩
  | identifier =>
    rw [take, hk] at h
    rcases takeOffset_cases rest with heq | ⟨sign, value, v, rest, rfl, hsign, hvalue, heq⟩ |
      ⟨sign, value, v, rest, rfl, hsign, hvalue, heq⟩
    · rw [heq] at h
      cases h
      exact ⟨.label ⟨t, hk⟩, rfl, rfl⟩
    · rw [heq] at h
      cases h
      exact ⟨.sum ⟨t, hk⟩ ⟨sign, hsign⟩ v ⟨value, hvalue⟩, rfl, rfl⟩
    · rw [heq] at h
      cases h
      exact ⟨.difference ⟨t, hk⟩ ⟨sign, hsign⟩ v ⟨value, hvalue⟩, rfl, rfl⟩
  | _ =>
    rw [take, hk] at h
    cases h

theorem take_eq_error {t : Token} {rest : List Token} {fault : Fault}
    (h : take t rest = .error fault) : fault.token ∈ t :: rest := by
  cases hk : t.kind with
  | register number =>
    rw [take, hk] at h
    cases h
  | integer value =>
    rw [take, hk] at h
    cases h
  | leftParen =>
    rw [take, hk] at h
    exact takeParenthesis_eq_error h
  | identifier =>
    rw [take, hk] at h
    cases h
  | _ =>
    rw [take, hk] at h
    cases h
    exact List.mem_cons_self

/-! ## Reading a derivation -/

theorem Phrase.tokens_ne_nil (p : Phrase) : p.tokens ≠ [] := by
  cases p <;> exact List.cons_ne_nil _ _

theorem Phrase.head?_tokens (p : Phrase) (ts : List Token) :
    (p.tokens ++ ts).head? = some p.first := by
  cases p <;> rfl

/-- After an operand comes a comma, an opening parenthesis or the end. -/
theorem Tail.unsigned {p : Phrase} (r : Tail p) : Unsigned r.tokens := by
  intro t ht
  cases r with
  | done => cases ht
  | comma separator next rest =>
    cases ht
    rw [separator.property]
    exact ⟨by decide, by decide⟩
  | joined integer next opens rest =>
    rw [tokens, Phrase.head?_tokens] at ht
    cases ht
    rw [opens]
    exact ⟨by decide, by decide⟩

theorem parse_last {t : Token} {rest : List Token} {op : Operand}
    (h : take t rest = .ok (op, [])) : parse (t :: rest) = .ok [op] := by
  rw [parse]
  split <;> simp_all

theorem parse_comma {t comma : Token} {rest more : List Token} {op : Operand} {ops : List Operand}
    (h : take t rest = .ok (op, comma :: more)) (hcomma : comma.kind = .comma) (hne : more ≠ [])
    (hmore : parse more = .ok ops) : parse (t :: rest) = .ok (op :: ops) := by
  rw [parse]
  split <;> simp_all

theorem parse_offset {t opening : Token} {rest more : List Token} {op : Operand}
    {ops : List Operand} (h : take t rest = .ok (op, opening :: more))
    (hopening : opening.kind = .leftParen) (hop : op.isInteger = true)
    (hmore : parse (opening :: more) = .ok ops) : parse (t :: rest) = .ok (op :: ops) := by
  rw [parse]
  split <;> simp_all

theorem Tail.parse_tokens {p : Phrase} (r : Tail p) :
    parse (p.tokens ++ r.tokens) = .ok (p.operand :: r.operands) := by
  induction r with
  | done =>
    rename_i p
    obtain ⟨rest, htokens, htake⟩ := take_phrase p (Tail.unsigned (.done : Tail p))
    rw [htokens]
    exact parse_last htake
  | comma separator next more ih =>
    rename_i p
    obtain ⟨rest, htokens, htake⟩ := take_phrase p (Tail.unsigned (.comma separator next more))
    rw [htokens]
    have hne : next.tokens ++ more.tokens ≠ [] :=
      List.append_ne_nil_of_left_ne_nil next.tokens_ne_nil _
    exact parse_comma htake separator.property hne ih
  | joined integer next opens more ih =>
    rename_i p
    obtain ⟨rest, htokens, htake⟩ := take_phrase p (Tail.unsigned (.joined integer next opens more))
    obtain ⟨after, hafter⟩ := List.head?_eq_some_iff.mp (next.head?_tokens more.tokens)
    rw [htokens]
    rw [tokens, hafter] at htake
    rw [hafter] at ih
    exact parse_offset htake opens integer ih

theorem Derivation.parse_tokens (d : Derivation) : parse d.tokens = .ok d.yield := by
  cases d with
  | empty => rw [tokens, parse, yield]
  | operands first rest => exact rest.parse_tokens

/-! ## Deriving what is read -/

/-- Tokens that can be read have a derivation, and mean what it yields. -/
theorem exists_derivation {ts : List Token} {ops : List Operand} (h : parse ts = .ok ops) :
    ∃ d : Derivation, d.tokens = ts ∧ d.yield = ops := by
  fun_induction parse ts generalizing ops with
  | case1 =>
    cases h
    exact ⟨.empty, rfl, rfl⟩
  | case3 t rest op taken =>
    cases h
    obtain ⟨p, rfl, htokens⟩ := exists_phrase taken
    exact ⟨.operands p .done, htokens, rfl⟩
  | case6 t rest op separator more taken hcomma hmore ops' hparse ih =>
    cases h
    obtain ⟨p, rfl, htokens⟩ := exists_phrase taken
    obtain ⟨d, rfl, rfl⟩ := ih hparse
    cases d with
    | empty => exact absurd rfl hmore
    | operands next after =>
      exact ⟨.operands p (.comma ⟨separator, hcomma⟩ next after), htokens, rfl⟩
  | case8 t rest op separator more taken _ hjoined ops' hparse ih =>
    cases h
    obtain ⟨p, rfl, htokens⟩ := exists_phrase taken
    obtain ⟨d, hd, rfl⟩ := ih hparse
    cases d with
    | empty => cases hd
    | operands next after =>
      have hfirst : next.first = separator := by
        have hhead := next.head?_tokens after.tokens
        rw [Derivation.tokens] at hd
        rw [hd] at hhead
        exact (Option.some.inj hhead).symm
      refine ⟨.operands p (.joined hjoined.2 next (hfirst ▸ hjoined.1) after), ?_, rfl⟩
      rw [Derivation.tokens] at hd
      rw [Derivation.tokens, Tail.tokens, hd, htokens]
  | case2 | case4 | case5 | case7 | case9 => cases h

theorem mem_of_take {t : Token} {rest after : List Token} {op : Operand}
    (h : take t rest = .ok (op, after)) {x : Token} (hx : x ∈ after) : x ∈ t :: rest := by
  obtain ⟨p, -, htokens⟩ := exists_phrase h
  rw [← htokens]
  exact List.mem_append_right _ hx

/-- A failed reading blames one of the tokens. -/
theorem mem_of_parse_eq_error {ts : List Token} {fault : Fault} (h : parse ts = .error fault) :
    fault.token ∈ ts := by
  fun_induction parse ts with
  | case2 t rest fault' taken =>
    cases h
    exact take_eq_error taken
  | case4 t rest op separator more taken =>
    cases h
    exact mem_of_take taken List.mem_cons_self
  | case5 t rest op separator more taken _ _ fault' hparse ih =>
    cases h
    exact mem_of_take taken (List.mem_cons_of_mem _ (ih hparse))
  | case7 t rest op separator more taken _ _ fault' hparse ih =>
    cases h
    exact mem_of_take taken (ih hparse)
  | case9 t rest op separator more taken =>
    cases h
    exact mem_of_take taken List.mem_cons_self
  | case1 | case3 | case6 | case8 => cases h

/-! ## One derivation -/

theorem Phrase.tokens_injective {p q : Phrase} (h : p.tokens = q.tokens) : p = q := by
  cases p <;> cases q <;> grind [Phrase.tokens]

/-- Where an operand ends is settled by its tokens and the lack of a sign after them. -/
theorem Phrase.append_inj {p q : Phrase} {ts us : List Token} (hts : Unsigned ts)
    (hus : Unsigned us) (h : p.tokens ++ ts = q.tokens ++ us) : p = q ∧ ts = us := by
  obtain ⟨rest, hp, htake⟩ := take_phrase p hts
  obtain ⟨rest', hq, htake'⟩ := take_phrase q hus
  rw [hp, hq] at h
  obtain ⟨hfirst, rfl⟩ := List.cons.inj h
  rw [hfirst, htake'] at htake
  have hsame : us = ts := (Prod.mk.inj (Except.ok.inj htake)).2
  subst hsame
  refine ⟨tokens_injective (List.append_cancel_right (hp.trans ?_)), rfl⟩
  rw [hq, hfirst]

theorem Phrase.ne_comma {next : Phrase} (opens : next.first.kind = .leftParen)
    (separator : Terminal .comma) (ts us : List Token) :
    next.tokens ++ ts ≠ separator.val :: us := by
  intro h
  have hhead := congrArg List.head? h
  rw [head?_tokens, List.head?_cons] at hhead
  have hkind := congrArg Token.kind (Option.some.inj hhead)
  rw [opens, separator.property] at hkind
  cases hkind

theorem Tail.tokens_injective {p : Phrase} {r r' : Tail p} (h : r.tokens = r'.tokens) : r = r' := by
  induction r with
  | done =>
    cases r' with
    | done => rfl
    | comma => cases h
    | joined integer next opens rest =>
      exact absurd h.symm (List.append_ne_nil_of_left_ne_nil next.tokens_ne_nil _)
  | comma separator next rest ih =>
    cases r' with
    | done => cases h
    | comma separator' next' rest' =>
      obtain ⟨hseparator, hrest⟩ := List.cons.inj h
      obtain ⟨rfl, htokens⟩ := Phrase.append_inj rest.unsigned rest'.unsigned hrest
      rw [Subtype.ext hseparator, ih htokens]
    | joined integer next' opens rest' => exact absurd h.symm (Phrase.ne_comma opens _ _ _)
  | joined integer next opens rest ih =>
    cases r' with
    | done => exact absurd h (List.append_ne_nil_of_left_ne_nil next.tokens_ne_nil _)
    | comma separator next' rest' => exact absurd h (Phrase.ne_comma opens _ _ _)
    | joined integer' next' opens' rest' =>
      obtain ⟨rfl, htokens⟩ := Phrase.append_inj rest.unsigned rest'.unsigned h
      rw [ih htokens]

theorem Derivation.tokens_injective {d d' : Derivation} (h : d.tokens = d'.tokens) : d = d' := by
  cases d with
  | empty =>
    cases d' with
    | empty => rfl
    | operands first rest =>
      exact absurd h.symm (List.append_ne_nil_of_left_ne_nil first.tokens_ne_nil _)
  | operands first rest =>
    cases d' with
    | empty => exact absurd h (List.append_ne_nil_of_left_ne_nil first.tokens_ne_nil _)
    | operands first' rest' =>
      obtain ⟨rfl, htokens⟩ := Phrase.append_inj rest.unsigned rest'.unsigned h
      rw [Tail.tokens_injective htokens]

/-- Tokens are read as operands exactly if they can be derived.  They can be derived in one
way only, which yields the operands; all others are refused with one of them to blame. -/
theorem parse_derives (ts : List Token) :
    (∀ ops, parse ts = .ok ops ↔ ∃ d : Derivation, d.tokens = ts ∧ d.yield = ops) ∧
    (∀ d d' : Derivation, d.tokens = ts → d'.tokens = ts → d = d') ∧
    ((∀ d : Derivation, d.tokens ≠ ts) → ∃ fault, parse ts = .error fault ∧ fault.token ∈ ts) := by
  refine ⟨fun ops => ⟨exists_derivation, ?_⟩, fun d d' hd hd' => ?_, fun hnone => ?_⟩
  · rintro ⟨d, rfl, rfl⟩
    exact d.parse_tokens
  · exact Derivation.tokens_injective (hd.trans hd'.symm)
  · cases hparse : parse ts with
    | ok ops =>
      obtain ⟨d, hd, -⟩ := exists_derivation hparse
      exact absurd hd (hnone d)
    | error fault => exact ⟨fault, rfl, mem_of_parse_eq_error hparse⟩

/-- `$t0, 8($sp), x-4` has one derivation, and `$t0 $t1` has none: its second token is to
blame. -/
theorem parse_derives_offset :
    let word (kind : TokenKind) (literal : String) : Token := ⟨kind, literal, ⟨"word.s", 1, 1⟩⟩
    let base := word (.register 29) "$sp"
    let ts := [word (.register 8) "$t0", word .comma ",", word (.integer 8) "8",
      word .leftParen "(", base, word .rightParen ")", word .comma ",", word .identifier "x",
      word .minus "-", word (.integer 4) "4"]
    let us := [word (.register 8) "$t0", word (.register 9) "$t1"]
    (∃! d : Derivation, d.tokens = ts ∧ d.yield = [.register (word (.register 8) "$t0") 8,
      .integer (word (.integer 8) "8") 8, .parenRegister base 29,
      .label (word .identifier "x") 0xfffffffc]) ∧
      ∃ fault, parse us = .error fault ∧ fault.token ∈ us := by
  intro word base ts us
  obtain ⟨hread, hunique, -⟩ := parse_derives ts
  obtain ⟨hother, -, hrefused⟩ := parse_derives us
  obtain ⟨hts, hus⟩ : (parse ts).toOption = some [.register (word (.register 8) "$t0") 8,
      .integer (word (.integer 8) "8") 8, .parenRegister base 29,
      .label (word .identifier "x") 0xfffffffc] ∧ (parse us).toOption = none := by
    decide +kernel
  constructor
  · cases hparse : parse ts with
    | error fault =>
      rw [hparse] at hts
      cases hts
    | ok ops =>
      rw [hparse] at hts
      cases hts
      obtain ⟨d, hd, hyield⟩ := (hread _).mp hparse
      exact ⟨d, ⟨hd, hyield⟩, fun d' hd' => hunique d' d hd'.1 hd⟩
  · refine hrefused fun d hd => ?_
    rw [(hother d.yield).mpr ⟨d, hd, rfl⟩] at hus
    cases hus

end Operand
end MipsImage
