/-
Operands as written: registers, registers in parentheses, integers, and labels
with a constant offset.  Operands are separated by commas, except that an
integer may stand right before a register in parentheses.
-/
import MipsImage.Source.Token

namespace MipsImage

inductive Operand where
  | register (token : Token) (number : Register)
  /-- The token is that of the register inside the parentheses. -/
  | parenRegister (token : Token) (number : Register)
  | integer (token : Token) (value : Word)
  | label (token : Token) (offset : Word)
  deriving DecidableEq, Repr

/-- What is wrong with the operands of a line. -/
inductive OperandError where
  | unclosedParenthesis
  | notARegister
  | invalidOperand (found : String)
  | missingOperand
  | missingComma (found : String)
  deriving DecidableEq, Repr

namespace OperandError

def message : OperandError → String
  | unclosedParenthesis => "Unclosed parenthesis"
  | notARegister => "Parentheses can only contain CPU registers"
  | invalidOperand found => "Invalid operand '" ++ found ++ "'"
  | missingOperand => "Expected an operand after ','"
  | missingComma found => "Expected ',' but found '" ++ found ++ "'"

end OperandError

namespace Operand

def token : Operand → Token
  | register t _ | parenRegister t _ | integer t _ | label t _ => t

def isInteger : Operand → Bool
  | integer _ _ => true
  | _ => false

def isParenRegister : Operand → Bool
  | parenRegister _ _ => true
  | _ => false

/-- An offset as it follows a label: nothing for zero, else with its sign. -/
def renderOffset (offset : Word) : String :=
  let value := Word.signed offset
  if value = 0 then ""
  else if 0 < value then "+" ++ Text.integer value
  else Text.integer value

def render : Operand → String
  | register t _ | integer t _ => t.literal
  | parenRegister t _ => "(" ++ t.literal ++ ")"
  | label t offset => t.literal ++ renderOffset offset

/-! ## Reading -/

/-- A failed reading: the token to blame, and why. -/
structure Fault where
  token : Token
  error : OperandError
  deriving DecidableEq, Repr

/-- The constant after a label: a sign and an integer, or nothing. -/
def takeOffset : List Token → Word × List Token
  | sign :: value :: rest =>
    match sign.kind, value.kind with
    | .plus, .integer v => (v, rest)
    | .minus, .integer v => (0 - v, rest)
    | _, _ => (0, sign :: value :: rest)
  | ts => (0, ts)

/-- A register in parentheses, after the opening one. -/
def takeParenthesis (opening : Token) : List Token → Except Fault (Operand × List Token)
  | [] => .error { token := opening, error := .unclosedParenthesis }
  | inner :: rest =>
    match inner.kind with
    | .register number =>
      match rest with
      | closing :: rest =>
        if closing.kind = .rightParen then .ok (parenRegister inner number, rest)
        else .error { token := opening, error := .unclosedParenthesis }
      | [] => .error { token := opening, error := .unclosedParenthesis }
    | _ => .error { token := inner, error := .notARegister }

/-- The operand that begins with `t`, and the tokens after it. -/
def take (t : Token) (rest : List Token) : Except Fault (Operand × List Token) :=
  match t.kind with
  | .register number => .ok (register t number, rest)
  | .integer value => .ok (integer t value, rest)
  | .leftParen => takeParenthesis t rest
  | .identifier => .ok (label t (takeOffset rest).1, (takeOffset rest).2)
  | _ => .error { token := t, error := .invalidOperand t.literal }

theorem length_takeOffset_le (ts : List Token) : (takeOffset ts).2.length ≤ ts.length := by
  unfold takeOffset
  split
  · split <;> simp <;> omega
  · simp

theorem length_le_of_takeParenthesis {opening : Token} {rest after : List Token} {op : Operand}
    (h : takeParenthesis opening rest = .ok (op, after)) : after.length ≤ rest.length := by
  unfold takeParenthesis at h
  split at h
  · cases h
  · split at h
    · split at h
      · split at h
        · cases h
          simp only [List.length_cons]
          omega
        · cases h
      · cases h
    · cases h

theorem length_le_of_take {t : Token} {rest after : List Token} {op : Operand}
    (h : take t rest = .ok (op, after)) : after.length ≤ rest.length := by
  cases hk : t.kind <;> rw [take, hk] at h
  case leftParen => exact length_le_of_takeParenthesis h
  case identifier =>
    cases h
    exact length_takeOffset_le rest
  all_goals
    cases h <;> exact Nat.le_refl _

/-- The operands that make up the tokens of a line after its mnemonic. -/
def parse : List Token → Except Fault (List Operand)
  | [] => .ok []
  | t :: rest =>
    match _taken : take t rest with
    | .error fault => .error fault
    | .ok (op, []) => .ok [op]
    | .ok (op, separator :: more) =>
      if separator.kind = .comma then
        if more.isEmpty then .error { token := separator, error := .missingOperand }
        else
          match parse more with
          | .error fault => .error fault
          | .ok ops => .ok (op :: ops)
      else if separator.kind = .leftParen ∧ op.isInteger then
        match parse (separator :: more) with
        | .error fault => .error fault
        | .ok ops => .ok (op :: ops)
      else .error { token := separator, error := .missingComma separator.literal }
termination_by ts => ts.length
decreasing_by
  · have := length_le_of_take _taken
    simp only [List.length_cons] at this ⊢
    omega
  · have := length_le_of_take _taken
    simp only [List.length_cons] at this ⊢
    omega

end Operand
end MipsImage
