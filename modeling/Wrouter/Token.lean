import Wrouter.World

/-!
# Tokens

The two lexers hand out tokens that point into their input. `Tok` is the same
token by its text, which is what patterns are compared by.
-/
namespace Wrouter

open CLib

/-- `16 * UINT8_MAX`. -/
def lexerCharLimit : Nat := 16 * 255

/-- A store into a `uint16_t`. -/
def u16 (n : Nat) : Nat := n % 65536

theorem u16_eq {n : Nat} (h : n < 65536) : u16 n = n := Nat.mod_eq_of_lt h

abbrev slash : UInt8 := 47
abbrev star : UInt8 := 42

inductive TokenType where
  | illegal
  | literal
  | param
  | wildcard
  | trailing
  | end_
  deriving DecidableEq, Repr

structure Token where
  ptr : Option Bytes
  length : Nat
  type : TokenType
  deriving DecidableEq, Repr

/-- `token_t tok = { 0 }`, with its type set. -/
def Token.bare (type : TokenType) : Token := ⟨none, 0, type⟩

def Token.text (tok : Token) : Bytes := (tok.ptr.getD []).take tok.length

/-- A token that carries its bytes, with no terminator among them. -/
def Token.Named (tok : Token) : Prop :=
  ∃ p, tok.ptr = some p ∧ tok.length ≤ p.length ∧ NulFree (p.take tok.length)

theorem Token.Named.nulFree {tok : Token} (h : tok.Named) : NulFree tok.text := by
  obtain ⟨p, hp, -, hf⟩ := h
  simpa [Token.text, hp] using hf

theorem Token.Named.length_text {tok : Token} (h : tok.Named) : tok.text.length = tok.length := by
  obtain ⟨p, hp, hl, -⟩ := h
  simp [Token.text, hp, hl]

inductive Tok where
  | literal (s : Bytes)
  | param (name : Bytes)
  | wildcard
  | trailing
  | end_
  | illegal
  deriving DecidableEq, Repr

def Token.tok (tok : Token) : Tok :=
  match tok.type with
  | .literal => .literal tok.text
  | .param => .param tok.text
  | .wildcard => .wildcard
  | .trailing => .trailing
  | .end_ => .end_
  | .illegal => .illegal

/-- A byte no literal may contain. -/
def illegalByte (b : UInt8) : Bool :=
  b == star || b == 35 || b == 63 || isspace b || iscntrl b

theorem illegalByte_zero : illegalByte 0 = true := by decide

end Wrouter
