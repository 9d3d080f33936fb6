import Wrouter.Token

/-!
# The request lexer

The request is a counted byte range, not a terminated string: the end of the
list is `str + length`. Each call takes one segment; a call that does not yield a
literal leaves the cursor where it was.
-/
namespace Wrouter

open CLib

structure Lexer where
  str : Option Bytes
  cursor : Option Bytes
  length : Nat
  deriving DecidableEq, Repr

def Lexer.zero : Lexer := ⟨none, none, 0⟩

/-- Every field is set, whatever the lexer held before. -/
def lexerLoad (request : Option Bytes) : Lexer :=
  match request with
  | none => .zero
  | some r =>
    if r.length = 0 then .zero
    else if deref r ≠ slash then .zero
    else if r.length > lexerCharLimit then .zero
    else ⟨some r, some r, r.length⟩

/-- Consume until the next '/' or the end; an illegal byte gives none. -/
def lexerScan : Bytes → Option Bytes
  | [] => some []
  | b :: c =>
    if b = slash then some (b :: c)
    else if illegalByte b then none
    else lexerScan c

def lexerNext (lx : Lexer) : Token × Lexer :=
  match lx.cursor with
  | none => (.bare .illegal, lx)
  | some c =>
    if lx.length = 0 then (.bare .illegal, lx)
    else match c with
      | [] => (.bare .end_, lx)
      | b :: start =>
        if b = slash ∧ start = [] then
          -- `c == lx->str`: nothing of the request has been consumed
          let type : TokenType :=
            if (b :: start).length = (lx.str.getD []).length then .end_ else .trailing
          (.bare type, lx)
        else if start ≠ [] ∧ deref start = slash then (.bare .illegal, lx)
        else match lexerScan start with
          | none => (.bare .illegal, lx)
          | some rest =>
            (⟨some start, u16 (start.length - rest.length), .literal⟩, { lx with cursor := some rest })

/-- The tokens of repeated `lexer_next` calls, up to the first that is not a literal. -/
def lexerRun : Nat → Lexer → List Token
  | 0, _ => []
  | fuel + 1, lx =>
    let r := lexerNext lx
    if r.1.type = .literal then r.1 :: lexerRun fuel r.2 else [r.1]

/-- Every literal takes at least its '/', so the length bounds the number of calls. -/
def lexerTokens (request : Bytes) : List Token :=
  lexerRun (request.length + 1) (lexerLoad (some request))

end Wrouter
