import Wrouter.Token

/-!
# The pattern lexer

A resumable scanner over a NUL-terminated pattern. The cursor is the rest of the
pattern; at the end of the list it reads the terminator.
-/
namespace Wrouter

open CLib

structure Prelexer where
  str : Option Bytes
  cursor : Option Bytes
  paramSyntax : ParamSyntax
  deriving DecidableEq, Repr

def Prelexer.zero : Prelexer := ⟨none, none, .colon⟩

def prelexerInit (lx : Prelexer) (paramSyntax : ParamSyntax) : Prelexer :=
  { lx with cursor := none, paramSyntax := paramSyntax }

/-- Every pattern begins with '/'; anything else clears the lexer. -/
def prelexerLoad (lx : Prelexer) (pattern : Option Bytes) : Prelexer :=
  match pattern with
  | none => .zero
  | some p =>
    if deref p = 0 then .zero
    else if deref p ≠ slash then .zero
    else { lx with str := some p, cursor := some p }

/-- The scanning loop of one segment: where it stops, and how many bytes of a
closing delimiter follow. An illegal byte gives none. -/
def prelexerScan (isParam angle brace : Bool) : Bytes → Bytes × Option Nat
  | [] => ([], some 0)
  | b :: c =>
    if b = 0 ∨ b = slash then (b :: c, some 0)
    else if isParam then
      if (b = 62 ∧ angle) ∨ (b = 125 ∧ brace) then (b :: c, some 1)
      else if ¬ isalnum b ∧ b ≠ 95 then (b :: c, none)
      else prelexerScan isParam angle brace c
    else if illegalByte b then (b :: c, none)
    else prelexerScan isParam angle brace c

/-- The tail of `prelexer_next`, from the start of the segment's text. -/
def prelexerText (lx : Prelexer) (type : TokenType) (angle brace : Bool) (start : Bytes) :
    Token × Prelexer :=
  match prelexerScan (type = .param) angle brace start with
  | (c, none) => (.bare .illegal, { lx with cursor := some c })
  | (c, some extra) =>
    let length := start.length - c.length
    if length > lexerCharLimit then (.bare .illegal, { lx with cursor := some c })
    else (⟨some start, u16 length, type⟩, { lx with cursor := some (c.drop extra) })

def prelexerNext (lx : Prelexer) : Token × Prelexer :=
  let angle : Bool := lx.paramSyntax = .angle
  let brace : Bool := lx.paramSyntax = .brace
  let colon : Bool := lx.paramSyntax = .colon
  match lx.cursor with
  | none => (.bare .illegal, lx)
  | some c =>
    if deref c = 0 then (.bare .end_, lx)
    else
      let c := if deref c = slash then c.tail else c
      if deref c = 0 then
        -- `c - 1 == lx->str`: positions in one buffer, told apart by what is left
        let type : TokenType :=
          if c.length + 1 = (lx.str.getD []).length then .end_ else .trailing
        (.bare type, { lx with cursor := some c })
      else if deref c = slash then (.bare .illegal, { lx with cursor := some c })
      else if (deref c = 58 ∧ colon) ∨ (deref c = 60 ∧ angle) ∨ (deref c = 123 ∧ brace) then
        if ¬ isalpha (deref c.tail) then (.bare .illegal, { lx with cursor := some c.tail })
        else prelexerText lx .param angle brace c.tail
      else if deref c = star then
        let type : TokenType :=
          if deref c.tail = 0 ∨ deref c.tail = slash then .wildcard else .illegal
        (.bare type, { lx with cursor := some c.tail })
      else prelexerText lx .literal angle brace c

/-- No call after one of these tokens is of interest to the builder. -/
def TokenType.isFinal (type : TokenType) : Bool :=
  type = .end_ || type = .trailing || type = .illegal

/-- The tokens of repeated `prelexer_next` calls, up to the first final one. -/
def prelexerRun : Nat → Prelexer → List Token
  | 0, _ => []
  | fuel + 1, lx =>
    let r := prelexerNext lx
    if r.1.type.isFinal then [r.1] else r.1 :: prelexerRun fuel r.2

/-- Every call but the last consumes a byte, so the pattern's length bounds their number. -/
def patternTokens (paramSyntax : ParamSyntax) (pattern : Option Bytes) : List Token :=
  prelexerRun ((pattern.getD []).length + 1)
    (prelexerLoad (prelexerInit .zero paramSyntax) pattern)

/-- The pattern by the text of its tokens. -/
def patternWord (paramSyntax : ParamSyntax) (pattern : Bytes) : List Tok :=
  (patternTokens paramSyntax (some pattern)).map Token.tok

/-! ## What the lexer hands out -/

/-- The last token, and only the last, is a final one. -/
def Terminated : List Token → Prop
  | [] => False
  | tok :: toks => if tok.type.isFinal then toks = [] else Terminated toks

theorem prelexerScan_suffix {isParam angle brace : Bool} {start c : Bytes} {extra : Option Nat}
    (h : prelexerScan isParam angle brace start = (c, extra)) :
    ∃ pre, start = pre ++ c ∧ NulFree pre := by
  induction start with
  | nil =>
    exact ⟨[], (Prod.mk.inj h).1, nulFree_nil⟩
  | cons b start ih =>
    have hstep (hb : ¬ (b = 0 ∨ b = slash))
        (h : prelexerScan isParam angle brace start = (c, extra)) :
        ∃ pre, b :: start = pre ++ c ∧ NulFree pre := by
      obtain ⟨pre, rfl, hf⟩ := ih h
      exact ⟨b :: pre, rfl, (nulFree_cons b pre).mpr ⟨fun h0 => hb (Or.inl h0), hf⟩⟩
    have hstop (h : b :: start = c) : ∃ pre, b :: start = pre ++ c ∧ NulFree pre :=
      ⟨[], by simp [h]⟩
    simp only [prelexerScan] at h
    split at h
    · exact hstop (Prod.mk.inj h).1
    rename_i hb
    split at h
    · split at h
      · exact hstop (Prod.mk.inj h).1
      split at h
      · exact hstop (Prod.mk.inj h).1
      · exact hstep hb h
    · split at h
      · exact hstop (Prod.mk.inj h).1
      · exact hstep hb h

/-- A literal scan that does not stop at once consumes a byte. -/
theorem prelexerScan_literal {angle brace : Bool} {start c : Bytes} {extra : Nat}
    (h0 : deref start ≠ 0) (hs : deref start ≠ slash)
    (h : prelexerScan false angle brace start = (c, some extra)) : c.length < start.length := by
  cases start with
  | nil => exact absurd rfl h0
  | cons b start =>
    simp only [deref_cons] at h0 hs
    simp only [prelexerScan, h0, hs, or_self, if_false, Bool.false_eq_true] at h
    split at h
    · simp at h
    · obtain ⟨pre, rfl, -⟩ := prelexerScan_suffix h
      simp only [List.length_append, List.length_cons]
      omega

theorem prelexerText_spec {lx : Prelexer} {type : TokenType} {angle brace : Bool} {start : Bytes} :
    let r := prelexerText lx type angle brace start
    (r.1.type = .literal ∨ r.1.type = .param → r.1.Named) ∧
      (¬ r.1.type.isFinal → ∃ c extra,
        prelexerScan (type = .param) angle brace start = (c, some extra) ∧
        r.2.cursor = some (c.drop extra)) := by
  unfold prelexerText
  split
  · simp [Token.bare, TokenType.isFinal]
  · rename_i c extra hscan
    dsimp only
    split
    · simp [Token.bare, TokenType.isFinal]
    · rename_i hlimit
      refine ⟨fun _ => ?_, fun _ => ⟨c, extra, hscan, rfl⟩⟩
      obtain ⟨pre, rfl, hf⟩ := prelexerScan_suffix hscan
      simp only [List.length_append, Nat.add_sub_cancel, lexerCharLimit] at hlimit
      refine ⟨_, rfl, ?_, ?_⟩
      · simp only [List.length_append, Nat.add_sub_cancel]
        rw [u16_eq (by omega)]
        omega
      · simp only [List.length_append, Nat.add_sub_cancel]
        rw [u16_eq (by omega), List.take_left]
        exact hf

theorem length_pos_of_deref {c : Bytes} (h : deref c ≠ 0) : 0 < c.length := by
  cases c with
  | nil => exact absurd rfl h
  | cons b c => simp

/-- One call: literals and parameters carry their bytes, and unless the token is a
final one, the cursor has moved. -/
theorem prelexerNext_spec (lx : Prelexer) :
    let r := prelexerNext lx
    (r.1.type = .literal ∨ r.1.type = .param → r.1.Named) ∧
      (¬ r.1.type.isFinal → ∃ c c', lx.cursor = some c ∧ r.2.cursor = some c' ∧
        c'.length < c.length) := by
  unfold prelexerNext
  dsimp only
  split
  · simp [Token.bare, TokenType.isFinal]
  rename_i c hcursor
  split
  · simp [Token.bare, TokenType.isFinal]
  rename_i hc
  -- from here on the segment's own bytes, its slash consumed
  have hle : (if deref c = slash then c.tail else c).length ≤ c.length := by
    split <;> simp
  generalize (if deref c = slash then c.tail else c) = d at hle
  split
  · split <;> simp [Token.bare, TokenType.isFinal]
  rename_i hd
  have hpos := length_pos_of_deref hd
  have htail : d.tail.length < d.length := by simp; omega
  split
  · simp [Token.bare, TokenType.isFinal]
  rename_i hslash
  split
  · split
    · simp [Token.bare, TokenType.isFinal]
    · refine ⟨prelexerText_spec.1, fun hfinal => ?_⟩
      obtain ⟨c', extra, hscan, hcur⟩ := prelexerText_spec.2 hfinal
      obtain ⟨pre, hpre, -⟩ := prelexerScan_suffix hscan
      refine ⟨c, _, hcursor, hcur, ?_⟩
      rw [hpre, List.length_append] at htail
      rw [List.length_drop]
      omega
  · split
    · refine ⟨by split <;> simp [Token.bare], fun _ => ⟨c, d.tail, hcursor, rfl, by omega⟩⟩
    · refine ⟨prelexerText_spec.1, fun hfinal => ?_⟩
      obtain ⟨c', extra, hscan, hcur⟩ := prelexerText_spec.2 hfinal
      have := prelexerScan_literal hd hslash (by simpa using hscan)
      refine ⟨c, _, hcursor, hcur, ?_⟩
      rw [List.length_drop]
      omega

theorem prelexerRun_named {fuel : Nat} {lx : Prelexer} :
    ∀ t ∈ prelexerRun fuel lx, t.type = .literal ∨ t.type = .param → t.Named := by
  induction fuel generalizing lx with
  | zero => simp [prelexerRun]
  | succ fuel ih =>
    simp only [prelexerRun]
    split
    · simpa using (prelexerNext_spec lx).1
    · simpa using ⟨(prelexerNext_spec lx).1, ih⟩

/-- Enough calls reach a final token. -/
theorem prelexerRun_terminated {fuel : Nat} {lx : Prelexer}
    (h : ∀ c, lx.cursor = some c → c.length < fuel) (hfuel : 0 < fuel) :
    Terminated (prelexerRun fuel lx) := by
  induction fuel generalizing lx with
  | zero => omega
  | succ fuel ih =>
    simp only [prelexerRun]
    split
    · rename_i hfinal
      simp [Terminated, hfinal]
    · rename_i hfinal
      obtain ⟨c, c', hc, hc', hlt⟩ := (prelexerNext_spec lx).2 hfinal
      have := h c hc
      simp only [Terminated, hfinal, Bool.false_eq_true, if_false]
      refine ih ?_ (by omega)
      intro d hd
      obtain rfl : c' = d := Option.some.inj (hc'.symm.trans hd)
      omega

theorem prelexerLoad_cursor {lx : Prelexer} {pattern : Option Bytes} {c : Bytes}
    (h : (prelexerLoad lx pattern).cursor = some c) : c = pattern.getD [] := by
  unfold prelexerLoad at h
  split at h
  · simp [Prelexer.zero] at h
  split at h
  · simp [Prelexer.zero] at h
  split at h
  · simp [Prelexer.zero] at h
  · simpa [eq_comm] using h

/-- Every pattern comes to a last token. -/
theorem patternTokens_terminated (paramSyntax : ParamSyntax) (pattern : Option Bytes) :
    Terminated (patternTokens paramSyntax pattern) := by
  refine prelexerRun_terminated ?_ (Nat.succ_pos _)
  intro c hc
  rw [prelexerLoad_cursor hc]
  exact Nat.lt_succ_self _

/-- Literals and parameters carry their bytes. -/
theorem patternTokens_named (paramSyntax : ParamSyntax) (pattern : Option Bytes) :
    ∀ t ∈ patternTokens paramSyntax pattern, t.type = .literal ∨ t.type = .param → t.Named :=
  prelexerRun_named

/-- A parameter's name starts with a letter. -/
theorem prelexerText_param {lx : Prelexer} {angle brace : Bool} {start : Bytes}
    (halpha : isalpha (deref start)) :
    let r := prelexerText lx .param angle brace start
    r.1.type = .param → isalpha (deref r.1.text) := by
  unfold prelexerText
  split
  · simp [Token.bare]
  rename_i c extra hscan
  dsimp only
  split
  · simp [Token.bare]
  rename_i hlimit
  intro _
  cases start with
  | nil => exact absurd halpha (by decide)
  | cons b start =>
    rw [deref_cons] at halpha
    have hb : b ≠ 0 ∧ b ≠ slash ∧ b ≠ 62 ∧ b ≠ 125 := by
      refine ⟨?_, ?_, ?_, ?_⟩ <;> rintro rfl <;> exact absurd halpha (by decide)
    have halnum : isalnum b = true := by simp [isalnum, halpha]
    have hstep : prelexerScan true angle brace (b :: start) = prelexerScan true angle brace start := by
      simp [prelexerScan, hb, halnum]
    simp only [decide_true, hstep] at hscan
    obtain ⟨pre, rfl, -⟩ := prelexerScan_suffix hscan
    have hlen : (b :: (pre ++ c)).length - c.length = pre.length + 1 := by
      simp only [List.length_cons, List.length_append]
      omega
    rw [hlen, lexerCharLimit] at hlimit
    rw [Token.text, hlen, u16_eq (by omega)]
    exact halpha

theorem prelexerNext_param (lx : Prelexer) :
    let r := prelexerNext lx
    r.1.type = .param → isalpha (deref r.1.text) := by
  unfold prelexerNext
  dsimp only
  split
  · simp [Token.bare]
  split
  · simp [Token.bare]
  generalize (if deref _ = slash then List.tail _ else _) = d
  split
  · split <;> simp [Token.bare]
  split
  · simp [Token.bare]
  split
  · split
    · simp [Token.bare]
    · rename_i halpha
      exact prelexerText_param (not_not.mp halpha)
  · split
    · split <;> simp [Token.bare]
    · -- a literal
      unfold prelexerText
      split
      · simp [Token.bare]
      · dsimp only
        split <;> simp [Token.bare]

theorem prelexerRun_param {fuel : Nat} {lx : Prelexer} :
    ∀ t ∈ prelexerRun fuel lx, t.type = .param → isalpha (deref t.text) := by
  induction fuel generalizing lx with
  | zero => simp [prelexerRun]
  | succ fuel ih =>
    simp only [prelexerRun]
    split
    · simpa using prelexerNext_param lx
    · simpa using ⟨prelexerNext_param lx, fun t ht => ih t ht⟩

/-- The names in a pattern are strings proper that start with a letter. -/
theorem patternWord_param {paramSyntax : ParamSyntax} {pattern name : Bytes}
    (h : Tok.param name ∈ patternWord paramSyntax pattern) :
    isalpha (deref name) ∧ NulFree name := by
  obtain ⟨t, ht, htok⟩ := List.mem_map.mp h
  have htype : t.type = .param := by
    unfold Token.tok at htok
    split at htok <;> first | assumption | simp at htok
  obtain rfl : t.text = name := by
    rw [Token.tok, htype] at htok
    simpa using htok
  exact ⟨prelexerRun_param t ht htype, (patternTokens_named _ _ t ht (Or.inr htype)).nulFree⟩

end Wrouter
