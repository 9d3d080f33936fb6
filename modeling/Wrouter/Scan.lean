import Wrouter.Patterns

/-!
# The request lexer on its buffer

What every call of the request lexer yields, and the lexer once more with its reads
guarded: a byte is read only where the request has one. The request need not be
terminated, so the end of the buffer is all that stops the scan.
-/
namespace Wrouter

open CLib

def lexerAfter (lx : Lexer) : Nat → Lexer
  | 0 => lx
  | n + 1 => lexerAfter (lexerNext lx).2 n

def lexerCall (r : Bytes) (n : Nat) : Token := (lexerNext (lexerAfter (lexerLoad (some r)) n)).1

/-! ## Guarded reads

The cursor is an offset into the request, none in a lexer that refused it. -/

def lexerLoadRead (r : Bytes) : Option (Option Nat) :=
  if r.length = 0 then some none
  else match r[0]? with
    | none => none
    | some b =>
      if b ≠ slash then some none
      else if r.length > lexerCharLimit then some none
      else some (some 0)

/-- `c < end && *c == '/'`. -/
def slashRead (r : Bytes) (i : Nat) : Option Bool :=
  if i < r.length then r[i]?.map fun b => decide (b = slash) else some false

/-- The scan from offset `i`; none where it reads outside the request, `some none` where it
meets an illegal byte. -/
def lexerScanRead (r : Bytes) (i : Nat) : Option (Option Nat) :=
  if i < r.length then
    match r[i]? with
    | none => none
    | some b =>
      if b = slash then some (some i)
      else if illegalByte b then some none
      else lexerScanRead r (i + 1)
  else some (some i)
termination_by r.length - i

def lexerNextRead (r : Bytes) (cursor : Option Nat) : Option (Token × Option Nat) :=
  match cursor with
  | none => some (.bare .illegal, none)
  | some i =>
    if r.length = 0 then some (.bare .illegal, cursor)
    else if i = r.length then some (.bare .end_, cursor)
    else match r[i]? with
      | none => none
      | some b =>
        if b = slash ∧ i = r.length - 1 then
          some (.bare (if i = 0 then .end_ else .trailing), cursor)
        else match slashRead r (i + 1) with
          | none => none
          | some true => some (.bare .illegal, cursor)
          | some false =>
            match lexerScanRead r (i + 1) with
            | none => none
            | some none => some (.bare .illegal, cursor)
            | some (some stop) =>
              some (⟨some (r.drop (i + 1)), u16 (stop - (i + 1)), .literal⟩, some stop)

def lexerAfterRead (r : Bytes) (cursor : Option Nat) : Nat → Option (Option Nat)
  | 0 => some cursor
  | n + 1 =>
    match lexerNextRead r cursor with
    | none => none
    | some t => lexerAfterRead r t.2 n

def lexerCallRead (r : Bytes) (n : Nat) : Option Token :=
  ((lexerLoadRead r).bind fun cursor => lexerAfterRead r cursor n).bind fun cursor =>
    (lexerNextRead r cursor).map Prod.fst

def LexerAt (r : Bytes) (lx : Lexer) : Option Nat → Prop
  | none => lx = .zero
  | some i => r ≠ [] ∧ i ≤ r.length ∧ lx = ⟨some r, some (r.drop i), r.length⟩

/-- The guarded scan never reads past the end, and stops where the plain one stops. -/
theorem lexerScanRead_eq {r : Bytes} {i : Nat} (hi : i ≤ r.length) :
    (lexerScan (r.drop i) = none ∧ lexerScanRead r i = some none) ∨
    ∃ stop, i ≤ stop ∧ stop ≤ r.length ∧ lexerScan (r.drop i) = some (r.drop stop) ∧
      lexerScanRead r i = some (some stop) := by
  induction hn : r.length - i generalizing i with
  | zero =>
    obtain rfl : i = r.length := by omega
    refine Or.inr ⟨r.length, le_rfl, le_rfl, ?_, ?_⟩
    · rw [List.drop_length]
      rfl
    · rw [lexerScanRead, if_neg (lt_irrefl _)]
  | succ n ih =>
    have hlt : i < r.length := by omega
    have hdrop : r.drop i = r[i] :: r.drop (i + 1) := List.drop_eq_getElem_cons hlt
    have hget : r[i]? = some r[i] := List.getElem?_eq_getElem hlt
    by_cases hslash : r[i] = slash
    · refine Or.inr ⟨i, le_rfl, hi, ?_, ?_⟩
      · rw [hdrop, lexerScan, if_pos hslash]
      · rw [lexerScanRead, if_pos hlt, hget]
        exact if_pos hslash
    by_cases hbyte : illegalByte r[i]
    · refine Or.inl ⟨?_, ?_⟩
      · rw [hdrop, lexerScan, if_neg hslash, if_pos hbyte]
      · rw [lexerScanRead, if_pos hlt, hget]
        dsimp only
        rw [if_neg hslash, if_pos hbyte]
    · have hread : lexerScanRead r i = lexerScanRead r (i + 1) := by
        rw [lexerScanRead, if_pos hlt, hget]
        dsimp only
        rw [if_neg hslash, if_neg hbyte]
      rw [hread, hdrop, lexerScan, if_neg hslash, if_neg hbyte]
      refine (ih (by omega) (by omega)).imp_right ?_
      rintro ⟨stop, hle, hrest⟩
      exact ⟨stop, by omega, hrest⟩

theorem slashRead_eq (r : Bytes) (i : Nat) :
    slashRead r i = some (decide (r.drop i ≠ [] ∧ deref (r.drop i) = slash)) := by
  by_cases hlt : i < r.length
  · have hne : r.drop i ≠ [] := by simpa using hlt
    have hbyte : deref (r.drop i) = r[i] := by
      rw [List.drop_eq_getElem_cons hlt]
      rfl
    rw [slashRead, if_pos hlt, List.getElem?_eq_getElem hlt, hbyte]
    simp [hne]
  · rw [slashRead, if_neg hlt, List.drop_of_length_le (Nat.not_lt.mp hlt)]
    simp

/-- No guard fails in a call, and the guarded call does what the call does. -/
theorem lexerNextRead_eq {r : Bytes} {lx : Lexer} {cursor : Option Nat}
    (h : LexerAt r lx cursor) : ∃ next, lexerNextRead r cursor = some ((lexerNext lx).1, next) ∧
      LexerAt r (lexerNext lx).2 next := by
  cases cursor with
  | none =>
    obtain rfl : lx = .zero := h
    exact ⟨none, rfl, rfl⟩
  | some i =>
    obtain ⟨hne, hi, rfl⟩ := h
    have hlen : r.length ≠ 0 := fun h0 => hne (List.eq_nil_of_length_eq_zero h0)
    have hstay : LexerAt r ⟨some r, some (r.drop i), r.length⟩ (some i) := ⟨hne, hi, rfl⟩
    by_cases hend : i = r.length
    · have hnext : lexerNext ⟨some r, some (r.drop i), r.length⟩ =
          (.bare .end_, ⟨some r, some (r.drop i), r.length⟩) := by
        rw [hend, List.drop_length]
        simp [lexerNext, hlen]
      rw [hnext]
      exact ⟨some i, by simp [lexerNextRead, hlen, hend], hstay⟩
    have hlt : i < r.length := by omega
    have hdrop : r.drop i = r[i] :: r.drop (i + 1) := List.drop_eq_getElem_cons hlt
    have hget : r[i]? = some r[i] := List.getElem?_eq_getElem hlt
    have hlast : r.drop (i + 1) = [] ↔ i = r.length - 1 := by
      rw [List.drop_eq_nil_iff]
      omega
    have hstart : (r[i] :: r.drop (i + 1)).length = r.length ↔ i = 0 := by
      rw [← hdrop, List.length_drop]
      omega
    rw [lexerNextRead, if_neg hlen, if_neg hend, hget, slashRead_eq]
    by_cases hroot : r[i] = slash ∧ i = r.length - 1
    · have hnext : lexerNext ⟨some r, some (r.drop i), r.length⟩ =
          (.bare (if i = 0 then .end_ else .trailing), ⟨some r, some (r.drop i), r.length⟩) := by
        rw [hdrop, lexerNext]
        dsimp only
        rw [if_neg hlen, if_pos ⟨hroot.1, hlast.mpr hroot.2⟩, Option.getD_some]
        simp only [hstart]
      rw [hnext]
      exact ⟨some i, if_pos hroot, hstay⟩
    dsimp only
    rw [if_neg hroot]
    rw [← hlast] at hroot
    by_cases hdouble : r.drop (i + 1) ≠ [] ∧ deref (r.drop (i + 1)) = slash
    · have hnext : lexerNext ⟨some r, some (r.drop i), r.length⟩ =
          (.bare .illegal, ⟨some r, some (r.drop i), r.length⟩) := by
        rw [hdrop, lexerNext]
        dsimp only
        rw [if_neg hlen, if_neg hroot, if_pos hdouble]
      rw [hnext, decide_eq_true hdouble]
      exact ⟨some i, rfl, hstay⟩
    rw [decide_eq_false hdouble]
    rcases lexerScanRead_eq (Nat.succ_le_of_lt hlt) with ⟨hscan, hread⟩ | ⟨stop, hle, hstop, hscan, hread⟩
    · have hnext : lexerNext ⟨some r, some (r.drop i), r.length⟩ =
          (.bare .illegal, ⟨some r, some (r.drop i), r.length⟩) := by
        rw [hdrop, lexerNext]
        dsimp only
        rw [if_neg hlen, if_neg hroot, if_neg hdouble, hscan]
      rw [hnext, hread]
      exact ⟨some i, rfl, hstay⟩
    · have hnext : lexerNext ⟨some r, some (r.drop i), r.length⟩ =
          (⟨some (r.drop (i + 1)), u16 (stop - (i + 1)), .literal⟩,
            ⟨some r, some (r.drop stop), r.length⟩) := by
        rw [hdrop, lexerNext]
        dsimp only
        rw [if_neg hlen, if_neg hroot, if_neg hdouble, hscan]
        simp only [List.length_drop]
        rw [show r.length - (i + 1) - (r.length - stop) = stop - (i + 1) by omega]
      rw [hnext, hread]
      exact ⟨some stop, rfl, hne, hstop, rfl⟩

theorem lexerLoadRead_eq (r : Bytes) :
    ∃ cursor, lexerLoadRead r = some cursor ∧ LexerAt r (lexerLoad (some r)) cursor := by
  by_cases h : r.head? = some slash ∧ r.length ≤ lexerCharLimit
  · obtain ⟨hhead, hlen⟩ := h
    rw [lexerLoad_legal hhead hlen]
    obtain ⟨start, rfl⟩ := List.head?_eq_some_iff.mp hhead
    refine ⟨some 0, ?_, by simp, by simp, rfl⟩
    simpa [lexerLoadRead] using hlen
  · rw [lexerLoad_illegal h]
    refine ⟨none, ?_, rfl⟩
    cases r with
    | nil => rfl
    | cons b start =>
      by_cases hb : b = slash
      · simpa [lexerLoadRead, hb] using h
      · simp [lexerLoadRead, hb]

theorem lexerAfterRead_eq {r : Bytes} {lx : Lexer} {cursor : Option Nat} (h : LexerAt r lx cursor)
    (n : Nat) : ∃ next, lexerAfterRead r cursor n = some next ∧ LexerAt r (lexerAfter lx n) next := by
  induction n generalizing lx cursor with
  | zero => exact ⟨cursor, rfl, h⟩
  | succ n ih =>
    obtain ⟨next, hread, hnext⟩ := lexerNextRead_eq h
    obtain ⟨last, hrun, hlast⟩ := ih hnext
    exact ⟨last, by rw [lexerAfterRead, hread]; exact hrun, hlast⟩

/-- Every call reads inside the request only. -/
theorem lexerCallRead_eq (r : Bytes) (n : Nat) : lexerCallRead r n = some (lexerCall r n) := by
  obtain ⟨cursor, hload, hcursor⟩ := lexerLoadRead_eq r
  obtain ⟨last, hrun, hlast⟩ := lexerAfterRead_eq hcursor n
  obtain ⟨next, hread, -⟩ := lexerNextRead_eq hlast
  rw [lexerCallRead, hload, Option.bind_some, hrun, Option.bind_some, hread]
  rfl

/-! ## The tokens of the calls -/

/-- A call that yields no literal leaves the lexer as it is. -/
theorem lexerNext_final {lx : Lexer} (h : (lexerNext lx).1.type ≠ .literal) :
    (lexerNext lx).2 = lx := by
  revert h
  fun_cases lexerNext lx <;> simp

theorem lexerAfter_final {lx : Lexer} (h : (lexerNext lx).1.type ≠ .literal) (n : Nat) :
    lexerAfter lx n = lx := by
  induction n with
  | zero => rfl
  | succ n ih => rw [lexerAfter, lexerNext_final h, ih]

/-- The calls yield the tokens of the run, and the last of them ever after. -/
theorem lexerRun_calls {fuel : Nat} {lx : Lexer} {xs : List Token} {t : Token}
    (h : lexerRun fuel lx = xs ++ [t]) (hxs : ∀ x ∈ xs, x.type = .literal) (ht : t.type ≠ .literal)
    (n : Nat) : (lexerNext (lexerAfter lx n)).1 = xs[n]?.getD t := by
  induction xs generalizing fuel lx n with
  | nil =>
    obtain ⟨fuel, rfl⟩ : ∃ k, fuel = k + 1 := by
      cases fuel with
      | zero => simp [lexerRun] at h
      | succ k => exact ⟨k, rfl⟩
    have hnext : (lexerNext lx).1 = t := by
      rw [lexerRun] at h
      split at h <;> exact (List.cons.inj h).1
    rw [lexerAfter_final (hnext ▸ ht), hnext]
    rfl
  | cons x xs ih =>
    obtain ⟨hx, hxs⟩ := List.forall_mem_cons.mp hxs
    obtain ⟨fuel, rfl⟩ : ∃ k, fuel = k + 1 := by
      cases fuel with
      | zero => simp [lexerRun] at h
      | succ k => exact ⟨k, rfl⟩
    rw [lexerRun] at h
    split at h
    · obtain ⟨hnext, hrest⟩ := List.cons.inj h
      cases n with
      | zero => exact hnext
      | succ n => exact ih hrest hxs n
    · rename_i hfinal
      rw [(List.cons.inj h).1] at hfinal
      exact absurd hx hfinal

/-- The calls go through the segments, and then say the same for ever. -/
theorem lexerCall_eq (r : Bytes) (n : Nat) :
    lexerCall r n = (requestTokens r)[n]?.getD (Token.bare (parseRequest r).fin) := by
  refine lexerRun_calls (lexerTokens_eq r) (fun t ht => ?_) (parse_fin_ne r) n
  exact (requestTokens_literal ht).1

/-- The token of a segment: its bytes where they stand in the request. -/
theorem segmentTokens_get {start : Bytes} {ss : List Bytes} (h : ss <+: start.splitOn slash)
    {n : Nat} {s : Bytes} (hn : ss[n]? = some s) : ∃ k, (segmentTokens start ss)[n]? =
      some ⟨some (start.drop k), s.length, .literal⟩ ∧ k + s.length ≤ start.length ∧
        (start.drop k).take s.length = s := by
  induction ss generalizing start n with
  | nil => simp at hn
  | cons x ss ih =>
    obtain ⟨y, ps, hsplit, -, hstart⟩ := splitOn_cases start
    rw [hsplit, List.cons_prefix_cons] at h
    obtain ⟨rfl, h⟩ := h
    cases n with
    | zero =>
      obtain rfl : x = s := by simpa using hn
      refine ⟨0, rfl, ?_, ?_⟩
      · rcases hstart with ⟨rfl, -⟩ | ⟨rest, rfl, -⟩ <;> simp
      · rcases hstart with ⟨rfl, -⟩ | ⟨rest, rfl, -⟩ <;> simp
    | succ n =>
      rw [List.getElem?_cons_succ] at hn
      rcases hstart with ⟨rfl, rfl⟩ | ⟨rest, rfl, rfl⟩
      · rw [List.prefix_nil.mp h] at hn
        simp at hn
      · have hdrop : (x ++ slash :: rest).drop (x.length + 1) = rest := by
          rw [List.drop_append, List.drop_of_length_le (by omega),
            show x.length + 1 - x.length = 1 by omega]
          rfl
        obtain ⟨k, hget, hlen, htext⟩ := ih h hn
        refine ⟨x.length + 1 + k, ?_, ?_, ?_⟩
        · rw [segmentTokens, List.getElem?_cons_succ, hdrop, hget, ← List.drop_drop, hdrop]
        · simp only [List.length_append, List.length_cons]
          omega
        · rw [← List.drop_drop, hdrop, htext]

/-- The calls yield the segments, and then one token again and again. Each literal points
into the request, and its length is that of the segment. -/
structure Yields (r : Bytes) (segs : List Bytes) (fin : TokenType) : Prop where
  literal : ∀ n s, segs[n]? = some s → ∃ k, lexerCall r n = ⟨some (r.drop k), s.length, .literal⟩ ∧
    k + s.length ≤ r.length ∧ (r.drop k).take s.length = s
  last : ∀ n, segs.length ≤ n → lexerCall r n = Token.bare fin

/-- What the lexer yields is what the request parses to. -/
theorem yields_parse (r : Bytes) : Yields r (parseRequest r).segments (parseRequest r).fin := by
  have hprefix := parse_segments r
  refine ⟨fun n s hs => ?_, fun n hn => ?_⟩
  · cases r with
    | nil => simp [parseRequest] at hs
    | cons b start =>
      obtain ⟨k, hget, hlen, htext⟩ := segmentTokens_get hprefix hs
      refine ⟨k + 1, ?_, by simp only [List.length_cons, List.tail_cons] at hlen ⊢; omega, htext⟩
      rw [lexerCall_eq, requestTokens, hget]
      rfl
  · rw [lexerCall_eq, List.getElem?_eq_none (by rwa [← requestTokens_text, List.length_map] at hn)]
    rfl

/-- The requests that the lexer follows to their end are the root and the lists of legal
segments; of any other it yields the leading legal segments. No byte outside the request
is read. -/
theorem request_grammar (r : Bytes) :
    (r = [slash] → Yields r [] .end_) ∧
    (∀ (segs : List Bytes) (trailing : Bool), segs ≠ [] →
      (∀ s ∈ segs, slash ∉ s ∧ legalSegment s) → r = pathOf segs ++ lastSlash trailing →
      r.length ≤ lexerCharLimit → Yields r segs (if trailing then .trailing else .end_)) ∧
    ((r ≠ [slash] ∧ ∀ (segs : List Bytes) (trailing : Bool), segs ≠ [] →
      (∀ s ∈ segs, slash ∉ s ∧ legalSegment s) → r = pathOf segs ++ lastSlash trailing →
      lexerCharLimit < r.length) → Yields r (parseRequest r).segments .illegal) ∧
    ∀ n, lexerCallRead r n = some (lexerCall r n) := by
  have hyields := yields_parse r
  refine ⟨?_, ?_, ?_, lexerCallRead_eq r⟩
  · rintro rfl
    exact hyields
  · rintro segs trailing hne hlegal rfl hlen
    have hnil : pathOf segs ++ lastSlash trailing ≠ [] := by
      obtain ⟨s, ss, rfl⟩ := List.exists_cons_of_ne_nil hne
      simp [pathOf]
    rw [parse_path (lastSlash_cases trailing) hnil hlegal hlen] at hyields
    cases trailing <;> simpa [lastSlash, hne] using hyields
  · rintro ⟨hroot, hno⟩
    by_cases hfin : (parseRequest r).fin = .illegal
    · rwa [hfin] at hyields
    · obtain ⟨hlen, hfree, rest, hrest, hpath⟩ := path_of_parse hfin
      obtain ⟨trailing, rfl⟩ := lastSlash_of hrest
      by_cases hne : (parseRequest r).segments = []
      · rw [hne] at hpath
        cases trailing with
        | false => exact absurd (by rw [hpath]; rfl) hfin
        | true => exact absurd hpath hroot
      · have hlong := hno _ trailing hne (fun s hs => ⟨hfree s hs, parse_legal r s hs⟩) hpath
        omega

end Wrouter
