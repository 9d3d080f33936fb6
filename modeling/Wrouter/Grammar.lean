import Wrouter.Prelexer
import Wrouter.Request

/-!
# The grammar of patterns

What the pattern lexer takes for a literal, a parameter or a wildcard, as a grammar of
its own: pieces spelt one after the other, most of them behind a '/'. The lexer hands out
the pieces of the longest beginning that the grammar spells.
-/
namespace Wrouter

open CLib

def opening : ParamSyntax → UInt8
  | .colon => 58
  | .brace => 123
  | .angle => 60

def closing : ParamSyntax → Option UInt8
  | .colon => none
  | .brace => some 125
  | .angle => some 62

def nameByte (b : UInt8) : Bool := isalnum b || b == 95

/-- `[A-Za-z][A-Za-z0-9_]*`. -/
def validName : Bytes → Bool
  | [] => false
  | b :: s => isalpha b && s.all nameByte

inductive Piece where
  | literal (s : Bytes)
  | param (name : Bytes) (closed : Bool)
  | wildcard
  deriving DecidableEq, Repr

variable (σ : ParamSyntax)

def closer (closed : Bool) : Bytes := if closed then (closing σ).toList else []

def Piece.text : Piece → Bytes
  | .literal s => s
  | .param name closed => opening σ :: (name ++ closer σ closed)
  | .wildcard => [star]

def Piece.tok : Piece → Tok
  | .literal s => .literal s
  | .param name _ => .param name
  | .wildcard => .wildcard

/-- The token of a piece, its pointer into what is left of the pattern. -/
def Piece.token (rest : Bytes) : Piece → Token
  | .literal s => ⟨some (s ++ rest), s.length, .literal⟩
  | .param name closed => ⟨some (name ++ (closer σ closed ++ rest)), name.length, .param⟩
  | .wildcard => .bare .wildcard

def Piece.Ok : Piece → Prop
  | .literal s => s ≠ [] ∧ s.head? ≠ some (opening σ) ∧ slash ∉ s ∧
      (∀ b ∈ s, ¬ illegalByte b) ∧ s.length ≤ lexerCharLimit
  | .param name closed => validName name ∧ name.length ≤ lexerCharLimit ∧
      (closed → (closing σ).isSome)
  | .wildcard => True

/-- A closed parameter needs nothing after it to be told from what follows. -/
def Piece.glues : Piece → Bool
  | .param _ closed => closed
  | _ => false

def AtSlash (rest : Bytes) : Prop := ∀ b ∈ rest.head?, b = slash

inductive Spells : Bytes → List Piece → Bytes → Prop where
  | nil (rest : Bytes) : Spells rest [] rest
  | piece {sl : Bytes} {a : Piece} {c : Bytes} {ps : List Piece} {rest : Bytes} :
      sl = [] ∨ sl = [slash] → a.Ok σ → (a.glues ∨ AtSlash c) → Spells c ps rest →
      Spells (sl ++ (a.text σ ++ c)) (a :: ps) rest

variable {σ}

/-! ## Bytes -/

theorem isalpha_nameByte {b : UInt8} (h : isalpha b) : nameByte b := by
  simp [nameByte, isalnum, h]

theorem closing_not_name {b : UInt8} (h : closing σ = some b) : nameByte b = false := by
  cases σ <;> simp only [closing, Option.some.injEq, reduceCtorEq] at h <;> subst h <;> decide

theorem validName_bytes {s : Bytes} (h : validName s) : ∀ b ∈ s, nameByte b := by
  cases s with
  | nil => simp
  | cons b s =>
    simp only [validName, Bool.and_eq_true, List.all_eq_true] at h
    exact List.forall_mem_cons.mpr ⟨isalpha_nameByte h.1, h.2⟩

theorem validName_head {s : Bytes} (h : validName s) (rest : Bytes) :
    isalpha (deref (s ++ rest)) := by
  cases s with
  | nil => simp [validName] at h
  | cons b s =>
    simp only [validName, Bool.and_eq_true] at h
    exact h.1

/-- The three tests of the source are one: the byte opens a parameter of the syntax. -/
theorem opening_iff (x : UInt8) : (x = 58 ∧ (decide (σ = .colon)) = true ∨
    x = 60 ∧ (decide (σ = .angle)) = true ∨ x = 123 ∧ (decide (σ = .brace)) = true) ↔
      x = opening σ := by
  cases σ <;> simp [opening]

theorem closing_iff (x : UInt8) : (x = 62 ∧ (decide (σ = .angle)) = true ∨
    x = 125 ∧ (decide (σ = .brace)) = true) ↔ closing σ = some x := by
  cases σ <;> simp [closing, eq_comm]

/-! ## The scanning loop -/

def scans (isParam : Bool) (b : UInt8) : Bool := if isParam then nameByte b else !illegalByte b

/-- The loop passes over bytes that it goes on over. -/
theorem prelexerScan_append {isParam angle brace : Bool} {s : Bytes}
    (hs : ∀ b ∈ s, b ≠ slash ∧ scans isParam b) (c : Bytes) :
    prelexerScan isParam angle brace (s ++ c) = prelexerScan isParam angle brace c := by
  induction s with
  | nil => rfl
  | cons b s ih =>
    obtain ⟨⟨hslash, hb⟩, hs⟩ := List.forall_mem_cons.mp hs
    rw [List.cons_append, prelexerScan]
    cases isParam with
    | true =>
      have hname : nameByte b := hb
      have h0 : b ≠ 0 := by
        rintro rfl
        exact absurd hname (by decide)
      have hclose : ¬ ((b = 62 ∧ angle) ∨ (b = 125 ∧ brace)) := by
        rintro (⟨rfl, -⟩ | ⟨rfl, -⟩) <;> exact absurd hname (by decide)
      have hstop : ¬ (¬ isalnum b ∧ b ≠ 95) := by
        simp only [nameByte, Bool.or_eq_true, beq_iff_eq] at hname
        rintro ⟨h1, h2⟩
        exact hname.elim h1 h2
      rw [if_neg (by simp [h0, hslash]), if_pos rfl, if_neg hclose, if_neg hstop, ih hs]
    | false =>
      have hlegal : ¬ illegalByte b := by simpa [scans] using hb
      have h0 : b ≠ 0 := by
        rintro rfl
        exact hlegal illegalByte_zero
      rw [if_neg (by simp [h0, hslash]), if_neg (by simp), if_neg hlegal, ih hs]

theorem prelexerScan_stop (isParam angle brace : Bool) {c : Bytes} (hc : AtSlash c) :
    prelexerScan isParam angle brace c = (c, some 0) := by
  cases c with
  | nil => rfl
  | cons b c =>
    obtain rfl : b = slash := hc b rfl
    simp [prelexerScan]

theorem prelexerScan_close {b : UInt8} (h : closing σ = some b) (c : Bytes) :
    prelexerScan true (σ = .angle) (σ = .brace) (b :: c) = (b :: c, some 1) := by
  have hb : ¬ (b = 0 ∨ b = slash) := by
    cases σ <;> simp only [closing, Option.some.injEq, reduceCtorEq] at h <;> subst h <;> decide
  rw [prelexerScan, if_neg hb, if_pos rfl, if_pos ((closing_iff b).mpr h)]

/-- The loop stops at a '/', at the end, or at the closing delimiter of a parameter. -/
theorem prelexerScan_sound {isParam : Bool} {start c : Bytes} {extra : Nat} (hf : NulFree start)
    (h : prelexerScan isParam (σ = .angle) (σ = .brace) start = (c, some extra)) :
    ∃ s, start = s ++ c ∧ (∀ b ∈ s, b ≠ slash ∧ scans isParam b) ∧
      (extra = 0 ∧ AtSlash c ∨
        isParam ∧ extra = 1 ∧ ∃ b rest, closing σ = some b ∧ c = b :: rest) := by
  induction start with
  | nil =>
    obtain ⟨rfl, hextra⟩ := Prod.mk.inj h
    obtain rfl := Option.some.inj hextra
    exact ⟨[], rfl, by simp, Or.inl ⟨rfl, by simp [AtSlash]⟩⟩
  | cons b start ih =>
    obtain ⟨h0, hf⟩ := (nulFree_cons b start).mp hf
    have hmore (hb : b ≠ slash ∧ scans isParam b)
        (h : prelexerScan isParam (σ = .angle) (σ = .brace) start = (c, some extra)) :
        ∃ s, b :: start = s ++ c ∧ (∀ b ∈ s, b ≠ slash ∧ scans isParam b) ∧
          (extra = 0 ∧ AtSlash c ∨
            isParam ∧ extra = 1 ∧ ∃ b rest, closing σ = some b ∧ c = b :: rest) := by
      obtain ⟨s, rfl, hs, hstop⟩ := ih hf h
      exact ⟨b :: s, rfl, List.forall_mem_cons.mpr ⟨hb, hs⟩, hstop⟩
    rw [prelexerScan] at h
    split at h
    · rename_i hb
      obtain ⟨rfl, hextra⟩ := Prod.mk.inj h
      obtain rfl := Option.some.inj hextra
      refine ⟨[], rfl, by simp, Or.inl ⟨rfl, ?_⟩⟩
      simpa [AtSlash] using hb.resolve_left h0
    rename_i hb
    have hslash : b ≠ slash := fun he => hb (Or.inr he)
    split at h
    · rename_i hparam
      split at h
      · rename_i hclose
        obtain ⟨rfl, hextra⟩ := Prod.mk.inj h
        obtain rfl := Option.some.inj hextra
        exact ⟨[], rfl, by simp, Or.inr ⟨hparam, rfl, b, start, (closing_iff b).mp hclose, rfl⟩⟩
      split at h
      · simp at h
      · rename_i hname
        refine hmore ⟨hslash, ?_⟩ h
        simp only [scans, hparam, if_true, nameByte, Bool.or_eq_true, beq_iff_eq]
        by_contra hno
        exact hname ⟨fun ha => hno (Or.inl ha), fun hu => hno (Or.inr hu)⟩
    · rename_i hparam
      split at h
      · simp at h
      · rename_i hlegal
        refine hmore ⟨hslash, ?_⟩ h
        simp [scans, hparam, hlegal]

/-! ## One call -/

/-- Where the loop stops, the token is what it passed over. -/
theorem prelexerText_eq {lx : Prelexer} {type : TokenType} {angle brace : Bool} {s c : Bytes}
    {extra : Nat} (h : prelexerScan (type = .param) angle brace (s ++ c) = (c, some extra))
    (hlen : s.length ≤ lexerCharLimit) :
    prelexerText lx type angle brace (s ++ c) =
      (⟨some (s ++ c), s.length, type⟩, { lx with cursor := some (c.drop extra) }) := by
  have hl : (s ++ c).length - c.length = s.length := by simp
  have hshort : s.length < 65536 := by
    unfold lexerCharLimit at hlen
    omega
  rw [prelexerText, h]
  dsimp only
  rw [hl, if_neg (by omega), u16_eq hshort]

theorem opening_ne : opening σ ≠ 0 ∧ opening σ ≠ slash ∧ opening σ ≠ star := by
  cases σ <;> decide

/-- A piece starts with a byte of its own. -/
theorem Piece.Ok.head {a : Piece} (ha : a.Ok σ) :
    ∃ b t, a.text σ = b :: t ∧ b ≠ 0 ∧ b ≠ slash := by
  cases a with
  | literal s =>
    obtain ⟨hne, -, hslash, hlegal, -⟩ := ha
    obtain ⟨b, t, rfl⟩ := List.exists_cons_of_ne_nil hne
    refine ⟨b, t, rfl, ?_, fun he => hslash (he ▸ List.mem_cons_self)⟩
    rintro rfl
    exact hlegal 0 List.mem_cons_self illegalByte_zero
  | param name closed => exact ⟨_, _, rfl, opening_ne.1, opening_ne.2.1⟩
  | wildcard => exact ⟨star, [], rfl, by decide, by decide⟩

/-- What a call sees once it is past an optional '/'. -/
theorem strip_slash {sl d : Bytes} (hsl : sl = [] ∨ sl = [slash]) (h0 : deref d ≠ 0)
    (hs : deref d ≠ slash) :
    deref (sl ++ d) ≠ 0 ∧ (if deref (sl ++ d) = slash then (sl ++ d).tail else sl ++ d) = d := by
  rcases hsl with rfl | rfl
  · rw [List.nil_append, if_neg hs]
    exact ⟨h0, rfl⟩
  · have hslash : slash ≠ 0 := by decide
    exact ⟨hslash, if_pos rfl⟩

/-- A call hands out the piece that comes next, and stops behind it. -/
theorem prelexerNext_piece {lx : Prelexer} {a : Piece} {sl c : Bytes}
    (hsl : sl = [] ∨ sl = [slash]) (ha : a.Ok lx.paramSyntax) (hc : a.glues ∨ AtSlash c)
    (hcur : lx.cursor = some (sl ++ (a.text lx.paramSyntax ++ c))) :
    prelexerNext lx = (a.token lx.paramSyntax c, { lx with cursor := some c }) := by
  obtain ⟨b, t, htext, hb0, hbs⟩ := ha.head
  have hhead : deref (a.text lx.paramSyntax ++ c) = b := by rw [htext]; rfl
  obtain ⟨hne, hstrip⟩ := strip_slash hsl (hhead ▸ hb0) (hhead ▸ hbs)
  rw [prelexerNext, hcur]
  dsimp only
  rw [if_neg hne, hstrip, hhead, if_neg hb0, if_neg hbs]
  rw [show (if b = 58 ∧ (decide (lx.paramSyntax = .colon)) = true ∨
      b = 60 ∧ (decide (lx.paramSyntax = .angle)) = true ∨
      b = 123 ∧ (decide (lx.paramSyntax = .brace)) = true then _ else _ : Token × Prelexer) =
      if b = opening lx.paramSyntax then _ else _ from if_congr (opening_iff b) rfl rfl]
  cases a with
  | literal s =>
    obtain ⟨-, hopen, hslash, hlegal, hlen⟩ := ha
    obtain rfl : s = b :: t := htext
    have hb : b ≠ opening lx.paramSyntax := fun he => hopen (by rw [List.head?_cons, he])
    have hstar : b ≠ star := by
      rintro rfl
      exact hlegal star List.mem_cons_self (by decide)
    have hscan : ∀ x ∈ b :: t, x ≠ slash ∧ scans false x := by
      intro x hx
      exact ⟨fun he => hslash (he ▸ hx), by simpa [scans] using hlegal x hx⟩
    rw [if_neg hb, if_neg hstar]
    have hstop : prelexerScan (decide (TokenType.literal = .param)) (lx.paramSyntax = .angle)
        (lx.paramSyntax = .brace) (b :: t ++ c) = (c, some 0) :=
      (prelexerScan_append hscan c).trans
        (prelexerScan_stop _ _ _ (hc.resolve_left (by simp [Piece.glues])))
    exact prelexerText_eq hstop hlen
  | param name closed =>
    obtain ⟨hvalid, hlen, hclosed⟩ := ha
    obtain ⟨rfl, rfl⟩ := List.cons.inj htext
    have hscan : ∀ x ∈ name, x ≠ slash ∧ scans true x := by
      intro x hx
      have hname := validName_bytes hvalid x hx
      refine ⟨?_, hname⟩
      rintro rfl
      exact absurd hname (by decide)
    have hstart : (Piece.text lx.paramSyntax (.param name closed) ++ c).tail =
        name ++ (closer lx.paramSyntax closed ++ c) := List.append_assoc _ _ _
    rw [if_pos rfl, hstart, if_neg (not_not.mpr (validName_head hvalid _))]
    cases closed with
    | false =>
      have hstop : prelexerScan (decide (TokenType.param = .param)) (lx.paramSyntax = .angle)
          (lx.paramSyntax = .brace) (name ++ c) = (c, some 0) :=
        (prelexerScan_append hscan c).trans
          (prelexerScan_stop _ _ _ (hc.resolve_left (by simp [Piece.glues])))
      exact prelexerText_eq hstop hlen
    | true =>
      obtain ⟨d, hd⟩ := Option.isSome_iff_exists.mp (hclosed rfl)
      have hcloser : closer lx.paramSyntax true = [d] := by simp [closer, hd]
      have hstop : prelexerScan (decide (TokenType.param = .param)) (lx.paramSyntax = .angle)
          (lx.paramSyntax = .brace) (name ++ d :: c) = (d :: c, some 1) :=
        (prelexerScan_append hscan _).trans (prelexerScan_close hd c)
      rw [Piece.token, hcloser]
      exact prelexerText_eq hstop hlen
  | wildcard =>
    obtain ⟨rfl, rfl⟩ := List.cons.inj htext
    have hrest : deref c = 0 ∨ deref c = slash := by
      have hslash := hc.resolve_left (by simp [Piece.glues])
      cases c with
      | nil => exact Or.inl rfl
      | cons b c => exact Or.inr (hslash b rfl)
    rw [if_neg opening_ne.2.2.symm, if_pos rfl]
    exact congrArg (fun type => (Token.bare type, { lx with cursor := some c })) (if_pos hrest)

/-- The token of a call that finds no piece. -/
def finish (root : Bool) (c : Bytes) : TokenType :=
  if c = [] then .end_ else if c = [slash] then if root then .end_ else .trailing else .illegal

def NextPiece (σ : ParamSyntax) (c : Bytes) : Prop :=
  ∃ (sl : Bytes) (a : Piece) (rest : Bytes), (sl = [] ∨ sl = [slash]) ∧ a.Ok σ ∧
    (a.glues ∨ AtSlash rest) ∧ c = sl ++ (a.text σ ++ rest)

theorem deref_eq_zero {c : Bytes} (hf : NulFree c) : deref c = 0 ↔ c = [] := by
  cases c with
  | nil => simp
  | cons b c => simp [((nulFree_cons b c).mp hf).1]

/-- A token that is not illegal is a text of the grammar, and the bytes after it go on. -/
theorem prelexerText_sound (lx : Prelexer) (type : TokenType) {start : Bytes} (hf : NulFree start) :
    (prelexerText lx type (lx.paramSyntax = .angle) (lx.paramSyntax = .brace) start).1 =
        .bare .illegal ∨
      ∃ s c, start = s ++ c ∧ s.length ≤ lexerCharLimit ∧
        (∀ b ∈ s, b ≠ slash ∧ scans (type = .param) b) ∧
        (AtSlash c ∨ type = .param ∧ ∃ b rest, closing lx.paramSyntax = some b ∧ c = b :: rest) := by
  unfold prelexerText
  split
  · exact Or.inl rfl
  · rename_i c extra hscan
    dsimp only
    obtain ⟨s, rfl, hs, hstop⟩ := prelexerScan_sound hf hscan
    split
    · exact Or.inl rfl
    · rename_i hlen
      refine Or.inr ⟨s, c, rfl, by simpa using hlen, hs, ?_⟩
      rcases hstop with ⟨-, hc⟩ | ⟨htype, -, hclose⟩
      · exact Or.inl hc
      · exact Or.inr ⟨by simpa using htype, hclose⟩

theorem validName_of {s c : Bytes} (hs : ∀ b ∈ s, b ≠ slash ∧ scans true b)
    (ha : isalpha (deref (s ++ c)))
    (hc : AtSlash c ∨ ∃ b rest, closing σ = some b ∧ c = b :: rest) : validName s := by
  cases s with
  | nil =>
    exfalso
    rw [List.nil_append] at ha
    rcases hc with hc | ⟨b, rest, hclose, rfl⟩
    · cases c with
      | nil => exact absurd ha (by decide)
      | cons b c =>
        rw [deref_cons, hc b rfl] at ha
        exact absurd ha (by decide)
    · rw [deref_cons] at ha
      have hname := closing_not_name hclose
      rw [isalpha_nameByte ha] at hname
      exact absurd hname (by decide)
  | cons b s =>
    simp only [validName, Bool.and_eq_true, List.all_eq_true]
    exact ⟨ha, fun x hx => (hs x (List.mem_cons_of_mem _ hx)).2⟩

/-- Behind an opening delimiter. -/
theorem nextPiece_param {lx : Prelexer} {sl t : Bytes} (hsl : sl = [] ∨ sl = [slash])
    (hf : NulFree t) (halpha : isalpha (deref t)) :
    NextPiece lx.paramSyntax (sl ++ opening lx.paramSyntax :: t) ∨
      (prelexerText lx .param (lx.paramSyntax = .angle) (lx.paramSyntax = .brace) t).1 =
        .bare .illegal := by
  rcases prelexerText_sound lx .param hf with h | ⟨s, c, rfl, hlen, hs, hc⟩
  · exact Or.inr h
  have hvalid : validName s := validName_of hs halpha (hc.imp id And.right)
  rcases hc with hc | ⟨-, b, rest, hclose, rfl⟩
  · refine Or.inl ⟨sl, .param s false, c, hsl, ⟨hvalid, hlen, by simp⟩, Or.inr hc, ?_⟩
    simp [Piece.text, closer]
  · refine Or.inl ⟨sl, .param s true, rest, hsl, ⟨hvalid, hlen, by simp [hclose]⟩, Or.inl rfl, ?_⟩
    simp [Piece.text, closer, hclose]

/-- A star stands alone in its segment. -/
theorem nextPiece_wildcard {sl t : Bytes} (hsl : sl = [] ∨ sl = [slash]) (hf : NulFree t)
    (hrest : deref t = 0 ∨ deref t = slash) : NextPiece σ (sl ++ star :: t) := by
  refine ⟨sl, .wildcard, t, hsl, trivial, Or.inr (fun b hb => ?_), rfl⟩
  cases t with
  | nil => simp at hb
  | cons x t =>
    obtain rfl : x = b := by simpa using hb
    exact hrest.resolve_left ((nulFree_cons _ _).mp hf).1

/-- Any other byte starts a literal. -/
theorem nextPiece_literal {lx : Prelexer} {sl d : Bytes} (hsl : sl = [] ∨ sl = [slash])
    (hf : NulFree d) (hd : d ≠ []) (hslash : deref d ≠ slash)
    (hopen : deref d ≠ opening lx.paramSyntax) :
    NextPiece lx.paramSyntax (sl ++ d) ∨
      (prelexerText lx .literal (lx.paramSyntax = .angle) (lx.paramSyntax = .brace) d).1 =
        .bare .illegal := by
  rcases prelexerText_sound lx .literal hf with h | ⟨s, c, rfl, hlen, hs, hc⟩
  · exact Or.inr h
  have hc : AtSlash c := hc.resolve_right (by simp)
  refine Or.inl ⟨sl, .literal s, c, hsl, ⟨?_, ?_, ?_, ?_, hlen⟩, Or.inr hc, rfl⟩
  · rintro rfl
    cases c with
    | nil => exact hd rfl
    | cons b c => exact hslash (hc b rfl)
  · cases s with
    | nil => simp
    | cons b s => simpa using hopen
  · exact fun hmem => (hs slash hmem).1 rfl
  · exact fun b hb => by simpa [scans] using (hs b hb).2

theorem cons_of_deref {d : Bytes} (hd : deref d ≠ 0) : ∃ t, d = deref d :: t := by
  cases d with
  | nil => exact absurd rfl hd
  | cons b t => exact ⟨t, rfl⟩

/-- A call finds the next piece, or else ends the pattern. -/
theorem prelexerNext_sound {lx : Prelexer} {c : Bytes} (hcur : lx.cursor = some c)
    (hf : NulFree c) : NextPiece lx.paramSyntax c ∨
      (prelexerNext lx).1 = .bare (finish (c.length = (lx.str.getD []).length) c) := by
  unfold prelexerNext
  rw [hcur]
  dsimp only
  by_cases h0 : deref c = 0
  · rw [if_pos h0]
    exact Or.inr (by rw [(deref_eq_zero hf).mp h0]; rfl)
  obtain ⟨sl, d, hsl, rfl, hstrip⟩ : ∃ sl d, (sl = [] ∧ deref d ≠ slash ∨ sl = [slash]) ∧
      c = sl ++ d ∧ (if deref c = slash then c.tail else c) = d := by
    by_cases hs : deref c = slash
    · obtain ⟨d, hc⟩ := cons_of_deref h0
      exact ⟨[slash], d, Or.inr rfl, by rw [hc, hs]; rfl, by rw [if_pos hs, hc]; rfl⟩
    · exact ⟨[], c, Or.inl ⟨rfl, hs⟩, rfl, if_neg hs⟩
  have hfd : NulFree d := fun hz => hf (List.mem_append_right sl hz)
  have hoptional : sl = [] ∨ sl = [slash] := hsl.imp And.left id
  rw [if_neg h0, hstrip]
  by_cases hd : deref d = 0
  · rw [deref_eq_zero hfd] at hd
    subst hd
    obtain rfl : sl = [slash] := by
      rcases hsl with ⟨rfl, -⟩ | rfl
      · exact absurd rfl h0
      · rfl
    exact Or.inr (by simp [finish])
  -- from here on a call without a piece is an illegal one
  have hillegal : finish ((sl ++ d).length = (lx.str.getD []).length) (sl ++ d) = .illegal := by
    cases d with
    | nil => exact absurd rfl hd
    | cons b d =>
      rcases hsl with ⟨rfl, hs⟩ | rfl
      · have hb : b ≠ slash := hs
        simp [finish, hb]
      · simp [finish]
  rw [if_neg hd, hillegal]
  obtain ⟨t, ht⟩ := cons_of_deref hd
  have hft : NulFree t := fun hz => hfd (by rw [ht]; exact List.mem_cons_of_mem _ hz)
  have htail : d.tail = t := by rw [ht, List.tail_cons]
  split
  · exact Or.inr rfl
  rename_i hslash
  split
  · rename_i hopen
    rw [htail]
    split
    · exact Or.inr rfl
    rename_i halpha
    rw [ht, (opening_iff (deref d)).mp hopen]
    exact nextPiece_param hoptional hft (not_not.mp halpha)
  rename_i hopen
  have hne : deref d ≠ opening lx.paramSyntax := fun he => hopen ((opening_iff _).mpr he)
  split
  · rename_i hstar
    rw [htail]
    by_cases hrest : deref t = 0 ∨ deref t = slash
    · rw [ht, hstar]
      exact Or.inl (nextPiece_wildcard hoptional hft hrest)
    · exact Or.inr (congrArg Token.bare (if_neg hrest))
  · exact nextPiece_literal hoptional hfd (fun hnil => hd (by rw [hnil]; rfl)) hslash hne

theorem AtSlash.not_nextPiece {c : Bytes} (hc : c = [] ∨ c = [slash]) : ¬ NextPiece σ c := by
  rintro ⟨sl, a, rest, hsl, ha, -, h⟩
  obtain ⟨b, t, htext, -, hslash⟩ := ha.head
  rw [htext] at h
  rcases hc with rfl | rfl <;> rcases hsl with rfl | rfl
  · simp at h
  · simp at h
  · exact hslash (by simpa using (List.cons.inj h).1.symm)
  · simp at h

/-! ## All calls -/

@[simp] theorem piece_token_tok (a : Piece) (rest : Bytes) : (a.token σ rest).tok = a.tok := by
  cases a <;> simp [Piece.token, Token.tok, Token.text, Piece.tok, Token.bare]

theorem piece_token_type (a : Piece) (rest : Bytes) : ¬ (a.token σ rest).type.isFinal := by
  cases a <;> simp [Piece.token, Token.bare, TokenType.isFinal]

/-- Every piece takes a byte at least. -/
theorem Spells.length {c rest : Bytes} {ps : List Piece} (h : Spells σ c ps rest) :
    ps.length + rest.length ≤ c.length := by
  induction h with
  | nil rest => simp
  | piece hsl ha hc hrest ih =>
    obtain ⟨b, t, htext, -, -⟩ := ha.head
    simp only [List.length_cons, List.length_append, htext]
    omega

/-- The bytes spell as many pieces as there are. -/
theorem exists_spells (σ : ParamSyntax) (c : Bytes) :
    ∃ ps rest, Spells σ c ps rest ∧ ¬ NextPiece σ rest := by
  induction hn : c.length using Nat.strongRecOn generalizing c with
  | _ n ih =>
    by_cases hnext : NextPiece σ c
    · obtain ⟨sl, a, d, hsl, ha, hd, rfl⟩ := hnext
      obtain ⟨b, t, htext, -, -⟩ := ha.head
      obtain ⟨ps, rest, hspells, hstop⟩ := ih d.length (by simp [← hn, htext]; omega) d rfl
      exact ⟨a :: ps, rest, .piece hsl ha hd hspells, hstop⟩
    · exact ⟨[], c, .nil c, hnext⟩

/-- The calls hand out the pieces that the bytes spell. -/
theorem Spells.run {c rest : Bytes} {ps : List Piece} (h : Spells σ c ps rest) {lx : Prelexer}
    (hσ : lx.paramSyntax = σ) (hcur : lx.cursor = some c) (k : Nat) :
    ∃ ts, prelexerRun (ps.length + k) lx =
        ts ++ prelexerRun k { lx with cursor := some rest } ∧
      ts.map Token.tok = ps.map Piece.tok ∧
      (∀ t ∈ ts, ∃ qs a r, Spells σ c (qs ++ [a]) r ∧ t = a.token σ r) ∧
      ∀ qs a, ps = qs ++ [a] → a.token σ rest ∈ ts := by
  induction h generalizing lx with
  | nil rest =>
    have hsame : lx = { lx with cursor := some rest } := by rw [← hcur]
    exact ⟨[], by rw [← hsame]; simp, rfl, by simp, by simp⟩
  | @piece sl a c ps rest hsl ha hc hrest ih =>
    subst hσ
    have hnext := prelexerNext_piece hsl ha hc hcur
    obtain ⟨ts, hrun, htoks, hmem, hlast⟩ := @ih { lx with cursor := some c } rfl rfl
    refine ⟨a.token lx.paramSyntax c :: ts, ?_, ?_, ?_, ?_⟩
    · rw [List.length_cons, Nat.add_right_comm, prelexerRun, hnext]
      dsimp only
      rw [if_neg (piece_token_type a c), hrun, List.cons_append]
    · rw [List.map_cons, List.map_cons, piece_token_tok, htoks]
    · refine List.forall_mem_cons.mpr ⟨⟨[], a, c, .piece hsl ha hc (.nil c), rfl⟩, ?_⟩
      intro t ht
      obtain ⟨qs, a', r, hspells, rfl⟩ := hmem t ht
      exact ⟨a :: qs, a', r, .piece hsl ha hc hspells, rfl⟩
    · intro qs a' he
      cases qs with
      | nil =>
        obtain ⟨rfl, rfl⟩ := List.cons.inj he
        cases hrest
        exact List.mem_cons_self
      | cons q qs =>
        obtain ⟨rfl, rfl⟩ := List.cons.inj he
        exact List.mem_cons_of_mem _ (hlast qs a' rfl)

theorem prelexerLoad_slash {p : Bytes} (hhead : p.head? = some slash) :
    prelexerLoad (prelexerInit .zero σ) (some p) = ⟨some p, some p, σ⟩ := by
  cases p with
  | nil => simp at hhead
  | cons b p =>
    obtain rfl : b = slash := by simpa using hhead
    rfl

/-- A pattern that does not start with '/' is illegal at once. -/
theorem patternTokens_other {p : Bytes} (hhead : p.head? ≠ some slash) :
    patternTokens σ (some p) = [.bare .illegal] := by
  have hload : prelexerLoad (prelexerInit .zero σ) (some p) = .zero := by
    cases p with
    | nil => rfl
    | cons b p =>
      have hb : b ≠ slash := by simpa using hhead
      simp [prelexerLoad, hb]
  rw [patternTokens, hload, prelexerRun]
  rfl

theorem Spells.nulFree {c rest : Bytes} {ps : List Piece} (h : Spells σ c ps rest)
    (hf : NulFree c) : NulFree rest := by
  induction h with
  | nil rest => exact hf
  | piece _ _ _ _ ih => exact ih fun hz => hf (List.mem_append_right _ (List.mem_append_right _ hz))

/-- The tokens of a pattern: one for each piece that it spells from its start, and then, where
no piece is next, the one that ends it. -/
theorem patternTokens_spells {p rest : Bytes} {ps : List Piece} (hhead : p.head? = some slash)
    (h : Spells σ p ps rest) : ∃ ts more, patternTokens σ (some p) = ts ++ more ∧
      ts.map Token.tok = ps.map Piece.tok ∧
      (∀ t ∈ ts, ∃ qs a r, Spells σ p (qs ++ [a]) r ∧ t = a.token σ r) ∧
      (∀ qs a, ps = qs ++ [a] → a.token σ rest ∈ ts) ∧
      (NulFree p → ¬ NextPiece σ rest →
        more = [.bare (finish (rest.length = p.length) rest)]) := by
  have hlen := h.length
  have hfuel : p.length + 1 = ps.length + (p.length - ps.length + 1) := by omega
  rw [patternTokens, prelexerLoad_slash hhead, Option.getD_some, hfuel]
  have hload : (⟨some p, some p, σ⟩ : Prelexer).cursor = some p := rfl
  obtain ⟨ts, hrun, htoks, hmem, hlast⟩ := h.run rfl hload (p.length - ps.length + 1)
  refine ⟨ts, _, hrun, htoks, hmem, hlast, fun hf hstop => ?_⟩
  have hcur : (⟨some p, some rest, σ⟩ : Prelexer).cursor = some rest := rfl
  have hend := (prelexerNext_sound hcur (h.nulFree hf)).resolve_left hstop
  rw [prelexerRun, hend, if_pos ?_]
  · rfl
  · unfold finish Token.bare
    split
    · rfl
    · split
      · split <;> rfl
      · rfl

/-- The last token by where the pieces stop. -/
def lastTok (ps : List Piece) (rest : Bytes) : Tok :=
  if rest = [] then .end_
  else if rest = [slash] then if ps = [] then .end_ else .trailing else .illegal

/-- Bytes that spell pieces, and then nothing of the grammar, read as these pieces. -/
theorem patternWord_spells {p rest : Bytes} {ps : List Piece} (hhead : p.head? = some slash)
    (hf : NulFree p) (h : Spells σ p ps rest) (hstop : ¬ NextPiece σ rest) :
    patternWord σ p = ps.map Piece.tok ++ [lastTok ps rest] := by
  obtain ⟨ts, more, hrun, htoks, -, -, hmore⟩ := patternTokens_spells hhead h
  have hroot : rest.length = p.length ↔ ps = [] := by
    have := h.length
    constructor
    · intro he
      exact List.eq_nil_of_length_eq_zero (by omega)
    · rintro rfl
      cases h
      rfl
  rw [patternWord, hrun, hmore hf hstop, List.map_append, htoks, List.map_singleton]
  congr 2
  unfold lastTok finish
  by_cases hnil : rest = []
  · rw [if_pos hnil, if_pos hnil]
    rfl
  rw [if_neg hnil, if_neg hnil]
  by_cases hslash : rest = [slash]
  · rw [if_pos hslash, if_pos hslash]
    by_cases hps : ps = []
    · rw [if_pos hps, if_pos (decide_eq_true (hroot.mpr hps))]
      rfl
    · rw [if_neg hps, if_neg (fun he => hps (hroot.mp (of_decide_eq_true he)))]
      rfl
  · rw [if_neg hslash, if_neg hslash]
    rfl

theorem piece_tok_ne (a : Piece) : a.tok ≠ .illegal := by
  cases a <;> simp [Piece.tok]

/-- A pattern spelt to its end, or to a last '/'. -/
def Spelt (σ : ParamSyntax) (p : Bytes) (ps : List Piece) (rest : Bytes) : Prop :=
  p.head? = some slash ∧ Spells σ p ps rest ∧ (rest = [] ∨ rest = [slash])

theorem Spelt.word {p rest : Bytes} {ps : List Piece} (h : Spelt σ p ps rest) (hf : NulFree p) :
    patternWord σ p = ps.map Piece.tok ++ [lastTok ps rest] :=
  patternWord_spells h.1 hf h.2.1 (AtSlash.not_nextPiece h.2.2)

/-- The lexer accepts exactly the patterns that the grammar spells. -/
theorem accepted_iff {p : Bytes} (hf : NulFree p) :
    .illegal ∉ patternWord σ p ↔ ∃ ps rest, Spelt σ p ps rest := by
  constructor
  · intro hno
    by_cases hhead : p.head? = some slash
    · obtain ⟨ps, rest, h, hstop⟩ := exists_spells σ p
      refine ⟨ps, rest, hhead, h, ?_⟩
      by_contra hrest
      obtain ⟨hnil, hslash⟩ := not_or.mp hrest
      refine hno ?_
      rw [patternWord_spells hhead hf h hstop, lastTok, if_neg hnil, if_neg hslash]
      exact List.mem_append_right _ (List.mem_singleton_self _)
    · refine absurd ?_ hno
      rw [patternWord, patternTokens_other hhead]
      exact List.mem_singleton_self _
  · rintro ⟨ps, rest, h⟩ hmem
    rw [h.word hf, List.mem_append, List.mem_map, List.mem_singleton] at hmem
    rcases hmem with ⟨a, -, ha⟩ | hlast
    · exact piece_tok_ne a ha
    · unfold lastTok at hlast
      rcases h.2.2 with rfl | rfl
      · simp at hlast
      · rw [if_neg (by simp), if_pos rfl] at hlast
        split at hlast <;> simp at hlast

end Wrouter
