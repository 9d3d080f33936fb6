import Mathlib.Data.List.TakeWhile
import Wrouter.Lexer

/-!
# Requests as split paths

A request that starts with '/' and is not too long is split at every '/'. Its
leading legal segments are what the lexer hands out as literals; what follows
them decides the last token.
-/
namespace Wrouter

open CLib

structure Request where
  segments : List Bytes
  fin : TokenType
  deriving DecidableEq, Repr

/-- Not empty, and free of the bytes no literal may contain. -/
def legalSegment (s : Bytes) : Bool := !s.isEmpty && s.all fun b => !illegalByte b

/-- After the leading legal segments: nothing, a single empty part, or a part that is
not legal. -/
def finOf (root : Bool) : List Bytes → TokenType
  | [] => .end_
  | [[]] => if root then .end_ else .trailing
  | _ => .illegal

def parseRequest (path : Bytes) : Request :=
  if path.head? = some slash ∧ path.length ≤ lexerCharLimit then
    let parts := path.tail.splitOn slash
    let segments := parts.takeWhile legalSegment
    ⟨segments, finOf segments.isEmpty (parts.dropWhile legalSegment)⟩
  else ⟨[], .illegal⟩

/-- The literal tokens of the segments, from the bytes after the first '/'. -/
def segmentTokens : Bytes → List Bytes → List Token
  | _, [] => []
  | start, s :: ss => ⟨some start, s.length, .literal⟩ :: segmentTokens (start.drop (s.length + 1)) ss

/-- The scan stops at the next '/' or at the end, unless it meets an illegal byte. -/
theorem lexerScan_spec (start : Bytes) : ∃ seg rest, start = seg ++ rest ∧ slash ∉ seg ∧
    (rest = [] ∨ ∃ rest', rest = slash :: rest') ∧
    lexerScan start = if seg.all (fun b => !illegalByte b) then some rest else none := by
  induction start with
  | nil => exact ⟨[], [], rfl, by simp, Or.inl rfl, rfl⟩
  | cons b start ih =>
    by_cases hb : b = slash
    · subst hb
      exact ⟨[], slash :: start, rfl, by simp, Or.inr ⟨start, rfl⟩, by simp [lexerScan]⟩
    · obtain ⟨seg, rest, rfl, hseg, hrest, hscan⟩ := ih
      refine ⟨b :: seg, rest, rfl, by simp [hseg, Ne.symm hb], hrest, ?_⟩
      by_cases hi : illegalByte b
      · simp [lexerScan, hb, hi]
      · simp [lexerScan, hb, hi, hscan]

theorem splitOn_segment {seg : Bytes} (h : slash ∉ seg) (rest : Bytes) :
    (seg ++ slash :: rest).splitOn slash = seg :: rest.splitOn slash := by
  rw [List.splitOn_append_cons_of_beq _ _ (by simp), List.splitOn_eq_singleton h]
  rfl

/-- The lexer from a '/' on, in terms of the split. -/
theorem lexerRun_eq {fuel n : Nat} {r start : Bytes} (hn : n ≠ 0) (hfuel : start.length + 1 < fuel)
    (hshort : start.length < 65536) (hr : start.length + 1 ≤ r.length) :
    lexerRun fuel ⟨some r, some (slash :: start), n⟩ =
      segmentTokens start ((start.splitOn slash).takeWhile legalSegment) ++
        [Token.bare (finOf
          (decide (start.length + 1 = r.length) &&
            ((start.splitOn slash).takeWhile legalSegment).isEmpty)
          ((start.splitOn slash).dropWhile legalSegment))] := by
  induction fuel generalizing start with
  | zero => omega
  | succ fuel ih =>
    by_cases hnil : start = []
    · subst hnil
      have htype : (if 1 = r.length then TokenType.end_ else .trailing) ≠ .literal := by
        split <;> simp
      simp [lexerRun, lexerNext, hn, Token.bare, legalSegment, segmentTokens, finOf, htype]
    by_cases hslash : deref start = slash
    · -- an empty part: two slashes in a row
      obtain ⟨start, rfl⟩ : ∃ t, start = slash :: t := by
        cases start with
        | nil => exact absurd rfl hnil
        | cons b t => exact ⟨t, by rw [← hslash, deref_cons]⟩
      have hsplit := splitOn_segment (List.not_mem_nil (a := slash)) start
      simp only [List.nil_append] at hsplit
      have hfin (root : Bool) : finOf root ([] :: start.splitOn slash) = .illegal := by
        cases hs : start.splitOn slash with
        | nil => exact absurd hs (List.splitOn_ne_nil _ _)
        | cons p ps => rfl
      rw [hsplit, List.takeWhile_cons_of_neg (by simp [legalSegment]),
        List.dropWhile_cons_of_neg (by simp [legalSegment]), hfin]
      simp [lexerRun, lexerNext, hn, Token.bare, segmentTokens]
    obtain ⟨seg, rest, rfl, hseg, hrest, hscan⟩ := lexerScan_spec start
    have hne : seg ≠ [] := by
      rintro rfl
      rcases hrest with rfl | ⟨rest', rfl⟩
      · exact hnil rfl
      · exact hslash rfl
    have hparts : ∃ ps, (seg ++ rest).splitOn slash = seg :: ps ∧
        (rest = [] ∧ ps = [] ∨ ∃ rest', rest = slash :: rest' ∧ ps = rest'.splitOn slash) := by
      rcases hrest with rfl | ⟨rest', rfl⟩
      · exact ⟨[], by rw [List.append_nil, List.splitOn_eq_singleton hseg], Or.inl ⟨rfl, rfl⟩⟩
      · exact ⟨_, splitOn_segment hseg rest', Or.inr ⟨rest', rfl, rfl⟩⟩
    obtain ⟨ps, hsplit, hps⟩ := hparts
    rw [hsplit]
    by_cases hlegal : seg.all (fun b => !illegalByte b)
    · have hls : legalSegment seg := by simp [legalSegment, hne, hlegal]
      rw [if_pos hlegal] at hscan
      rw [List.takeWhile_cons_of_pos hls, List.dropWhile_cons_of_pos hls]
      have hlen : (seg ++ rest).length - rest.length = seg.length := by simp
      have hnext : lexerNext ⟨some r, some (slash :: (seg ++ rest)), n⟩ =
          (⟨some (seg ++ rest), seg.length, .literal⟩, ⟨some r, some rest, n⟩) := by
        simp only [lexerNext, hn, if_false, hnil, and_false, hslash, hscan, hlen]
        rw [u16_eq (by simp at hshort; omega)]
      rw [lexerRun, hnext]
      simp only [if_true, segmentTokens, List.cons_append, List.cons.injEq, true_and]
      rcases hps with ⟨rfl, rfl⟩ | ⟨rest', rfl, rfl⟩
      · cases fuel with
        | zero => simp at hfuel
        | succ fuel => simp [lexerRun, lexerNext, hn, Token.bare, segmentTokens, finOf]
      · simp only [List.length_append, List.length_cons] at hfuel hshort hr ⊢
        have hlater : decide (rest'.length + 1 = r.length) = false := by
          simp only [decide_eq_false_iff_not]
          omega
        have hdrop : (seg ++ slash :: rest').drop (seg.length + 1) = rest' := by
          rw [List.drop_append, List.drop_of_length_le (by omega),
            show seg.length + 1 - seg.length = 1 by omega]
          rfl
        rw [ih (by omega) (by omega) (by omega), hdrop, hlater, List.isEmpty_cons, Bool.and_false,
          Bool.false_and]
    · have hls : ¬ legalSegment seg := by simp [legalSegment, hlegal]
      rw [if_neg hlegal] at hscan
      have hfin (root : Bool) : finOf root (seg :: ps) = .illegal := by
        cases seg with
        | nil => exact absurd rfl hne
        | cons b seg => rfl
      rw [List.takeWhile_cons_of_neg hls, List.dropWhile_cons_of_neg hls, hfin]
      simp [lexerRun, lexerNext, hn, hnil, hslash, hscan, Token.bare, segmentTokens]

theorem lexerRun_bare_illegal (fuel : Nat) : lexerRun (fuel + 1) .zero = [Token.bare .illegal] := by
  simp [lexerRun, lexerNext, Lexer.zero, Token.bare]

/-- Any other request clears the lexer. -/
theorem lexerLoad_illegal {path : Bytes} (h : ¬ (path.head? = some slash ∧
    path.length ≤ lexerCharLimit)) : lexerLoad (some path) = .zero := by
  cases path with
  | nil => rfl
  | cons b path =>
    by_cases hb : b = slash
    · have hlong : (slash :: path).length > lexerCharLimit := by simpa [hb] using h
      simp only [lexerLoad, hb, if_pos hlong]
      simp
    · simp [lexerLoad, hb]

/-- A request that is loaded is taken as it stands. -/
theorem lexerLoad_legal {path : Bytes} (h : path.head? = some slash)
    (hlen : path.length ≤ lexerCharLimit) :
    lexerLoad (some path) = ⟨some path, some path, path.length⟩ := by
  cases path with
  | nil => simp at h
  | cons b path =>
    have hb : b = slash := by simpa using h
    simp only [lexerLoad, hb, List.length_cons] at hlen ⊢
    rw [if_neg (by omega), if_neg (by simp), if_neg (by omega)]

/-- The lexer hands out the leading legal segments, then one token that is no literal. -/
theorem lexerTokens_eq (path : Bytes) : lexerTokens path =
    segmentTokens path.tail (parseRequest path).segments ++
      [Token.bare (parseRequest path).fin] := by
  by_cases h : path.head? = some slash ∧ path.length ≤ lexerCharLimit
  · obtain ⟨hhead, hlen⟩ := h
    rw [lexerTokens, lexerLoad_legal hhead hlen, parseRequest, if_pos ⟨hhead, hlen⟩]
    cases path with
    | nil => simp at hhead
    | cons b start =>
      obtain rfl : b = slash := by simpa using hhead
      simp only [List.length_cons, lexerCharLimit] at hlen ⊢
      rw [lexerRun_eq (by omega) (by omega) (by omega) (by simp)]
      simp
  · rw [lexerTokens, lexerLoad_illegal h, lexerRun_bare_illegal, parseRequest, if_neg h]
    rfl

/-- The number of calls the matcher allows itself is enough, too. -/
theorem lexerRun_length (path : Bytes) :
    lexerRun ((lexerLoad (some path)).length + 1) (lexerLoad (some path)) = lexerTokens path := by
  by_cases h : path.head? = some slash ∧ path.length ≤ lexerCharLimit
  · rw [lexerTokens, lexerLoad_legal h.1 h.2]
  · rw [lexerTokens, lexerLoad_illegal h, lexerRun_bare_illegal, lexerRun_bare_illegal]

/-! ## Segments and bytes -/

theorem splitOn_cases (start : Bytes) : ∃ s ps, start.splitOn slash = s :: ps ∧ slash ∉ s ∧
    (start = s ∧ ps = [] ∨ ∃ rest, start = s ++ slash :: rest ∧ ps = rest.splitOn slash) := by
  obtain ⟨seg, rest, rfl, hseg, hrest, -⟩ := lexerScan_spec start
  rcases hrest with rfl | ⟨rest', rfl⟩
  · exact ⟨seg, [], by rw [List.append_nil, List.splitOn_eq_singleton hseg], hseg,
      Or.inl ⟨List.append_nil seg, rfl⟩⟩
  · exact ⟨seg, _, splitOn_segment hseg rest', hseg, Or.inr ⟨rest', rfl, rfl⟩⟩

/-- The tokens of leading segments read as the segments, from inside the path. -/
theorem segmentTokens_mem {start : Bytes} {ss : List Bytes} (h : ss <+: start.splitOn slash) :
    (segmentTokens start ss).map Token.text = ss ∧ ∀ t ∈ segmentTokens start ss,
      t.type = .literal ∧ t.text ∈ ss ∧ ∃ p, t.ptr = some p ∧ t.length ≤ p.length ∧
        p.length ≤ start.length := by
  induction ss generalizing start with
  | nil => simp [segmentTokens]
  | cons s ss ih =>
    obtain ⟨s', ps, hsplit, -, hstart⟩ := splitOn_cases start
    rw [hsplit, List.cons_prefix_cons] at h
    obtain ⟨rfl, h⟩ := h
    have htext : start.take s.length = s := by
      rcases hstart with ⟨rfl, -⟩ | ⟨rest, rfl, -⟩ <;> simp
    have hle : s.length ≤ start.length := by
      rcases hstart with ⟨rfl, -⟩ | ⟨rest, rfl, -⟩ <;> simp
    have hss : ss <+: (start.drop (s.length + 1)).splitOn slash := by
      rcases hstart with ⟨rfl, rfl⟩ | ⟨rest, rfl, rfl⟩
      · rw [List.prefix_nil.mp h]
        exact List.nil_prefix
      · rw [List.drop_append, List.drop_of_length_le (by omega),
          show s.length + 1 - s.length = 1 by omega]
        exact h
    obtain ⟨htexts, hmem⟩ := ih hss
    simp only [segmentTokens, List.map_cons, List.forall_mem_cons]
    refine ⟨by rw [htexts]; simp [Token.text, htext], ⟨trivial, by simp [Token.text, htext], _, rfl,
      hle, Nat.le_refl _⟩, fun t ht => ?_⟩
    obtain ⟨htype, hin, p, hp, hlen, hbound⟩ := hmem t ht
    rw [List.length_drop] at hbound
    exact ⟨htype, List.mem_cons_of_mem _ hin, p, hp, hlen, by omega⟩

/-- The segments are the first parts between slashes. -/
theorem parse_segments (path : Bytes) :
    (parseRequest path).segments <+: path.tail.splitOn slash := by
  unfold parseRequest
  split
  · exact List.takeWhile_prefix _
  · exact List.nil_prefix

theorem parse_legal (path : Bytes) : ∀ s ∈ (parseRequest path).segments, legalSegment s := by
  unfold parseRequest
  split
  · exact fun s hs => List.mem_takeWhile_imp hs
  · simp

theorem parse_fin (path : Bytes) : (parseRequest path).fin = .end_ ∨
    (parseRequest path).fin = .trailing ∨ (parseRequest path).fin = .illegal := by
  unfold parseRequest finOf
  split
  · dsimp only
    split
    · simp
    · split <;> simp
    · simp
  · simp

theorem parse_fin_ne (path : Bytes) : (parseRequest path).fin ≠ .literal := by
  rcases parse_fin path with h | h | h <;> simp [h]

theorem parse_length {path : Bytes} (h : (parseRequest path).segments ≠ []) :
    path.length ≤ lexerCharLimit := by
  unfold parseRequest at h
  split at h
  · rename_i hc
    exact hc.2
  · simp at h

theorem legalSegment_nulFree {s : Bytes} (h : legalSegment s) : NulFree s := by
  intro h0
  simp only [legalSegment, Bool.and_eq_true, List.all_eq_true] at h
  have := h.2 0 h0
  rw [illegalByte_zero] at this
  exact absurd this (by decide)

def requestTokens (path : Bytes) : List Token :=
  segmentTokens path.tail (parseRequest path).segments

/-- The tokens have the bytes of the segments. -/
theorem requestTokens_text (path : Bytes) :
    (requestTokens path).map Token.text = (parseRequest path).segments :=
  (segmentTokens_mem (parse_segments path)).1

theorem requestTokens_literal {path : Bytes} {t : Token} (ht : t ∈ requestTokens path) :
    t.type = .literal ∧ t.Named ∧ ∃ p, t.ptr = some p ∧ p.length < 65536 := by
  obtain ⟨htype, hin, p, hp, hlen, hbound⟩ := (segmentTokens_mem (parse_segments path)).2 t ht
  have hne : (parseRequest path).segments ≠ [] := List.ne_nil_of_mem hin
  have hpath := parse_length hne
  rw [List.length_tail] at hbound
  unfold lexerCharLimit at hpath
  refine ⟨htype, ⟨p, hp, hlen, ?_⟩, p, hp, by omega⟩
  have hfree := legalSegment_nulFree (parse_legal path _ hin)
  simpa [Token.text, hp] using hfree

/-! ## Legal and illegal paths -/

/-- `/s1/.../sn`. -/
def pathOf (segments : List Bytes) : Bytes := segments.flatMap (slash :: ·)

/-- Empty, too long, not starting with '/', with an empty segment, or with a byte that
no literal may contain. -/
def IllegalPath (path : Bytes) : Prop :=
  path = [] ∨ path.length > lexerCharLimit ∨ path.head? ≠ some slash ∨
    [slash, slash] <:+: path ∨ ∃ b ∈ path, illegalByte b

instance (path : Bytes) : Decidable (IllegalPath path) :=
  inferInstanceAs (Decidable (_ ∨ _ ∨ _ ∨ _ ∨ _))

theorem finOf_illegal {root : Bool} {parts : List Bytes} :
    finOf root parts = .illegal ↔ parts ≠ [] ∧ parts ≠ [[]] := by
  unfold finOf
  split
  · simp
  · cases root <;> simp
  · rename_i hnil hempty
    exact iff_of_true rfl ⟨hnil, hempty⟩

theorem slashes_infix_append {s : Bytes} (h : slash ∉ s) (l : Bytes) :
    [slash, slash] <:+: s ++ l ↔ [slash, slash] <:+: l := by
  induction s with
  | nil => rfl
  | cons b s ih =>
    obtain ⟨hb, hs⟩ := not_or.mp (List.mem_cons.not.mp h)
    rw [List.cons_append, List.infix_cons_iff, ih hs, List.cons_prefix_cons]
    simp [hb]

/-- The split shows a bad byte or an empty segment as a part that is not legal. -/
theorem malformed_iff (start : Bytes) :
    ([slash, slash] <:+: slash :: start ∨ ∃ b ∈ start, illegalByte b) ↔
      (start.splitOn slash).dropWhile legalSegment ≠ [] ∧
        (start.splitOn slash).dropWhile legalSegment ≠ [[]] := by
  induction hn : start.length using Nat.strongRecOn generalizing start with
  | _ n ih =>
    obtain ⟨s, ps, hsplit, hs, hstart⟩ := splitOn_cases start
    rw [hsplit]
    by_cases hnil : s = []
    · subst hnil
      rw [List.dropWhile_cons_of_neg (by simp [legalSegment])]
      rcases hstart with ⟨rfl, rfl⟩ | ⟨rest, rfl, rfl⟩
      · simp [List.infix_cons_iff]
      · refine iff_of_true (Or.inl ⟨[], rest, rfl⟩) ⟨by simp, ?_⟩
        simp [List.splitOn_ne_nil]
    by_cases hlegal : s.all (fun b => !illegalByte b)
    · have hgood : ∀ b ∈ s, ¬ illegalByte b := by simpa using hlegal
      have hfirst (l : Bytes) : [slash, slash] <:+: slash :: (s ++ l) ↔ [slash, slash] <:+: l := by
        obtain ⟨b, s, rfl⟩ := List.exists_cons_of_ne_nil hnil
        rw [List.infix_cons_iff, slashes_infix_append hs, or_iff_right]
        exact fun hpre => hs (by simp_all)
      rw [List.dropWhile_cons_of_pos (by simp [legalSegment, hnil, hlegal])]
      rcases hstart with ⟨rfl, rfl⟩ | ⟨rest, rfl, rfl⟩
      · have := hfirst []
        simp only [List.append_nil] at this
        rw [this]
        simpa using hgood
      · rw [← ih rest.length (by simp [← hn]; omega) rest rfl, hfirst]
        refine or_congr Iff.rfl ?_
        constructor
        · rintro ⟨b, hb, hill⟩
          rcases List.mem_append.mp hb with hb | hb
          · exact absurd hill (hgood b hb)
          rcases List.mem_cons.mp hb with rfl | hb
          · exact absurd hill (by decide)
          · exact ⟨b, hb, hill⟩
        · exact fun ⟨b, hb, hill⟩ => ⟨b, by simp [hb], hill⟩
    · rw [List.dropWhile_cons_of_neg (by simp [legalSegment, hlegal])]
      obtain ⟨b, hb, hill⟩ : ∃ b ∈ s, illegalByte b := by simpa using hlegal
      refine iff_of_true (Or.inr ⟨b, ?_, hill⟩) ⟨by simp, by simp [hnil]⟩
      rcases hstart with ⟨rfl, -⟩ | ⟨rest, rfl, -⟩
      · exact hb
      · exact List.mem_append_left _ hb

/-- The lexer ends a request with an illegal token exactly when the path is illegal. -/
theorem parse_illegal (path : Bytes) : (parseRequest path).fin = .illegal ↔ IllegalPath path := by
  unfold parseRequest
  split
  · rename_i h
    obtain ⟨hhead, hlen⟩ := h
    obtain ⟨start, rfl⟩ : ∃ start, path = slash :: start := by
      cases path with
      | nil => simp at hhead
      | cons b start => exact ⟨start, by simpa using hhead⟩
    have hslash : ¬ illegalByte slash := by decide
    rw [finOf_illegal, List.tail_cons, ← malformed_iff]
    have hshort : ¬ (slash :: start).length > lexerCharLimit := Nat.not_lt.mpr hlen
    simp only [IllegalPath, hshort, hslash, List.exists_mem_cons_iff]
    simp
  · rename_i h
    refine iff_of_true rfl ?_
    by_cases hhead : path.head? = some slash
    · exact Or.inr (Or.inl (by simpa [hhead] using h))
    · exact Or.inr (Or.inr (Or.inl hhead))

theorem splitOn_pathOf {s : Bytes} {ss : List Bytes} (h : ∀ t ∈ s :: ss, slash ∉ t)
    (rest : List Bytes) (suffix : Bytes)
    (hsuffix : suffix = [] ∧ rest = [] ∨ ∃ t, suffix = slash :: t ∧ rest = t.splitOn slash) :
    (s ++ pathOf ss ++ suffix).splitOn slash = s :: ss ++ rest := by
  induction ss generalizing s with
  | nil =>
    simp only [List.mem_singleton, forall_eq] at h
    rcases hsuffix with ⟨rfl, rfl⟩ | ⟨t, rfl, rfl⟩
    · simp [pathOf, List.splitOn_eq_singleton h]
    · simp [pathOf, splitOn_segment h]
  | cons t ss ih =>
    obtain ⟨hs, h⟩ := List.forall_mem_cons.mp h
    have := ih h
    simp only [pathOf, List.flatMap_cons, List.cons_append, List.append_assoc] at this ⊢
    rw [splitOn_segment hs, this]

/-! ## Paths of any content -/

def pathSegments (path : Bytes) : List Bytes := (path.splitOn slash).filter fun s => !s.isEmpty

theorem splitOn_slash (start : Bytes) :
    (slash :: start).splitOn slash = [] :: start.splitOn slash := by
  simpa using splitOn_segment (List.not_mem_nil (a := slash)) start

/-- The parts of a path are its segments, and an empty part behind a trailing slash. -/
theorem splitOn_path {ss : List Bytes} (h : ∀ s ∈ ss, slash ∉ s) {rest : Bytes}
    (hrest : rest = [] ∨ rest = [slash]) (hne : pathOf ss ++ rest ≠ []) :
    (pathOf ss ++ rest).splitOn slash = [] :: ss ++ (if rest = [] then [] else [[]]) := by
  cases ss with
  | nil =>
    rcases hrest with rfl | rfl
    · exact absurd rfl hne
    · rfl
  | cons s ss =>
    have hcons : pathOf (s :: ss) ++ rest = slash :: (s ++ pathOf ss ++ rest) := by simp [pathOf]
    rw [hcons, splitOn_slash]
    rcases hrest with rfl | rfl
    · rw [splitOn_pathOf h [] [] (Or.inl ⟨rfl, rfl⟩)]
      rfl
    · rw [splitOn_pathOf h [[]] [slash] (Or.inr ⟨[], rfl, rfl⟩)]
      rfl

theorem pathSegments_path {ss : List Bytes} (h : ∀ s ∈ ss, s ≠ [] ∧ slash ∉ s) {rest : Bytes}
    (hrest : rest = [] ∨ rest = [slash]) : pathSegments (pathOf ss ++ rest) = ss := by
  have hfilter : ss.filter (fun s => !s.isEmpty) = ss :=
    List.filter_eq_self.mpr (fun s hs => by simp [(h s hs).1])
  by_cases hnil : pathOf ss ++ rest = []
  · cases ss with
    | nil => rw [hnil]; rfl
    | cons s ss => simp [pathOf] at hnil
  · rw [pathSegments, splitOn_path (fun s hs => (h s hs).2) hrest hnil, List.filter_append,
      List.filter_cons_of_neg (by simp), hfilter]
    rcases hrest with rfl | rfl <;> simp

/-- Reading back a legal path, with or without a trailing slash. -/
theorem parse_path {ss : List Bytes} {rest : Bytes} (hrest : rest = [] ∨ rest = [slash])
    (hne : pathOf ss ++ rest ≠ []) (h : ∀ s ∈ ss, slash ∉ s ∧ legalSegment s)
    (hlen : (pathOf ss ++ rest).length ≤ lexerCharLimit) :
    parseRequest (pathOf ss ++ rest) =
      ⟨ss, if rest = [] ∨ ss = [] then .end_ else .trailing⟩ := by
  obtain ⟨start, hstart⟩ : ∃ start, pathOf ss ++ rest = slash :: start := by
    cases ss with
    | nil =>
      rcases hrest with rfl | rfl
      · exact absurd rfl hne
      · exact ⟨[], rfl⟩
    | cons s ss => exact ⟨s ++ pathOf ss ++ rest, by simp [pathOf]⟩
  have hsplit := splitOn_path (fun s hs => (h s hs).1) hrest hne
  rw [hstart, splitOn_slash, List.cons_append, List.cons.injEq] at hsplit
  have hlegal : ∀ s ∈ ss, legalSegment s := fun s hs => (h s hs).2
  rw [parseRequest, if_pos ⟨by rw [hstart]; rfl, hlen⟩, hstart, List.tail_cons, hsplit.2]
  dsimp only
  rw [List.takeWhile_append_of_pos hlegal, List.dropWhile_append_of_pos hlegal]
  rcases hrest with rfl | rfl
  · simp [finOf]
  · by_cases hss : ss = [] <;> simp [finOf, legalSegment, hss]

/-- A path written from legal segments is read back as these. -/
theorem parse_pathOf {segments : List Bytes} (hne : segments ≠ [])
    (h : ∀ s ∈ segments, slash ∉ s ∧ legalSegment s) (hlen : (pathOf segments).length ≤ lexerCharLimit) :
    parseRequest (pathOf segments) = ⟨segments, .end_⟩ := by
  have hnil : pathOf segments ≠ [] := by
    obtain ⟨s, ss, rfl⟩ := List.exists_cons_of_ne_nil hne
    simp [pathOf]
  have hparse := parse_path (Or.inl rfl) (by rwa [List.append_nil]) h (by rwa [List.append_nil])
  rwa [List.append_nil, if_pos (Or.inl rfl)] at hparse

/-- The parts hold no '/', and a '/' before each of them gives the path back. -/
theorem splitOn_parts (start : Bytes) :
    (∀ s ∈ start.splitOn slash, slash ∉ s) ∧ pathOf (start.splitOn slash) = slash :: start := by
  induction hn : start.length using Nat.strongRecOn generalizing start with
  | _ n ih =>
    obtain ⟨s, ps, hsplit, hs, hstart⟩ := splitOn_cases start
    rw [hsplit]
    rcases hstart with ⟨rfl, rfl⟩ | ⟨rest, rfl, rfl⟩
    · exact ⟨by simpa using hs, by simp [pathOf]⟩
    · obtain ⟨hfree, hpath⟩ := ih rest.length (by simp [← hn]; omega) rest rfl
      refine ⟨List.forall_mem_cons.mpr ⟨hs, hfree⟩, ?_⟩
      rw [pathOf, List.flatMap_cons, ← pathOf, hpath, List.cons_append]

/-- A request that the lexer follows to its end is its segments, with or without a
trailing slash. -/
theorem path_of_parse {path : Bytes} (h : (parseRequest path).fin ≠ .illegal) :
    path.length ≤ lexerCharLimit ∧ (∀ s ∈ (parseRequest path).segments, slash ∉ s) ∧
      ∃ rest, (rest = [] ∨ rest = [slash]) ∧ path = pathOf (parseRequest path).segments ++ rest := by
  unfold parseRequest at h ⊢
  split
  · rename_i hload
    rw [if_pos hload, Ne, finOf_illegal, not_and_or, not_not, not_not] at h
    obtain ⟨hhead, hlen⟩ := hload
    obtain ⟨start, rfl⟩ := List.head?_eq_some_iff.mp hhead
    rw [List.tail_cons] at h ⊢
    obtain ⟨hfree, hpath⟩ := splitOn_parts start
    refine ⟨hlen, fun s hs => hfree s (List.takeWhile_prefix _ |>.subset hs), ?_⟩
    have hjoin := @List.takeWhile_append_dropWhile _ legalSegment (start.splitOn slash)
    dsimp only
    rw [← hpath]
    rcases h with h | h
    · rw [h, List.append_nil] at hjoin
      exact ⟨[], Or.inl rfl, by rw [hjoin, List.append_nil]⟩
    · refine ⟨[slash], Or.inr rfl, ?_⟩
      conv_lhs => rw [← hjoin, h]
      simp [pathOf]
  · rename_i hload
    rw [if_neg hload] at h
    exact absurd rfl h

end Wrouter
