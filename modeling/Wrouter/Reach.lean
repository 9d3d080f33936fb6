import Wrouter.Overrun
import Wrouter.Patterns

/-!
# A pattern as a request

A pattern of literals is a path, and the two lexers read it alike as long as both take
it. The pattern lexer limits every segment, the request lexer the whole path.
-/
namespace Wrouter

open CLib

variable {σ : ParamSyntax}

def isLiteral : Tok → Bool
  | .literal _ => true
  | _ => false

/-- All the tokens of the pattern before the last are literals. -/
def Literals (w : List Tok) : Prop := ∀ t ∈ w.dropLast, isLiteral t

instance (w : List Tok) : Decidable (Literals w) :=
  inferInstanceAs (Decidable (∀ t ∈ w.dropLast, isLiteral t))

theorem literal_pieces {ps : List Piece} (h : ∀ a ∈ ps, isLiteral a.tok) :
    ∃ segs : List Bytes, ps = segs.map .literal := by
  induction ps with
  | nil => exact ⟨[], rfl⟩
  | cons a ps ih =>
    obtain ⟨ha, hps⟩ := List.forall_mem_cons.mp h
    obtain ⟨segs, rfl⟩ := ih hps
    cases a with
    | literal s => exact ⟨s :: segs, rfl⟩
    | _ => simp [Piece.tok, isLiteral] at ha

/-- Literals stand in segments of their own. -/
theorem Spelt.literals {p rest : Bytes} {ps : List Piece} (h : Spelt σ p ps rest)
    (hlit : ∀ a ∈ ps, isLiteral a.tok) : ∃ segs : List Bytes, ps = segs.map .literal ∧
      p = pathOf segs ++ rest ∧ ∀ s ∈ segs, slash ∉ s ∧ legalSegment s := by
  obtain ⟨gs, rfl, hgs, hp, -⟩ := h.groups
  obtain ⟨ps, rfl⟩ := singles (fun g hg => (hgs g hg).1) (fun a b as hmem => by
    have htok := hlit a (List.mem_flatten.mpr ⟨_, hmem, List.mem_cons_self⟩)
    have hglues := (hgs _ hmem).2.1 a List.mem_cons_self
    cases a <;> simp [Piece.glues, Piece.tok, isLiteral] at htok hglues)
  rw [flatten_singles] at hlit ⊢
  obtain ⟨segs, rfl⟩ := literal_pieces hlit
  refine ⟨segs, rfl, ?_, fun s hs => ?_⟩
  · rw [hp, groupText_singles, List.map_map]
    congr 2
    exact List.map_id segs
  · obtain ⟨hne, -, hslash, hbytes, -⟩ : (Piece.literal s).Ok σ :=
      (hgs [.literal s] (List.mem_map_of_mem (List.mem_map_of_mem hs))).2.2 _
        (List.mem_singleton_self _)
    exact ⟨hslash, by simpa [legalSegment, hne] using hbytes⟩

theorem fits_literals (segs : List Bytes) :
    Words.Fits MatchesSegment (segs.map .literal) segs := by
  induction segs with
  | nil => trivial
  | cons s segs ih => exact ⟨rfl, ih⟩

/-- Literals record nothing. -/
theorem captures_literals (segs : List Bytes) (xs : List Token) :
    captures (segs.map .literal) xs = [] := by
  induction segs generalizing xs with
  | nil => rfl
  | cons s segs ih =>
    cases xs with
    | nil => rfl
    | cons t xs => exact ih xs

/-- A literal pattern matches itself, read as a request. -/
theorem Spelt.matches_self {p rest : Bytes} {segs : List Bytes}
    (h : Spelt σ p (segs.map .literal) rest) (hp : p = pathOf segs ++ rest)
    (hlegal : ∀ s ∈ segs, slash ∉ s ∧ legalSegment s) (hf : NulFree p)
    (hlen : p.length ≤ lexerCharLimit) : MatchesPath (patternWord σ p) p := by
  have hne : p ≠ [] := by
    rintro rfl
    exact absurd h.1 (by simp)
  have hparse : parseRequest p = ⟨segs, if rest = [] ∨ segs = [] then .end_ else .trailing⟩ := by
    subst hp
    exact parse_path h.2.2 hne hlegal hlen
  have hend : lastTok (segs.map .literal) rest = requestEnd p := by
    rw [requestEnd, hparse, lastTok]
    rcases h.2.2 with rfl | rfl
    · simp [Token.bare, Token.tok]
    · by_cases hsegs : segs = [] <;> simp [hsegs, Token.bare, Token.tok]
  rw [h.word hf, hend, List.map_map]
  refine ⟨?_, segs.map .literal, rfl, by rw [hparse, List.length_map], ?_⟩
  · rw [hparse]
    split <;> simp
  · rw [hparse]
    exact fits_literals segs

/-- A path that is too long has no segments to leave the patterns with. -/
theorem reachesAll_too_long {es : List Entry} {e : Entry} (he : e ∈ es) {path : Bytes}
    (hlen : lexerCharLimit < path.length) : ReachesAll es (parseRequest path).segments := by
  have hparse : parseRequest path = ⟨[], .illegal⟩ :=
    if_neg fun hload => Nat.not_lt.mpr hload.2 hlen
  rw [hparse]
  exact ⟨e, he, [], List.nil_prefix, rfl, trivial⟩

/-- No walk starts on a path that is too long. -/
theorem Response.too_long {es : List Entry} {path : Bytes} {r : MatchResult} {q : List Tok}
    {walk : Walk} (h : Response es path r q walk) (hc : Compatible es) {e : Entry} (he : e ∈ es)
    (hlen : lexerCharLimit < path.length) : r.route = none ∧ r.dispatcher.params.count = 0 := by
  have hparse : parseRequest path = ⟨[], .illegal⟩ :=
    if_neg fun hload => Nat.not_lt.mpr hload.2 hlen
  exact h.none_empty (h.stays hc (fun e _ hm => hm.1 (by rw [hparse]))
    (Or.inl (reachesAll_too_long he hlen)))

/-- A literal pattern that the request lexer takes resolves to its own route, without
parameters; a longer one is refused and gets the fallback. -/
theorem literal_pattern_reachable (L : Libc) {options : Options} {routes : List (Bytes × Route)}
    {d : Dispatcher} (h : Serves L options routes d) {p : Bytes} {route : Route}
    (hmem : (p, route) ∈ routes) (hf : NulFree p)
    (hlit : Literals (patternWord options.paramSyntax p)) :
    ∃ ctx d', wrouterResolve L d p = some (ctx, d') ∧ d'.params.count = 0 ∧
      (p.length ≤ lexerCharLimit → ctx = route.ctx) ∧
      (lexerCharLimit < p.length → ctx = d.router.fallback.ctx) := by
  have hc := h.compatible
  have hentry : (patternWord options.paramSyntax p, route) ∈ entries options.paramSyntax routes :=
    List.mem_map.mpr ⟨(p, route), hmem, rfl⟩
  obtain ⟨ps, rest, hspelt⟩ := (accepted_iff hf).mp (hc.legal _ hentry).1
  have hpieces : ∀ a ∈ ps, isLiteral a.tok := by
    rwa [Literals, hspelt.word hf, List.dropLast_concat, List.forall_mem_map] at hlit
  obtain ⟨segs, rfl, hp, hlegal⟩ := hspelt.literals hpieces
  have hreach : ReachesAll (entries options.paramSyntax routes) (parseRequest p).segments := by
    by_cases hlen : p.length ≤ lexerCharLimit
    · exact (hspelt.matches_self hp hlegal hf hlen).reachesAll hentry
    · exact reachesAll_too_long hentry (Nat.not_le.mp hlen)
  obtain ⟨r, q, walk, hres, hresp⟩ := h.request_within hreach
  have hresolve : wrouterResolve L d p =
      some ((r.route.getD d.router.fallback).ctx, r.dispatcher) := by
    rw [wrouterResolve, strlen_eq hf, List.take_length, wrouterNresolve, hres]
    rfl
  refine ⟨_, _, hresolve, ?_⟩
  by_cases hlen : p.length ≤ lexerCharLimit
  · obtain ⟨hw, -, hwalk⟩ := hresp.exact hc hentry (hspelt.matches_self hp hlegal hf hlen)
    obtain rfl : q = segs.map .literal := by
      rw [hspelt.word hf, List.map_map] at hw
      exact (List.append_inj_left' hw rfl).symm
    refine ⟨?_, fun _ => ?_, fun hlong => absurd hlen (Nat.not_le.mpr hlong)⟩
    · rw [← params_list_length, hresp.params, hwalk, Walk.params, if_pos Option.isSome_some,
        captures_literals, List.length_nil]
    · rw [hresp.route, hwalk]
      rfl
  · obtain ⟨hnone, hcount⟩ := hresp.too_long hc hentry (Nat.not_le.mp hlen)
    refine ⟨hcount, fun hle => absurd hle hlen, fun _ => ?_⟩
    rw [hnone]
    rfl

/-- The literal pattern goes before the wildcard that matches it too. -/
theorem literal_pattern_reachable_slash : ∃ d ctx d',
    Serves .reference plainOptions [(ascii "/a/*", ⟨0, 1⟩), (ascii "/a/b/", ⟨0, 2⟩)] d ∧
      wrouterResolve .reference d (ascii "/a/b/") = some (ctx, d') ∧ ctx = 2 := by
  obtain ⟨d, hs⟩ : ∃ d,
      Serves .reference plainOptions [(ascii "/a/*", ⟨0, 1⟩), (ascii "/a/b/", ⟨0, 2⟩)] d :=
    exists_serves (by decide +kernel)
  have hf : NulFree (ascii "/a/b/") := by
    unfold NulFree
    decide
  obtain ⟨ctx, d', hres, -, hctx, -⟩ := literal_pattern_reachable .reference hs
    (List.mem_cons_of_mem _ List.mem_cons_self) hf (by decide)
  exact ⟨d, ctx, d', hs, hres, hctx (by decide)⟩

/-- Two segments that the pattern lexer takes, one byte too long together. -/
def longPattern : Bytes := pathOf [List.replicate 2040 97, List.replicate 2039 98]

/-- Two segments of half the limit each are accepted, and refused as a request. -/
theorem long_literal_unreachable : ∃ d d',
    Serves .reference plainOptions [(longPattern, ⟨0, 1⟩)] d ∧ NulFree longPattern ∧
      Literals (patternWord .colon longPattern) ∧
      wrouterResolve .reference d longPattern = some (0, d') := by
  have hf : NulFree longPattern := by
    unfold NulFree
    decide +kernel
  obtain ⟨d, r, hs, hres, hroute, hctx⟩ : ∃ d r,
      Serves .reference plainOptions [(longPattern, ⟨0, 1⟩)] d ∧
        d.request .reference longPattern = some r ∧ r.route = none ∧
          d.router.fallback.ctx = 0 := trial_request (by decide +kernel)
  refine ⟨d, r.dispatcher, hs, hf, by decide +kernel, ?_⟩
  rw [wrouterResolve, strlen_eq hf, List.take_length, wrouterNresolve, hres]
  simp [hroute, hctx]

end Wrouter
