import Wrouter.Resolve

/-!
# Exact matches

A pattern without a wildcard matches a legal path segment by segment, down to the
trailing slash. At most one pattern of a compiled set does, and it wins over every
wildcard.
-/
namespace Wrouter

open CLib Words

/-- The tokens of the pattern match the segments of the path one to one, and both or
neither end in a slash. A malformed path matches nothing. -/
def MatchesPath (w : List Tok) (path : Bytes) : Prop :=
  (parseRequest path).fin ≠ .illegal ∧ ∃ q, w = q ++ [requestEnd path] ∧
    q.length = (parseRequest path).segments.length ∧
    Fits MatchesSegment q (parseRequest path).segments

theorem matchesPath_iff {w : List Tok} {path : Bytes} : MatchesPath w path ↔
    (parseRequest path).fin ≠ .illegal ∧
      w = w.take (parseRequest path).segments.length ++ [requestEnd path] ∧
      (w.take (parseRequest path).segments.length).length = (parseRequest path).segments.length ∧
      Fits MatchesSegment (w.take (parseRequest path).segments.length)
        (parseRequest path).segments := by
  constructor
  · rintro ⟨hfin, q, rfl, hlen, hfit⟩
    rw [← hlen, List.take_left]
    exact ⟨hfin, rfl, rfl, hfit⟩
  · exact fun ⟨hfin, hw, hlen, hfit⟩ => ⟨hfin, _, hw, hlen, hfit⟩

instance (w : List Tok) (path : Bytes) : Decidable (MatchesPath w path) :=
  decidable_of_iff _ matchesPath_iff.symm

/-- A parameter as the caller reads it: its name, and `length` bytes of its value. -/
def Param.read (p : Param) : Option Bytes × Bytes := (p.name, (p.value.getD []).take p.length)

/-- The parameter names of a pattern, each with the segment at its own position. -/
def namedValues : List Tok → List Bytes → List (Option Bytes × Bytes)
  | .param name :: q, x :: xs => (some name, x) :: namedValues q xs
  | _ :: q, _ :: xs => namedValues q xs
  | _, _ => []

/-- What is recorded reads as the names of the pattern with the segments at their places. -/
theorem captures_read (q : List Tok) (xs : List Token) :
    (captures q xs).map Param.read = namedValues q (xs.map Token.text) := by
  induction q generalizing xs with
  | nil => cases xs <;> rfl
  | cons a q ih =>
    cases xs with
    | nil => cases a <;> rfl
    | cons t xs => cases a <;> simp [captures, namedValues, ih, Param.read, Token.text]

@[simp] theorem namedValues_nil_right (q : List Tok) : namedValues q [] = [] := by
  cases q with
  | nil => rfl
  | cons a q => cases a <;> rfl

theorem namedValues_append {q : List Tok} {xs : List Bytes} (h : q.length ≤ xs.length)
    (u : List Tok) :
    namedValues (q ++ u) xs = namedValues q xs ++ namedValues u (xs.drop q.length) := by
  induction q generalizing xs with
  | nil => cases xs <;> simp [namedValues]
  | cons a q ih =>
    cases xs with
    | nil => simp at h
    | cons x xs =>
      have := ih (by simpa using h)
      cases a <;> simp [namedValues, this]

theorem requestEnd_illegal {path : Bytes} (h : (parseRequest path).fin = .illegal) :
    requestEnd path = .illegal := by
  rw [requestEnd, h]
  rfl

section Response

variable {es : List Entry} {path : Bytes} {r : MatchResult} {q : List Tok} {walk : Walk}

/-- No pattern ends the way a malformed path does. -/
theorem Compatible.fin_legal (hc : Compatible es) {route : Route}
    (h : (q ++ [requestEnd path], route) ∈ dictionary es) : (parseRequest path).fin ≠ .illegal := by
  intro hfin
  rw [requestEnd_illegal hfin] at h
  exact (hc.legal _ h).1 (by simp)

/-- A prefix of a pattern that fits the segments lies on the trail. -/
theorem Response.prefix_trail (h : Response es path r q walk) (hc : Compatible es) {p u : List Tok}
    {route : Route} (hmem : (p ++ u, route) ∈ es)
    (hf : Fits MatchesSegment p (parseRequest path).segments) : p <+: q :=
  Words.prefix_trail hc.deterministic (Or.inr ⟨_, hmem, List.prefix_append p u⟩) hf h.trail

theorem Response.length_le (h : Response es path r q walk) :
    q.length ≤ (requestTokens path).length := by
  rw [length_requestTokens]
  exact fits_length h.trail.fit

/-- The pattern that matches the path is the one the walk ends on. -/
theorem Response.exact (h : Response es path r q walk) (hc : Compatible es) {w : List Tok}
    {route : Route} (hmem : (w, route) ∈ es) (hm : MatchesPath w path) :
    w = q ++ [requestEnd path] ∧ q.length = (parseRequest path).segments.length ∧
      walk = ⟨some route, captures q (requestTokens path)⟩ := by
  obtain ⟨-, p, rfl, hlen, hf⟩ := hm
  have hpre := h.prefix_trail hc hmem hf
  have hqlen := h.length_le
  rw [length_requestTokens] at hqlen
  obtain rfl : p = q := hpre.eq_of_length (Nat.le_antisymm hpre.length_le (by omega))
  refine ⟨rfl, hlen, ?_⟩
  have hlt : ¬ p.length < (requestTokens path).length := by
    rw [length_requestTokens]
    omega
  cases h.outcome with
  | found _ hr => rw [hc.functional hr hmem]
  | missing _ hno => exact absurd hmem (hno route)
  | fallback hshort _ => exact absurd hshort hlt
  | lost hshort _ => exact absurd hshort hlt

/-- Without an exact match and without wildcards there is nothing to find. -/
theorem Response.nothing (h : Response es path r q walk) (hc : Compatible es)
    (hno : ∀ e ∈ es, Tok.wildcard ∉ e.1 ∧ ¬ MatchesPath e.1 path) : walk.route = none := by
  have htrail := h.trail
  cases h.outcome with
  | found hlen hr =>
    refine absurd ⟨hc.fin_legal hr, q, rfl, ?_, htrail.fit⟩ (hno _ hr).2
    rw [hlen, length_requestTokens]
  | missing => rfl
  | fallback _ hd => exact absurd (by simp [wildcardEnd]) (hno _ hd.mem).1
  | lost => rfl

/-- A request without a route leaves no parameters. -/
theorem Response.none_empty (h : Response es path r q walk) (hnone : walk.route = none) :
    r.route = none ∧ r.dispatcher.params.count = 0 := by
  refine ⟨h.route.trans hnone, ?_⟩
  rw [← params_list_length, h.params, Walk.params, hnone]
  rfl

end Response

/-- Two positions of the list do not hold patterns that both match one path. -/
theorem Compatible.matches_unique {paramSyntax : ParamSyntax} {routes : List (Bytes × Route)}
    (hc : Compatible (entries paramSyntax routes)) {path : Bytes} {i j : Nat}
    {r s : Bytes × Route} (hi : routes[i]? = some r) (hj : routes[j]? = some s)
    (hr : MatchesPath (patternWord paramSyntax r.1) path)
    (hs : MatchesPath (patternWord paramSyntax s.1) path) : i = j := by
  have hmem : ∀ {k : Nat} {t : Bytes × Route}, routes[k]? = some t →
      (entries paramSyntax routes)[k]? = some (patternWord paramSyntax t.1, t.2) := by
    intro k t ht
    rw [entries, List.getElem?_map, ht]
    rfl
  obtain ⟨hi', hei⟩ := List.getElem?_eq_some_iff.mp (hmem hi)
  obtain ⟨hj', hej⟩ := List.getElem?_eq_some_iff.mp (hmem hj)
  obtain ⟨-, p, hp, hplen, hpf⟩ := hr
  obtain ⟨-, u, hu, hulen, huf⟩ := hs
  have hlive : ∀ {k : Nat} {t : Bytes × Route} {v : List Tok}, routes[k]? = some t →
      patternWord paramSyntax t.1 = v ++ [requestEnd path] →
      Live (dictionary (entries paramSyntax routes)) v := fun hk hv =>
    Or.inr ⟨_, List.mem_of_getElem? (hmem hk), hv ▸ List.prefix_append _ _⟩
  have hsame : patternWord paramSyntax r.1 = patternWord paramSyntax s.1 := by
    rw [hp, hu, eq_of_fits hc.deterministic (hlive hi hp) (hlive hj hu) hpf huf
      (hplen.trans hulen.symm)]
  rcases Nat.lt_trichotomy i j with hlt | heq | hgt
  · have := List.pairwise_iff_getElem.mp hc.pairwise i j hi' hj' hlt
    rw [hei, hej] at this
    exact absurd (Or.inl hsame) this
  · exact heq
  · have := List.pairwise_iff_getElem.mp hc.pairwise j i hj' hi' hgt
    rw [hei, hej] at this
    exact absurd (Or.inl hsame.symm) this

/-- End to end: a path that some pattern matches gets exactly that pattern's route and
parameters; without a match and without wildcards it gets nothing. -/
theorem exact_resolution (L : Libc) {options : Options} {routes : List (Bytes × Route)}
    {d : Dispatcher} (h : Serves L options routes d) (path : Bytes) :
    (∀ (i j : Nat) (r s : Bytes × Route), routes[i]? = some r → routes[j]? = some s →
      MatchesPath (patternWord options.paramSyntax r.1) path →
      MatchesPath (patternWord options.paramSyntax s.1) path → i = j) ∧
    ∃ res, resolveRequest L d path = some res ∧
      (∀ r ∈ routes, MatchesPath (patternWord options.paramSyntax r.1) path →
        res.route = some r.2 ∧ res.dispatcher.params.list.map Param.read =
          namedValues (patternWord options.paramSyntax r.1) (parseRequest path).segments) ∧
      ((∀ r ∈ routes, Tok.wildcard ∉ patternWord options.paramSyntax r.1 ∧
        ¬ MatchesPath (patternWord options.paramSyntax r.1) path) →
        res.route = none ∧ res.dispatcher.params.count = 0) := by
  have hc := h.compatible
  refine ⟨fun i j r s hi hj hr hs => hc.matches_unique hi hj hr hs, ?_⟩
  obtain ⟨res, q, walk, hres, hresp⟩ := h.responds path
  refine ⟨res, hres, fun r hr hm => ?_, fun hno => ?_⟩
  · obtain ⟨hw, hlen, hwalk⟩ := hresp.exact hc (List.mem_map_of_mem hr) hm
    refine ⟨by rw [hresp.route, hwalk], ?_⟩
    rw [hresp.params, hwalk, Walk.params, if_pos Option.isSome_some, captures_read, requestTokens_text, hw,
      namedValues_append hlen.le, hlen, List.drop_length, namedValues_nil_right, List.append_nil]
  · refine hresp.none_empty (hresp.nothing hc ?_)
    rw [entries, List.forall_mem_map]
    exact hno

/-- The pattern that matches goes before the wildcard. -/
theorem exact_resolution_param : ∃ d res,
    Serves .reference plainOptions [(ascii "/*", ⟨0, 1⟩), (ascii "/a/:x", ⟨0, 2⟩)] d ∧
      resolveRequest .reference d (ascii "/a/1") = some res ∧ res.route = some ⟨0, 2⟩ ∧
      res.dispatcher.params.list.map Param.read = [(some (ascii "x"), ascii "1")] := by
  obtain ⟨d, hs⟩ : ∃ d,
      Serves .reference plainOptions [(ascii "/*", ⟨0, 1⟩), (ascii "/a/:x", ⟨0, 2⟩)] d :=
    exists_serves (by decide +kernel)
  obtain ⟨-, res, hres, hexact, -⟩ := exact_resolution .reference hs (ascii "/a/1")
  obtain ⟨hroute, hparams⟩ := hexact (ascii "/a/:x", ⟨0, 2⟩) (by simp) (by decide +kernel)
  exact ⟨d, res, hs, hres, hroute, hparams.trans (by decide +kernel)⟩

end Wrouter
