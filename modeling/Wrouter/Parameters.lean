import Wrouter.Overrun

/-!
# What the buffer receives

Parameters are recorded on the way down and never taken back. So a request that
falls back to a wildcard also has those recorded below it.
-/
namespace Wrouter

open CLib Words

theorem namedValues_eq_nil {u : List Tok} {xs : List Bytes} (h : u.length ≤ xs.length) :
    namedValues u xs = [] ↔ ∀ name, Tok.param name ∉ u := by
  induction u generalizing xs with
  | nil => cases xs <;> simp [namedValues]
  | cons a u ih =>
    cases xs with
    | nil => simp at h
    | cons x xs =>
      have := ih (show u.length ≤ xs.length by simpa using h)
      cases a with
      | param name =>
        refine iff_of_false (by simp [namedValues]) (fun hno => hno name List.mem_cons_self)
      | _ => simp [namedValues, this]

def requestRest (path : Bytes) (k : Nat) : Bytes :=
  path.drop ((pathOf ((parseRequest path).segments.take k)).length + 1)

theorem segmentTokens_ptr (start : Bytes) {ss : List Bytes} {k : Nat} (h : k < ss.length) :
    (segmentTokens start ss)[k]?.bind Token.ptr =
      some (start.drop (pathOf (ss.take k)).length) := by
  induction ss generalizing start k with
  | nil => simp at h
  | cons s ss ih =>
    cases k with
    | zero => simp [segmentTokens, pathOf]
    | succ k =>
      rw [segmentTokens, List.getElem?_cons_succ, ih _ (by simpa using h), List.drop_drop]
      congr 2
      simp only [pathOf, List.take_succ_cons, List.flatMap_cons, List.length_append, List.length_cons]

theorem wildcardCapture_eq {path : Bytes} {k : Nat}
    (h : k < (parseRequest path).segments.length) : wildcardCapture (requestTokens path) k =
      ⟨some wildcardParam, some (requestRest path k), (requestRest path k).length⟩ := by
  have hvalue := segmentTokens_ptr path.tail h
  rw [← List.drop_one, List.drop_drop, Nat.add_comm] at hvalue
  rw [wildcardCapture, requestTokens, ← List.drop_one, hvalue, requestRest]
  rfl

/-- The wildcard's parameter is called `_` and reads as the rest of the request. -/
theorem wildcardCapture_read {path : Bytes} {k : Nat}
    (h : k < (parseRequest path).segments.length) :
    (wildcardCapture (requestTokens path) k).read = (some wildcardParam, requestRest path k) := by
  rw [wildcardCapture_eq h]
  exact Prod.ext rfl List.take_length

/-- The first `k` segments of a request stand at its front; what follows is not empty. -/
theorem request_split {path : Bytes} {k : Nat} (h : k < (parseRequest path).segments.length) :
    path = pathOf ((parseRequest path).segments.take k) ++ slash :: requestRest path k ∧
      requestRest path k ≠ [] := by
  have hne : (parseRequest path).segments ≠ [] := List.ne_nil_of_length_pos (Nat.zero_lt_of_lt h)
  obtain ⟨rest, hparts⟩ := parse_segments path
  have hslash : path = slash :: path.tail := by
    unfold parseRequest at hne
    split at hne
    · rename_i hload
      exact List.eq_cons_of_mem_head? hload.1
    · exact absurd rfl hne
  have hpath := (splitOn_parts path.tail).2
  rw [← hparts, ← hslash] at hpath
  obtain ⟨s, ss, hdrop⟩ : ∃ s ss, (parseRequest path).segments.drop k = s :: ss :=
    List.exists_cons_of_ne_nil (by simpa using h)
  have hs : s ≠ [] := by
    have hlegal := parse_legal path s (List.mem_of_mem_drop (hdrop ▸ List.mem_cons_self))
    rintro rfl
    simp [legalSegment] at hlegal
  have hsplit : path = pathOf ((parseRequest path).segments.take k) ++
      slash :: (s ++ pathOf (ss ++ rest)) := by
    conv_lhs => rw [← hpath, ← List.take_append_drop k (parseRequest path).segments, hdrop]
    simp [pathOf]
  have hrest : requestRest path k = s ++ pathOf (ss ++ rest) := by
    unfold requestRest
    generalize (parseRequest path).segments = segs at hsplit
    rw [hsplit]
    simp
  rw [hrest]
  exact ⟨hsplit, by simp [hs]⟩

/-- Some pattern goes on from `t` with tokens that match the request, up to a parameter. -/
def RecordsBelow (es : List Entry) (segs : List Bytes) (t : List Tok) : Prop :=
  ∃ e ∈ es, ∃ u name, t ++ u ++ [.param name] <+: e.1 ∧
    Fits MatchesSegment (t ++ u ++ [.param name]) segs

/-- Letters that fit and take a slot include a parameter. -/
theorem exists_param {u : List Tok} {xs : List Bytes} (h : Fits MatchesSegment u xs)
    (hs : slots u ≠ 0) : ∃ v name x, u = v ++ .param name :: x := by
  induction u generalizing xs with
  | nil => exact absurd rfl hs
  | cons a u ih =>
    cases xs with
    | nil => exact h.elim
    | cons y ys =>
      obtain ⟨ha, h⟩ := h
      cases a with
      | param name => exact ⟨[], name, u, rfl⟩
      | literal s =>
        obtain ⟨v, name, x, rfl⟩ := ih h (by simpa [slots] using hs)
        exact ⟨.literal s :: v, name, x, rfl⟩
      | _ => exact ha.elim

/-- What matches behind a prefix matches the segments behind it. -/
theorem fits_append_right {u v : List Tok} {xs : List Bytes}
    (h : Fits MatchesSegment (u ++ v) xs) : Fits MatchesSegment v (xs.drop u.length) := by
  induction u generalizing xs with
  | nil => exact h
  | cons a u ih =>
    cases xs with
    | nil => exact h.elim
    | cons x xs => exact ih h.2

/-- A request that overruns the buffer recorded something below the wildcard it falls back to. -/
theorem Response.recordsBelow {es : List Entry} {path : Bytes} {r : MatchResult} {q t : List Tok}
    {walk : Walk} {route : Route} (h : Response es path r q walk) (hc : Compatible es)
    (hbest : MostSpecific es (parseRequest path).segments t route)
    (hover : Overrun es (parseRequest path).segments) :
    RecordsBelow es (parseRequest path).segments t := by
  obtain ⟨-, hreach, e, he, p, hpe, hfit, hmost⟩ := hover
  have hmore : slots t + 1 ≤ slots p := by
    have hslots := hmost _ hbest.1.mem
    rwa [slots_append] at hslots
  have htq := (h.falls_back hc hbest hreach).1
  have hpq : p <+: q := by
    obtain ⟨w, hw⟩ := hpe
    exact h.prefix_trail hc (show (p ++ w, e.2) ∈ es by rwa [hw]) hfit
  rcases List.prefix_or_prefix_of_prefix hpq htq with hpt | ⟨u, rfl⟩
  · have hle := slots_mono hpt
    omega
  rw [slots_append] at hmore
  obtain ⟨v, name, x, rfl⟩ := exists_param (fits_append_right hfit) (by omega)
  have hpre : t ++ v ++ [.param name] <+: t ++ (v ++ .param name :: x) := ⟨x, by simp⟩
  exact ⟨e, he, v, name, hpre.trans hpe, fits_anti hpre hfit⟩

/-- A request resolved to the wildcard `t/*` has the parameters of `t` and the wildcard's,
exactly when nothing is recorded below `t`; and then it stays in the buffer. -/
theorem wildcard_parameters (L : Libc) {options : Options} {routes : List (Bytes × Route)}
    {d : Dispatcher} (h : Serves L options routes d) {path : Bytes} {res : MatchResult}
    (hres : resolveRequest L d path = some res) {t : List Tok} {route : Route}
    (hno : ∀ r ∈ routes, ¬ MatchesPath (patternWord options.paramSyntax r.1) path)
    (hbest : MostSpecific (entries options.paramSyntax routes) (parseRequest path).segments t route)
    (hroute : res.route = some route) :
    (res.dispatcher.params.list.map Param.read =
        namedValues t (parseRequest path).segments ++
          [(some wildcardParam, requestRest path t.length)] ↔
      ¬ RecordsBelow (entries options.paramSyntax routes) (parseRequest path).segments t) ∧
    (¬ RecordsBelow (entries options.paramSyntax routes) (parseRequest path).segments t →
      d.request L path = some res) := by
  have hc := h.compatible
  obtain ⟨res', q, walk, hres', hresp⟩ := h.responds path
  obtain rfl : res = res' := Option.some.inj (hres.symm.trans hres')
  refine ⟨?_, fun hcond => Dispatcher.request_some.mpr ⟨hres, ?_⟩⟩
  swap
  · rw [← Bool.not_eq_true, h.overruns_iff path]
    exact mt (hresp.recordsBelow hc hbest) hcond
  have hreach :
      ¬ ReachesAll (entries options.paramSyntax routes) (parseRequest path).segments := by
    intro hall
    rw [hresp.route, hresp.stays hc (by rw [entries, List.forall_mem_map]; exact hno)
      (Or.inl hall)] at hroute
    simp at hroute
  obtain ⟨⟨v, rfl⟩, hwalk⟩ := hresp.falls_back hc hbest hreach
  have hfit := fits_length hresp.trail.fit
  rw [List.length_append] at hfit
  rw [hresp.params, hwalk, Walk.params, if_pos Option.isSome_some, List.map_append, captures_read,
    requestTokens_text, List.map_singleton, wildcardCapture_read hbest.1.more,
    namedValues_append hbest.1.more.le, List.append_left_inj, List.append_right_eq_self,
    namedValues_eq_nil (by rw [List.length_drop]; omega)]
  constructor
  · rintro hnone ⟨e, he, u, name, ⟨w, hw⟩, hfits⟩
    have hmem : (t ++ u ++ [.param name] ++ w, e.2) ∈ entries options.paramSyntax routes := by
      rwa [hw]
    have hpre := hresp.prefix_trail hc hmem hfits
    rw [List.append_assoc, List.prefix_append_right_inj] at hpre
    exact hnone name (hpre.subset (by simp))
  · intro hcond name hmem
    obtain ⟨u, w, rfl⟩ := List.append_of_mem hmem
    have hpre : t ++ u ++ [.param name] <+: t ++ (u ++ .param name :: w) := ⟨w, by simp⟩
    obtain ⟨e, he, hlive⟩ := (live_anti hpre hresp.trail.live).resolve_left (by simp)
    exact hcond ⟨e, he, u, name, hlive, fits_anti hpre hresp.trail.fit⟩

/-- A wildcard without other patterns below it. -/
theorem wildcard_parameters_alone : ∃ d res, Serves .reference plainOptions
    [(ascii "/*", ⟨0, 1⟩)] d ∧ resolveRequest .reference d (ascii "/a/1") = some res ∧
      ¬ RecordsBelow (entries .colon [(ascii "/*", ⟨0, 1⟩)])
        (parseRequest (ascii "/a/1")).segments [] ∧ d.request .reference (ascii "/a/1") = some res := by
  obtain ⟨d, res, hs, hres, hroute, hparams⟩ :
      ∃ d res, Serves .reference plainOptions [(ascii "/*", ⟨0, 1⟩)] d ∧
        resolveRequest .reference d (ascii "/a/1") = some res ∧ res.route = some ⟨0, 1⟩ ∧
        res.dispatcher.params.list.map Param.read = [(some wildcardParam, ascii "a/1")] :=
    trial_serves (by decide +kernel)
  obtain ⟨hiff, hstays⟩ := wildcard_parameters .reference hs hres (t := []) (by decide +kernel)
    (by decide +kernel) hroute
  exact ⟨d, res, hs, hres, hiff.mp hparams, hstays (hiff.mp hparams)⟩

/-- The parameter of `/a/:x/b` shows up in a request that `/*` resolves. There is room for it: a
third pattern has two parameters. -/
theorem stray_parameter : ∃ d res,
    Serves .reference plainOptions
        [(ascii "/*", ⟨0, 1⟩), (ascii "/a/:x/b", ⟨0, 2⟩), (ascii "/z/:p/:q", ⟨0, 3⟩)] d ∧
      d.request .reference (ascii "/a/1/c") = some res ∧ res.route = some ⟨0, 1⟩ ∧
      res.dispatcher.params.list.map Param.read =
        [(some (ascii "x"), ascii "1"), (some wildcardParam, ascii "a/1/c")] ∧
      res.dispatcher.params.list.map Param.read ≠
        namedValues [] [ascii "a", ascii "1", ascii "c"] ++ [(some wildcardParam, ascii "a/1/c")] :=
  trial_request (by decide +kernel)

/-- A request that no pattern matches exactly and that gets a route gets it from the most
specific wildcard `t/*`: the last parameter is the wildcard's, and its value is what follows
the segments that `t` took. -/
theorem wildcard_remainder (L : Libc) {options : Options} {routes : List (Bytes × Route)}
    {d : Dispatcher} (h : Serves L options routes d) {path : Bytes} {res : MatchResult}
    (hres : resolveRequest L d path = some res) {route : Route} (hroute : res.route = some route)
    (hno : ∀ r ∈ routes, ¬ MatchesPath (patternWord options.paramSyntax r.1) path) :
    ∃ t value p,
      MostSpecific (entries options.paramSyntax routes) (parseRequest path).segments t route ∧
      path = pathOf ((parseRequest path).segments.take t.length) ++ slash :: value ∧
      value ≠ [] ∧ res.dispatcher.params.list.getLast? = some p ∧
      p.name = some wildcardParam ∧ p.value = some value ∧
      p.length = value.length ∧ p.length < 65536 := by
  have hc := h.compatible
  obtain ⟨res', q, walk, hres', hresp⟩ := h.responds path
  obtain rfl : res = res' := Option.some.inj (hres.symm.trans hres')
  rw [hresp.route] at hroute
  have hno' : ∀ e ∈ entries options.paramSyntax routes, ¬ MatchesPath e.1 path := by
    rw [entries, List.forall_mem_map]
    exact hno
  have hreach :
      ¬ ReachesAll (entries options.paramSyntax routes) (parseRequest path).segments := by
    intro hall
    simp [hresp.stays hc hno' (Or.inl hall)] at hroute
  obtain ⟨t, route', hw⟩ : ∃ t route', WildcardMatch (entries options.paramSyntax routes)
      (parseRequest path).segments t route' := by
    by_contra hnone
    have hstays := hresp.stays hc hno' (Or.inr (fun t r hw => hnone ⟨t, r, hw⟩))
    simp [hstays] at hroute
  obtain ⟨t, route', hbest⟩ := mostSpecific_exists hw
  have hwalk := (hresp.falls_back hc hbest hreach).2
  obtain rfl : route' = route := by simpa [hwalk] using hroute
  obtain ⟨hpath, hne⟩ := request_split hbest.1.more
  have hshort : path.length ≤ lexerCharLimit :=
    parse_length (List.ne_nil_of_length_pos (Nat.zero_lt_of_lt hbest.1.more))
  have hlength := congrArg List.length hpath
  rw [List.length_append, List.length_cons] at hlength
  refine ⟨t, requestRest path t.length, ⟨some wildcardParam, some (requestRest path t.length),
    (requestRest path t.length).length⟩, hbest, hpath, hne, ?_, rfl, rfl, rfl, ?_⟩
  · rw [hresp.params, hwalk, Walk.params, if_pos Option.isSome_some,
      wildcardCapture_eq hbest.1.more, List.getLast?_concat]
  · simp only [lexerCharLimit] at hshort ⊢
    omega

/-- Two shallower wildcards and two segments below the deepest one change nothing. -/
theorem wildcard_remainder_nested : ∃ d res p,
    Serves .reference plainOptions [(ascii "/*", ⟨0, 1⟩), (ascii "/a/*", ⟨0, 2⟩),
      (ascii "/a/b/*", ⟨0, 3⟩), (ascii "/a/b/c/d/e/f", ⟨0, 4⟩)] d ∧
      resolveRequest .reference d (ascii "/a/b/c/d/x/y/") = some res ∧
      res.route = some ⟨0, 3⟩ ∧ res.dispatcher.params.list.getLast? = some p ∧
      p.name = some wildcardParam ∧ p.value = some (ascii "c/d/x/y/") ∧ p.length = 8 := by
  obtain ⟨d, res, hs, hres, hroute⟩ : ∃ d res, Serves .reference plainOptions
      [(ascii "/*", ⟨0, 1⟩), (ascii "/a/*", ⟨0, 2⟩), (ascii "/a/b/*", ⟨0, 3⟩),
        (ascii "/a/b/c/d/e/f", ⟨0, 4⟩)] d ∧
      resolveRequest .reference d (ascii "/a/b/c/d/x/y/") = some res ∧
      res.route = some ⟨0, 3⟩ :=
    trial_serves (by decide +kernel)
  obtain ⟨t, value, p, hbest, hpath, -, hlast, hname, hvalue, hlength, -⟩ :=
    wildcard_remainder .reference hs hres hroute (by decide +kernel)
  have hdeepest : MostSpecific (entries plainOptions.paramSyntax
      [(ascii "/*", ⟨0, 1⟩), (ascii "/a/*", ⟨0, 2⟩), (ascii "/a/b/*", ⟨0, 3⟩),
        (ascii "/a/b/c/d/e/f", ⟨0, 4⟩)])
      (parseRequest (ascii "/a/b/c/d/x/y/")).segments
      [.literal (ascii "a"), .literal (ascii "b")] ⟨0, 3⟩ := by decide +kernel
  obtain ⟨rfl, -⟩ := hbest.unique hs.compatible hdeepest
  have hsplit : ascii "/a/b/c/d/x/y/" = pathOf ((parseRequest (ascii "/a/b/c/d/x/y/")).segments.take
      2) ++ slash :: ascii "c/d/x/y/" := by decide +kernel
  have hrest : slash :: ascii "c/d/x/y/" = slash :: value :=
    List.append_cancel_left (hsplit.symm.trans hpath)
  obtain rfl : ascii "c/d/x/y/" = value := (List.cons.inj hrest).2
  exact ⟨d, res, p, hs, hres, hroute, hlast, hname, hvalue, hlength⟩

end Wrouter
