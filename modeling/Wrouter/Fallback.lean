import Mathlib.Order.Nat
import Wrouter.Exact

/-!
# The wildcard fallback

A wildcard is taken when the request leaves every pattern before its last segment:
then it is the most specific one. A request whose segments all lie on some pattern
ends there, wildcard or not. The parameters recorded on the way stay recorded.
-/
namespace Wrouter

open CLib Words

/-- A wildcard pattern `t/*` whose segments match the leading segments of the request,
with at least one more segment for the '*'. -/
structure WildcardMatch (es : List Entry) (segs : List Bytes) (t : List Tok) (route : Route) :
    Prop where
  mem : (t ++ wildcardEnd, route) ∈ es
  more : t.length < segs.length
  fits : Fits MatchesSegment t segs

/-- The one with the most segments. -/
def MostSpecific (es : List Entry) (segs : List Bytes) (t : List Tok) (route : Route) : Prop :=
  WildcardMatch es segs t route ∧
    ∀ u route', WildcardMatch es segs u route' → u.length ≤ t.length

/-- Some pattern begins with tokens that match all the segments. -/
def ReachesAll (es : List Entry) (segs : List Bytes) : Prop :=
  ∃ e ∈ es, ∃ q, q <+: e.1 ∧ q.length = segs.length ∧ Fits MatchesSegment q segs

theorem wildcardMatch_iff {es : List Entry} {segs : List Bytes} {t : List Tok} {route : Route} :
    WildcardMatch es segs t route ↔
      (t ++ wildcardEnd, route) ∈ es ∧ t.length < segs.length ∧ Fits MatchesSegment t segs :=
  ⟨fun h => ⟨h.mem, h.more, h.fits⟩, fun h => ⟨h.1, h.2.1, h.2.2⟩⟩

instance (es : List Entry) (segs : List Bytes) (t : List Tok) (route : Route) :
    Decidable (WildcardMatch es segs t route) := decidable_of_iff _ wildcardMatch_iff.symm

def wildcardPrefix (w : List Tok) : List Tok := w.take (w.length - 2)

@[simp] theorem wildcardPrefix_append (t : List Tok) : wildcardPrefix (t ++ wildcardEnd) = t := by
  simp [wildcardPrefix, wildcardEnd]

/-- Only the entries themselves need to be looked at. -/
theorem forall_wildcardMatch {es : List Entry} {segs : List Bytes} {P : List Tok → Route → Prop} :
    (∀ t route, WildcardMatch es segs t route → P t route) ↔
      ∀ e ∈ es, WildcardMatch es segs (wildcardPrefix e.1) e.2 → P (wildcardPrefix e.1) e.2 := by
  constructor
  · exact fun h e _ hw => h _ _ hw
  · intro h t route hw
    have := h _ hw.mem
    rw [wildcardPrefix_append] at this
    exact this hw

instance (es : List Entry) (segs : List Bytes) (t : List Tok) (route : Route) :
    Decidable (MostSpecific es segs t route) :=
  decidable_of_iff (_ ∧ _) (and_congr Iff.rfl forall_wildcardMatch.symm)

theorem exists_wildcardMatch {es : List Entry} {segs : List Bytes} :
    (∃ t route, WildcardMatch es segs t route) ↔
      ∃ e ∈ es, WildcardMatch es segs (wildcardPrefix e.1) e.2 := by
  constructor
  · rintro ⟨t, route, hw⟩
    exact ⟨_, hw.mem, by rwa [wildcardPrefix_append]⟩
  · exact fun ⟨e, _, hw⟩ => ⟨_, _, hw⟩

instance (es : List Entry) (segs : List Bytes) :
    Decidable (∃ t route, WildcardMatch es segs t route) :=
  decidable_of_iff _ exists_wildcardMatch.symm

theorem reachesAll_iff {es : List Entry} {segs : List Bytes} : ReachesAll es segs ↔
    ∃ e ∈ es, segs.length ≤ e.1.length ∧ Fits MatchesSegment (e.1.take segs.length) segs := by
  refine exists_congr (fun e => and_congr_right (fun _ => ?_))
  constructor
  · rintro ⟨q, hpre, hlen, hfit⟩
    rw [← hlen, ← List.prefix_iff_eq_take.mp hpre]
    exact ⟨hpre.length_le, hfit⟩
  · exact fun ⟨hle, hfit⟩ => ⟨_, List.take_prefix _ _, List.length_take_of_le hle, hfit⟩

instance (es : List Entry) (segs : List Bytes) : Decidable (ReachesAll es segs) :=
  decidable_of_iff _ reachesAll_iff.symm

/-- A wildcard that matches keeps its prefix alive in the dictionary. -/
theorem WildcardMatch.live {es : List Entry} {segs : List Bytes} {t : List Tok} {route : Route}
    (h : WildcardMatch es segs t route) : Live (dictionary es) t :=
  Or.inr ⟨_, h.mem, List.prefix_append t wildcardEnd⟩

/-- Among the wildcards that match one has the most segments. -/
theorem mostSpecific_exists {es : List Entry} {segs : List Bytes} {t : List Tok} {route : Route}
    (h : WildcardMatch es segs t route) : ∃ u route', MostSpecific es segs u route' := by
  classical
  let P (n : Nat) : Prop := ∃ u route', WildcardMatch es segs u route' ∧ u.length = n
  have hP : P (Nat.findGreatest P segs.length) :=
    Nat.findGreatest_spec (m := t.length) h.more.le ⟨t, route, h, rfl⟩
  obtain ⟨u, route', hu, hlen⟩ := hP
  refine ⟨u, route', hu, fun v route'' hv => ?_⟩
  rw [hlen]
  exact Nat.le_findGreatest hv.more.le ⟨v, route'', hv, rfl⟩

/-- No two routes of a builder are most specific for one request. -/
theorem MostSpecific.unique {es : List Entry} (hc : Compatible es) {segs : List Bytes}
    {t u : List Tok} {route route' : Route} (ht : MostSpecific es segs t route)
    (hu : MostSpecific es segs u route') : t = u ∧ route = route' := by
  have htu : t = u := eq_of_fits hc.deterministic ht.1.live hu.1.live ht.1.fits hu.1.fits
    (Nat.le_antisymm (hu.2 t route ht.1) (ht.2 u route' hu.1))
  subst htu
  exact ⟨rfl, hc.functional ht.1.mem hu.1.mem⟩

section Response

variable {es : List Entry} {path : Bytes} {r : MatchResult} {q t : List Tok} {walk : Walk}
  {route : Route}

/-- The wildcards that match are the ones on the trail. -/
theorem Response.wildcardMatch_iff (h : Response es path r q walk) (hc : Compatible es) :
    WildcardMatch es (parseRequest path).segments t route ↔
      (t ++ wildcardEnd, route) ∈ es ∧ t.length < (parseRequest path).segments.length ∧ t <+: q := by
  constructor
  · exact fun hw => ⟨hw.mem, hw.more, h.prefix_trail hc hw.mem hw.fits⟩
  · exact fun ⟨hmem, hmore, hpre⟩ => ⟨hmem, hmore, fits_anti hpre h.trail.fit⟩

/-- The trail takes all segments exactly if some pattern goes along with all of them. -/
theorem Response.reachesAll_iff (h : Response es path r q walk) (hc : Compatible es)
    (hne : es ≠ []) :
    ReachesAll es (parseRequest path).segments ↔ q.length = (parseRequest path).segments.length := by
  constructor
  · rintro ⟨⟨w, route⟩, he, p, ⟨u, rfl⟩, hlen, hfit⟩
    have hle := (h.prefix_trail hc he hfit).length_le
    have := fits_length h.trail.fit
    omega
  · intro hlen
    rcases h.trail.live with rfl | ⟨e, he, hpre⟩
    · obtain ⟨e, he⟩ := List.exists_mem_of_ne_nil es hne
      exact ⟨e, he, [], List.nil_prefix, hlen, trivial⟩
    · exact ⟨e, he, q, hpre, hlen, h.trail.fit⟩

/-- The deepest wildcard on a trail that stops early is the most specific that matches. -/
theorem Response.mostSpecific (h : Response es path r q walk) (hc : Compatible es)
    (hlt : q.length < (parseRequest path).segments.length) {k : Nat}
    (hd : Deepest (dictionary es) wildcardEnd q k route) :
    MostSpecific es (parseRequest path).segments (q.take k) route := by
  have hk : (q.take k).length = k := List.length_take_of_le hd.le
  refine ⟨(h.wildcardMatch_iff hc).mpr ⟨hd.mem, by have := hd.le; omega, List.take_prefix k q⟩,
    fun u route' hu => ?_⟩
  obtain ⟨hmem, -, hpre⟩ := (h.wildcardMatch_iff hc).mp hu
  by_contra hlong
  refine hd.last u.length route' (by omega) hpre.length_le ?_
  rw [← List.prefix_iff_eq_take.mp hpre]
  exact hmem

/-- A request that leaves the patterns takes the most specific wildcard. -/
theorem Response.falls_back (h : Response es path r q walk) (hc : Compatible es)
    (hbest : MostSpecific es (parseRequest path).segments t route)
    (hno : ¬ ReachesAll es (parseRequest path).segments) :
    t <+: q ∧ walk = ⟨some route,
      captures q (requestTokens path) ++ [wildcardCapture (requestTokens path) t.length]⟩ := by
  obtain ⟨hmem, hmore, hpre⟩ := (h.wildcardMatch_iff hc).mp hbest.1
  rw [h.reachesAll_iff hc (List.ne_nil_of_mem hmem)] at hno
  refine ⟨hpre, ?_⟩
  cases h.outcome with
  | found hlen _ => exact absurd (by rw [hlen, length_requestTokens]) hno
  | missing hlen _ => exact absurd (by rw [hlen, length_requestTokens]) hno
  | lost _ hlost =>
    refine absurd ?_ (hlost t.length route hpre.length_le)
    rw [← List.prefix_iff_eq_take.mp hpre]
    exact hmem
  | fallback hlt hd =>
    rw [length_requestTokens] at hlt
    obtain ⟨ht, rfl⟩ := hbest.unique hc (h.mostSpecific hc hlt hd)
    rw [ht, List.length_take_of_le hd.le]

/-- Otherwise only an exact match gives a route. -/
theorem Response.stays (h : Response es path r q walk) (hc : Compatible es)
    (hno : ∀ e ∈ es, ¬ MatchesPath e.1 path)
    (hstay : ReachesAll es (parseRequest path).segments ∨
      ∀ t route, ¬ WildcardMatch es (parseRequest path).segments t route) : walk.route = none := by
  have htrail := h.trail
  have hlen := length_requestTokens path
  cases hout : h.outcome with
  | found hq hr =>
    exact absurd ⟨hc.fin_legal hr, q, rfl, hq.trans hlen, htrail.fit⟩ (hno _ hr)
  | missing => rfl
  | lost => rfl
  | fallback hlt hd =>
    rw [hlen] at hlt
    rcases hstay with hall | hnone
    · have := (h.reachesAll_iff hc (List.ne_nil_of_mem hd.mem)).mp hall
      omega
    · exact absurd (h.mostSpecific hc hlt hd).1 (hnone _ _)

end Response

/-- An illegal path gets nothing, unless the walk leaves the patterns before it meets what
is illegal: then it gets a wildcard. -/
theorem illegal_path_unmatched (L : Libc) {options : Options} {routes : List (Bytes × Route)}
    {d : Dispatcher} (h : Serves L options routes d) {path : Bytes} (hpath : IllegalPath path) :
    ∃ res, resolveRequest L d path = some res ∧
      ((res.route = none ∧ res.dispatcher.params.count = 0) ↔
        ¬ ((∃ t route, WildcardMatch (entries options.paramSyntax routes)
            (parseRequest path).segments t route) ∧
          ¬ ReachesAll (entries options.paramSyntax routes) (parseRequest path).segments)) := by
  have hc := h.compatible
  obtain ⟨res, q, walk, hres, hresp⟩ := h.responds path
  refine ⟨res, hres, ?_⟩
  constructor
  · rintro ⟨hnone, -⟩ ⟨⟨t, route, hw⟩, hreach⟩
    obtain ⟨u, route', hbest⟩ := mostSpecific_exists hw
    rw [hresp.route, (hresp.falls_back hc hbest hreach).2] at hnone
    simp at hnone
  · intro hcond
    refine hresp.none_empty (hresp.stays hc
      (fun e _ hm => hm.1 ((parse_illegal path).mpr hpath)) ?_)
    by_cases hreach : ReachesAll (entries options.paramSyntax routes) (parseRequest path).segments
    · exact Or.inl hreach
    · exact Or.inr (fun t route hw => hcond ⟨⟨t, route, hw⟩, hreach⟩)

/-- The illegal byte is in the first segment, so no wildcard is taken. -/
theorem illegal_path_unmatched_early : ∃ d res, Serves .reference plainOptions
    [(ascii "/*", ⟨0, 1⟩)] d ∧ resolveRequest .reference d (ascii "/a?b") = some res ∧
      res.route = none ∧ res.dispatcher.params.count = 0 := by
  obtain ⟨d, hs⟩ : ∃ d, Serves .reference plainOptions [(ascii "/*", ⟨0, 1⟩)] d :=
    exists_serves (by decide +kernel)
  obtain ⟨res, hres, hiff⟩ :=
    illegal_path_unmatched .reference hs (show IllegalPath (ascii "/a?b") by decide +kernel)
  exact ⟨d, res, hs, hres, hiff.mpr (by decide +kernel)⟩

/-- The wildcard is taken at the first segment; the '?' in the second is never read. -/
theorem illegal_path_matched : ∃ d res, Serves .reference plainOptions [(ascii "/*", ⟨0, 1⟩)] d ∧
    resolveRequest .reference d (ascii "/a/b?c") = some res ∧ IllegalPath (ascii "/a/b?c") ∧
      res.route = some ⟨0, 1⟩ ∧ res.dispatcher.params.count = 1 :=
  trial_serves (by decide +kernel)

end Wrouter
