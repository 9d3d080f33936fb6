import Mathlib.Data.List.Infix
import Wrouter.Fallback
import Wrouter.Stats

/-!
# Requests that overrun the buffer

A request that falls back to a wildcard may need one slot more than any pattern does. It then
writes past the dispatcher's buffer, and has no result.
-/
namespace Wrouter

open CLib Words

theorem slots_append (u v : List Tok) : slots (u ++ v) = slots u + slots v := by
  induction u with
  | nil => simp [slots]
  | cons a u ih => cases a <;> simp [slots, ih] <;> omega

/-- A prefix needs no more slots. -/
theorem slots_mono {u v : List Tok} (h : u <+: v) : slots u ≤ slots v := by
  obtain ⟨w, rfl⟩ := h
  rw [slots_append]
  exact Nat.le_add_right _ _

/-- A prefix that matches has no wildcard in it: its slots are its parameters. -/
theorem captures_length {q : List Tok} {xs : List Token}
    (h : Fits MatchesSegment q (xs.map Token.text)) : (captures q xs).length = slots q := by
  induction q generalizing xs with
  | nil => cases xs <;> rfl
  | cons a q ih =>
    cases xs with
    | nil => exact h.elim
    | cons t xs =>
      obtain ⟨ha, h⟩ := h
      have := ih h
      cases a with
      | literal s => simpa [captures, slots] using this
      | param name => simpa [captures, slots] using this
      | _ => exact ha.elim

theorem Response.captures_length {es : List Entry} {path : Bytes} {r : MatchResult} {q : List Tok}
    {walk : Walk} (h : Response es path r q walk) :
    (captures q (requestTokens path)).length = slots q :=
  Wrouter.captures_length (by rw [requestTokens_text]; exact h.trail.fit)

/-- The request leaves the patterns for a wildcard with as many parameters recorded as any
pattern has slots. -/
def Overrun (es : List Entry) (segs : List Bytes) : Prop :=
  (∃ t route, WildcardMatch es segs t route) ∧ ¬ ReachesAll es segs ∧
    ∃ e ∈ es, ∃ q, q <+: e.1 ∧ Fits MatchesSegment q segs ∧ ∀ f ∈ es, slots f.1 ≤ slots q

/-- A pattern that matches goes along with all segments. -/
theorem MatchesPath.reachesAll {es : List Entry} {e : Entry} {path : Bytes} (he : e ∈ es)
    (h : MatchesPath e.1 path) : ReachesAll es (parseRequest path).segments := by
  obtain ⟨-, q, hw, hlen, hfit⟩ := h
  exact ⟨e, he, q, ⟨_, hw.symm⟩, hlen, hfit⟩

/-- The prefixes of the patterns are finitely many, so an overrun can be decided. -/
theorem overrun_iff {es : List Entry} {segs : List Bytes} : Overrun es segs ↔
    (∃ t route, WildcardMatch es segs t route) ∧ ¬ ReachesAll es segs ∧
      ∃ e ∈ es, ∃ q ∈ e.1.inits, Fits MatchesSegment q segs ∧ ∀ f ∈ es, slots f.1 ≤ slots q := by
  simp only [Overrun, List.mem_inits]

instance (es : List Entry) (segs : List Bytes) : Decidable (Overrun es segs) :=
  decidable_of_iff _ overrun_iff.symm

section Recorded

variable {es : List Entry} {path : Bytes} {r : MatchResult} {q : List Tok} {walk : Walk}

/-- A request that falls back fills one slot more than its trail has. -/
theorem Response.length_fallback (h : Response es path r q walk) (hc : Compatible es)
    {t : List Tok} {route : Route} (hw : WildcardMatch es (parseRequest path).segments t route)
    (hno : ¬ ReachesAll es (parseRequest path).segments) : walk.recorded.length = slots q + 1 := by
  obtain ⟨u, route', hbest⟩ := mostSpecific_exists hw
  rw [(h.falls_back hc hbest hno).2]
  simp [h.captures_length]

/-- Any other request fills the slots of its trail. -/
theorem Response.length_within (h : Response es path r q walk) (hc : Compatible es)
    (hno : ¬ ((∃ t route, WildcardMatch es (parseRequest path).segments t route) ∧
      ¬ ReachesAll es (parseRequest path).segments)) : walk.recorded.length = slots q := by
  cases h.outcome with
  | found => exact h.captures_length
  | missing => exact h.captures_length
  | lost => exact h.captures_length
  | fallback hlt hd =>
    rw [length_requestTokens] at hlt
    refine absurd ⟨⟨_, _, (h.mostSpecific hc hlt hd).1⟩, fun hall => ?_⟩ hno
    have := (h.reachesAll_iff hc (List.ne_nil_of_mem hd.mem)).mp hall
    omega

/-- A trail has no more slots than the pattern that has most. -/
theorem Response.slots_le (h : Response es path r q walk) : slots q ≤ maxSlots es := by
  rcases h.trail.live with rfl | ⟨e, he, hpre⟩
  · exact Nat.zero_le _
  · exact (slots_mono hpre).trans (maxSlots_le.mp (Nat.le_refl _) e he)

/-- The trail of a request that may fall back has as many slots as any pattern exactly
when some matching prefix of a pattern has. -/
theorem Response.slots_most (h : Response es path r q walk) (hc : Compatible es) (hne : es ≠ []) :
    (∀ f ∈ es, slots f.1 ≤ slots q) ↔ ∃ e ∈ es, ∃ p, p <+: e.1 ∧
      Fits MatchesSegment p (parseRequest path).segments ∧ ∀ f ∈ es, slots f.1 ≤ slots p := by
  constructor
  · intro hall
    rcases h.trail.live with rfl | ⟨e, he, hpre⟩
    · obtain ⟨e, he⟩ := List.exists_mem_of_ne_nil _ hne
      exact ⟨e, he, [], List.nil_prefix, trivial, hall⟩
    · exact ⟨e, he, q, hpre, h.trail.fit, hall⟩
  · rintro ⟨e, he, p, ⟨w, hw⟩, hfit, hall⟩
    have hmem : (p ++ w, e.2) ∈ es := by rwa [hw]
    have hpre := h.prefix_trail hc hmem hfit
    exact fun f hf => (hall f hf).trans (slots_mono hpre)

/-- More is recorded than the buffer has slots for. -/
theorem Response.long_iff (h : Response es path r q walk) (hc : Compatible es) :
    maxSlots es < walk.recorded.length ↔ Overrun es (parseRequest path).segments := by
  by_cases hfall : (∃ t route, WildcardMatch es (parseRequest path).segments t route) ∧
      ¬ ReachesAll es (parseRequest path).segments
  · obtain ⟨⟨t, route, hw⟩, hreach⟩ := hfall
    rw [h.length_fallback hc hw hreach, Nat.lt_succ_iff, maxSlots_le,
      h.slots_most hc (List.ne_nil_of_mem hw.mem)]
    exact ⟨fun hmost => ⟨⟨t, route, hw⟩, hreach, hmost⟩, fun hover => hover.2.2⟩
  · rw [h.length_within hc hfall]
    exact iff_of_false (Nat.not_lt.mpr h.slots_le) fun hover => hfall ⟨hover.1, hover.2.1⟩

end Recorded

section Serves

variable {L : Libc} {options : Options} {routes : List (Bytes × Route)} {d : Dispatcher}
  (h : Serves L options routes d)

include h

/-- The requests that overrun the buffer of a dispatcher in service are told by the patterns. -/
theorem Serves.overruns_iff (path : Bytes) : d.overruns L path = true ↔
    Overrun (entries options.paramSyntax routes) (parseRequest path).segments := by
  obtain ⟨res, q, walk, hres, hresp⟩ := h.responds path
  obtain ⟨b, hb, hc, halloc⟩ := h.compiled
  rw [← hresp.long_iff h.compatible, Dispatcher.overruns, hres, Option.any_some, List.any_eq_true,
    hresp.touched, halloc, h.maxParams]
  constructor
  · rintro ⟨slot, hslot, hle⟩
    exact Nat.lt_of_le_of_lt (of_decide_eq_true hle) (List.mem_range.mp hslot)
  · exact fun hlt => ⟨_, List.mem_range.mpr hlt, decide_eq_true (Nat.le_refl _)⟩

/-- Any other request has its response. -/
theorem Serves.request (path : Bytes) :
    (d.request L path = none ∧
        Overrun (entries options.paramSyntax routes) (parseRequest path).segments) ∨
      ¬ Overrun (entries options.paramSyntax routes) (parseRequest path).segments ∧
        ∃ r q walk, d.request L path = some r ∧
          Response (entries options.paramSyntax routes) path r q walk := by
  obtain ⟨r, q, walk, hres, hresp⟩ := h.responds path
  rw [← h.overruns_iff path, Dispatcher.request]
  cases d.overruns L path with
  | true => exact Or.inl ⟨rfl, rfl⟩
  | false => exact Or.inr ⟨Bool.false_ne_true, r, q, walk, hres, hresp⟩

/-- The segments of a request that stays on the patterns fit in the buffer. -/
theorem Serves.request_within {path : Bytes}
    (hreach : ReachesAll (entries options.paramSyntax routes) (parseRequest path).segments) :
    ∃ r q walk, d.request L path = some r ∧
      Response (entries options.paramSyntax routes) path r q walk := by
  obtain ⟨-, hover⟩ | ⟨-, hresp⟩ := h.request path
  · exact absurd hreach hover.2.1
  · exact hresp

end Serves

/-- Every slot written is in the buffer, unless the request overruns it. -/
theorem buffer_capacity (L : Libc) {options : Options} {routes : List (Bytes × Route)}
    {d : Dispatcher} (h : Serves L options routes d) (path : Bytes) :
    (∃ res, resolveRequest L d path = some res ∧
      ∀ slot ∈ res.touched, slot < d.router.maxParams) ↔
        ¬ Overrun (entries options.paramSyntax routes) (parseRequest path).segments := by
  obtain ⟨res, q, walk, hres, hresp⟩ := h.responds path
  rw [← hresp.long_iff h.compatible, Nat.not_lt, hres, h.maxParams]
  constructor
  · rintro ⟨res', he, hall⟩
    obtain rfl := Option.some.inj he
    by_contra hlong
    refine Nat.lt_irrefl _ (hall (maxSlots (entries options.paramSyntax routes)) ?_)
    rw [hresp.touched, List.mem_range]
    omega
  · refine fun hle => ⟨res, rfl, fun slot hslot => ?_⟩
    rw [hresp.touched, List.mem_range] at hslot
    omega

/-- The miss comes before the parameter, and stays in the buffer of one slot. -/
theorem buffer_capacity_miss : ∃ d res,
    Serves .reference plainOptions [(ascii "/*", ⟨0, 1⟩), (ascii "/a/:x/b", ⟨0, 2⟩)] d ∧
      resolveRequest .reference d (ascii "/c/1") = some res ∧
      ∀ slot ∈ res.touched, slot < d.router.maxParams := by
  obtain ⟨d, hs⟩ : ∃ d,
      Serves .reference plainOptions [(ascii "/*", ⟨0, 1⟩), (ascii "/a/:x/b", ⟨0, 2⟩)] d :=
    exists_serves (by decide +kernel)
  obtain ⟨res, hres, hslots⟩ :=
    (buffer_capacity .reference hs (ascii "/c/1")).mpr (by decide +kernel)
  exact ⟨d, res, hs, hres, hslots⟩

/-- One slot was allocated; the wildcard's parameter goes to a second. -/
theorem buffer_overrun : ∃ d res,
    Serves .reference plainOptions [(ascii "/*", ⟨0, 1⟩), (ascii "/a/:x/b", ⟨0, 2⟩)] d ∧
      resolveRequest .reference d (ascii "/a/1/c") = some res ∧
      d.router.maxParams = 1 ∧ d.params.allocated = 1 ∧ res.touched = [0, 1] ∧
      ¬ ∀ slot ∈ res.touched, slot < d.router.maxParams :=
  trial_serves (by decide +kernel)

/-- A legal request that nothing matches exactly gets the most specific wildcard, unless
its segments all lie on some pattern: then it gets nothing; or it overruns the buffer. -/
theorem wildcard_is_fallback (L : Libc) {options : Options} {routes : List (Bytes × Route)}
    {d : Dispatcher} (h : Serves L options routes d) {segs : List Bytes} (hne : segs ≠ [])
    (hlegal : ∀ s ∈ segs, slash ∉ s ∧ legalSegment s)
    (hlen : (pathOf segs).length ≤ lexerCharLimit)
    (hno : ∀ r ∈ routes, ¬ MatchesPath (patternWord options.paramSyntax r.1) (pathOf segs)) :
    (∃ res, d.request L (pathOf segs) = some res ∧
      (∀ t route, MostSpecific (entries options.paramSyntax routes) segs t route →
        res.route = some route) ∧
      ((∀ t route, ¬ WildcardMatch (entries options.paramSyntax routes) segs t route) →
        res.route = none)) ↔
      ¬ (ReachesAll (entries options.paramSyntax routes) segs ∧
        ∃ t route, WildcardMatch (entries options.paramSyntax routes) segs t route) ∧
      ¬ Overrun (entries options.paramSyntax routes) segs := by
  have hc := h.compatible
  have hsegs : (parseRequest (pathOf segs)).segments = segs := by
    rw [parse_pathOf hne hlegal hlen]
  have hno' : ∀ e ∈ entries options.paramSyntax routes, ¬ MatchesPath e.1 (pathOf segs) := by
    rw [entries, List.forall_mem_map]
    exact hno
  have hrequest := h.request (pathOf segs)
  rw [hsegs] at hrequest
  obtain ⟨hnone, hover⟩ | ⟨hin, res, q, walk, hres, hresp⟩ := hrequest
  · rw [hnone]
    exact iff_of_false (by simp) fun hcond => hcond.2 hover
  rw [hres]
  constructor
  · rintro ⟨res', he, hbest, -⟩
    obtain rfl := Option.some.inj he
    refine ⟨?_, hin⟩
    rintro ⟨hall, t, route, hw⟩
    obtain ⟨u, route', hu⟩ := mostSpecific_exists hw
    have hsome := hbest u route' hu
    rw [hresp.route, hresp.stays hc hno' (Or.inl (hsegs.symm ▸ hall))] at hsome
    simp at hsome
  · rintro ⟨hcond, -⟩
    refine ⟨res, rfl, fun t route hbest => ?_, fun hnone => ?_⟩
    · have hreach : ¬ ReachesAll (entries options.paramSyntax routes) segs :=
        fun hall => hcond ⟨hall, t, route, hbest.1⟩
      rw [hresp.route, (hresp.falls_back hc (hsegs.symm ▸ hbest) (hsegs.symm ▸ hreach)).2]
    · rw [hresp.route, hresp.stays hc hno' (Or.inr (hsegs.symm ▸ hnone))]

/-- The request leaves `/foo/bar` at its second segment. -/
theorem wildcard_is_fallback_miss : ∃ d res,
    Serves .reference plainOptions [(ascii "/*", ⟨0, 1⟩), (ascii "/foo/bar", ⟨0, 2⟩)] d ∧
      d.request .reference (ascii "/foo/baz") = some res ∧ res.route = some ⟨0, 1⟩ := by
  obtain ⟨d, hs⟩ : ∃ d,
      Serves .reference plainOptions [(ascii "/*", ⟨0, 1⟩), (ascii "/foo/bar", ⟨0, 2⟩)] d :=
    exists_serves (by decide +kernel)
  have hpath : pathOf [ascii "foo", ascii "baz"] = ascii "/foo/baz" := by decide
  obtain ⟨res, hres, hbest, -⟩ := (wildcard_is_fallback .reference hs
    (show [ascii "foo", ascii "baz"] ≠ [] by simp) (by decide +kernel) (by decide +kernel)
    (by decide +kernel)).mpr (by decide +kernel)
  rw [hpath] at hres
  exact ⟨d, res, hs, hres, hbest [] ⟨0, 1⟩ (by decide +kernel)⟩

/-- `/foo/bar` takes the request `/foo` away from `/*`, and loses it. -/
theorem wildcard_forgotten : ∃ d res,
    Serves .reference plainOptions [(ascii "/*", ⟨0, 1⟩), (ascii "/foo/bar", ⟨0, 2⟩)] d ∧
      d.request .reference (ascii "/foo") = some res ∧
      (∀ r ∈ [(ascii "/*", Route.mk 0 1), (ascii "/foo/bar", Route.mk 0 2)],
        ¬ MatchesPath (patternWord .colon r.1) (ascii "/foo")) ∧
      MostSpecific (entries .colon [(ascii "/*", ⟨0, 1⟩), (ascii "/foo/bar", ⟨0, 2⟩)])
        [ascii "foo"] [] ⟨0, 1⟩ ∧ res.route = none :=
  trial_request (by decide +kernel)

end Wrouter
