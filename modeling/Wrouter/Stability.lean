import Wrouter.Parameters

/-!
# Adding one more route

A further route lengthens the walk of requests it does not match itself. They keep
their response, unless the longer walk runs past a wildcard: to the end of the
request, where the wildcard is forgotten, or over a parameter, which stays recorded.
-/
namespace Wrouter

open CLib Words

/-- The pattern matches the path exactly, or is a wildcard whose segments match a proper
prefix of the segments of a legal path. -/
def RouteMatches (w : List Tok) (path : Bytes) : Prop :=
  MatchesPath w path ∨ ¬ IllegalPath path ∧ ∃ t, w = t ++ wildcardEnd ∧
    t.length < (parseRequest path).segments.length ∧
    Fits MatchesSegment t (parseRequest path).segments

theorem wildcard_fits_iff {w : List Tok} {segs : List Bytes} :
    (∃ t, w = t ++ wildcardEnd ∧ t.length < segs.length ∧ Fits MatchesSegment t segs) ↔
      w = wildcardPrefix w ++ wildcardEnd ∧ (wildcardPrefix w).length < segs.length ∧
        Fits MatchesSegment (wildcardPrefix w) segs := by
  constructor
  · rintro ⟨t, rfl, h⟩
    rw [wildcardPrefix_append]
    exact ⟨rfl, h⟩
  · exact fun h => ⟨_, h⟩

instance (w : List Tok) (path : Bytes) : Decidable (RouteMatches w path) :=
  decidable_of_iff (_ ∨ _ ∧ _) (or_congr Iff.rfl (and_congr Iff.rfl wildcard_fits_iff.symm))

/-- The new pattern is a wildcard, and the one an illegal path now falls back to. -/
def TakesOver (es : List Entry) (w : List Tok) (path : Bytes) : Prop :=
  IllegalPath path ∧ ¬ ReachesAll es (parseRequest path).segments ∧ ∃ t, w = t ++ wildcardEnd ∧
    t.length < (parseRequest path).segments.length ∧
    Fits MatchesSegment t (parseRequest path).segments ∧
    ∀ u route, WildcardMatch es (parseRequest path).segments u route → u.length ≤ t.length

/-- The new pattern leads a request that had a wildcard to fall back to beyond the old
patterns: over all its segments, or over a parameter. -/
def Diverts (es : List Entry) (w : List Tok) (segs : List Bytes) : Prop :=
  (∃ t route, WildcardMatch es segs t route) ∧ ∃ v, v <+: w ∧ Fits MatchesSegment v segs ∧
    (∀ e ∈ es, ¬ v <+: e.1) ∧ (v.length = segs.length ∨ ∃ u name, v = u ++ [.param name])

theorem takesOver_iff {es : List Entry} {w : List Tok} {path : Bytes} : TakesOver es w path ↔
    IllegalPath path ∧ ¬ ReachesAll es (parseRequest path).segments ∧
      w = wildcardPrefix w ++ wildcardEnd ∧
      (wildcardPrefix w).length < (parseRequest path).segments.length ∧
      Fits MatchesSegment (wildcardPrefix w) (parseRequest path).segments ∧
      ∀ e ∈ es, WildcardMatch es (parseRequest path).segments (wildcardPrefix e.1) e.2 →
        (wildcardPrefix e.1).length ≤ (wildcardPrefix w).length := by
  rw [TakesOver, ← forall_wildcardMatch (P := fun u _ => u.length ≤ (wildcardPrefix w).length)]
  refine and_congr_right fun _ => and_congr_right fun _ => ?_
  constructor
  · rintro ⟨t, rfl, h⟩
    rw [wildcardPrefix_append]
    exact ⟨rfl, h⟩
  · exact fun h => ⟨_, h⟩

instance (es : List Entry) (w : List Tok) (path : Bytes) : Decidable (TakesOver es w path) :=
  decidable_of_iff _ takesOver_iff.symm

def endsInParam (v : List Tok) : Bool := v.getLast?.any fun
  | .param _ => true
  | _ => false

theorem endsInParam_iff {v : List Tok} : endsInParam v ↔ ∃ u name, v = u ++ [.param name] := by
  rw [endsInParam, Option.any_eq_true]
  constructor
  · rintro ⟨a, ha, hparam⟩
    obtain ⟨u, rfl⟩ := List.getLast?_eq_some_iff.mp ha
    cases a with
    | param name => exact ⟨u, name, rfl⟩
    | _ => simp at hparam
  · rintro ⟨u, name, rfl⟩
    exact ⟨.param name, by simp, rfl⟩

theorem diverts_iff {es : List Entry} {w : List Tok} {segs : List Bytes} : Diverts es w segs ↔
    (∃ t route, WildcardMatch es segs t route) ∧ ∃ v ∈ w.inits, Fits MatchesSegment v segs ∧
      (∀ e ∈ es, ¬ v <+: e.1) ∧ (v.length = segs.length ∨ endsInParam v) := by
  simp only [Diverts, List.mem_inits, endsInParam_iff]

instance (es : List Entry) (w : List Tok) (segs : List Bytes) : Decidable (Diverts es w segs) :=
  decidable_of_iff _ diverts_iff.symm

/-- A prefix that fits has no wildcard in it. -/
theorem prefix_before_wildcard {v t : List Tok} {segs : List Bytes}
    (hv : v <+: t ++ wildcardEnd) (hf : Fits MatchesSegment v segs) : v <+: t := by
  rcases List.prefix_or_prefix_of_prefix hv (List.prefix_append t wildcardEnd) with h | ⟨u, rfl⟩
  · exact h
  · rw [List.prefix_append_right_inj] at hv
    cases u with
    | nil => simp
    | cons a u =>
      obtain ⟨rfl, -⟩ := List.cons_prefix_cons.mp hv
      have hp : t ++ [Tok.wildcard] <+: t ++ .wildcard :: u := ⟨u, by simp⟩
      obtain ⟨-, x, -, hx⟩ := (fits_append_singleton _).mp (fits_anti hp hf)
      exact hx.elim

theorem captures_mono {q p : List Tok} (h : q <+: p) (xs : List Token) :
    captures q xs <+: captures p xs := by
  induction q generalizing p xs with
  | nil => cases xs <;> simp [captures]
  | cons a q ih =>
    obtain ⟨u, rfl⟩ := h
    cases xs with
    | nil => cases a <;> simp [captures]
    | cons x xs =>
      have := ih (List.prefix_append q u) xs
      cases a <;> simpa [captures] using this

theorem pathOf_take_lt {ss : List Bytes} {j k : Nat} (hlt : j < k) (hk : k ≤ ss.length) :
    (pathOf (ss.take j)).length < (pathOf (ss.take k)).length := by
  induction ss generalizing j k with
  | nil => simp at hk; omega
  | cons s ss ih =>
    obtain ⟨k, rfl⟩ := Nat.exists_eq_succ_of_ne_zero (by omega : k ≠ 0)
    cases j with
    | zero => simp [pathOf]
    | succ j =>
      have := ih (j := j) (k := k) (by omega) (by simpa using hk)
      simp only [pathOf] at this
      simpa [pathOf] using this

/-- Two wildcards of one request read different rests. -/
theorem wildcardCapture_inj {path : Bytes} {j k : Nat} (hlt : j < k)
    (hk : k < (parseRequest path).segments.length) :
    wildcardCapture (requestTokens path) j ≠ wildcardCapture (requestTokens path) k := by
  intro he
  have hj := segmentTokens_ptr path.tail (Nat.lt_trans hlt hk)
  have hk' := segmentTokens_ptr path.tail hk
  have hptr := congrArg Param.value he
  simp only [wildcardCapture, requestTokens, hj, hk', Option.some.injEq] at hptr
  -- the segment at `j` is there to be read, so the rest from `j` on is not empty
  have hpos : path.tail.drop (pathOf ((parseRequest path).segments.take j)).length ≠ [] := by
    obtain ⟨t, ht, hp⟩ := Option.bind_eq_some_iff.mp hj
    have hmem : t ∈ requestTokens path := List.mem_of_getElem? ht
    have htext : t.text ∈ (parseRequest path).segments := by
      rw [← requestTokens_text]
      exact List.mem_map_of_mem hmem
    intro hnil
    have hlegal := parse_legal path _ htext
    simp [Token.text, hp, hnil, legalSegment] at hlegal
  have hlen := congrArg List.length hptr
  have hpos := List.length_pos_iff.mpr hpos
  have := pathOf_take_lt hlt hk.le
  simp only [List.length_drop] at hlen hpos
  omega

@[simp] theorem params_of_some (route : Route) (recorded : List Param) :
    (Walk.mk (some route) recorded).params = recorded := rfl

theorem params_of_none {walk : Walk} (h : walk.route = none) : walk.params = [] := by
  simp [Walk.params, h]

theorem same_of_none {walk walk' : Walk} (h : walk.route = none) (h' : walk'.route = none) :
    walk.route = walk'.route ∧ walk.params = walk'.params := by
  rw [h, h', params_of_none h, params_of_none h']
  exact ⟨rfl, rfl⟩

theorem WildcardMatch.append {es fs : List Entry} {segs : List Bytes} {t : List Tok} {route : Route}
    (h : WildcardMatch es segs t route) : WildcardMatch (es ++ fs) segs t route :=
  ⟨List.mem_append_left _ h.mem, h.more, h.fits⟩

theorem ReachesAll.append {es fs : List Entry} {segs : List Bytes} (h : ReachesAll es segs) :
    ReachesAll (es ++ fs) segs := by
  obtain ⟨e, he, hreach⟩ := h
  exact ⟨e, List.mem_append_left _ he, hreach⟩

theorem param_slots {u : List Tok} {name : Bytes} (h : .param name ∈ u) : slots u ≠ 0 := by
  obtain ⟨v, x, rfl⟩ := List.append_of_mem h
  simp [slots_append, slots]

theorem Compatible.of_append {es fs : List Entry} (h : Compatible (es ++ fs)) : Compatible es :=
  ⟨fun e he => h.legal e (List.mem_append_left fs he), (List.pairwise_append.mp h.pairwise).1⟩

/-- A new pattern is not among the old ones. -/
theorem Compatible.fresh {es : List Entry} {w : List Tok} {route : Route}
    (h : Compatible (es ++ [(w, route)])) (r : Route) : (w, r) ∉ es := fun hmem =>
  (List.pairwise_append.mp h.pairwise).2.2 (w, r) hmem (w, route) (by simp) (Or.inl rfl)

section Response

variable {es : List Entry} {w : List Tok} {route : Route} {path : Bytes} {r r' : MatchResult}
  {q q' v : List Tok} {walk walk' : Walk}

/-- A word that matches lies on no pattern exactly if it leaves the trail. -/
theorem Response.off_trail_iff (h : Response es path r q walk) (hc : Compatible es) (hne : es ≠ [])
    (hf : Fits MatchesSegment v (parseRequest path).segments) :
    (∀ e ∈ es, ¬ v <+: e.1) ↔ ¬ v <+: q := by
  constructor
  · intro hoff hpre
    rcases live_anti hpre h.trail.live with rfl | ⟨e, he, hv⟩
    · obtain ⟨e, he⟩ := List.exists_mem_of_ne_nil es hne
      exact hoff e he List.nil_prefix
    · exact hoff e he hv
  · rintro hoff ⟨x, r⟩ he ⟨u, rfl⟩
    exact hoff (h.prefix_trail hc he hf)

variable (hc' : Compatible (es ++ [(w, route)])) (h : Response es path r q walk)
  (h' : Response (es ++ [(w, route)]) path r' q' walk')

include hc' h h'

/-- A further route makes the trail no shorter. -/
theorem Response.trail_grows : q <+: q' :=
  trail_mono (fun _ he => List.mem_append_left _ he) hc'.deterministic h.trail h'.trail

/-- A longer trail is a prefix of the new pattern. -/
theorem Response.grown_into (hne : q ≠ q') : q' <+: w := by
  have hpre := Response.trail_grows hc' h h'
  rcases h'.trail.live with rfl | ⟨⟨x, r⟩, he, hx⟩
  · exact List.nil_prefix
  · rcases List.mem_append.mp he with he | he
    · obtain ⟨u, rfl⟩ := hx
      have hback := h.prefix_trail hc'.of_append he h'.trail.fit
      exact absurd (hpre.eq_of_length (Nat.le_antisymm hpre.length_le hback.length_le)) hne
    · obtain ⟨rfl, rfl⟩ : x = w ∧ r = route := by simpa using he
      exact hx

/-- What a diverted request follows of the new pattern lies beyond the old trail. -/
theorem Response.diverted (hd : Diverts es w (parseRequest path).segments) : q ≠ q' := by
  obtain ⟨⟨t, r, hw⟩, v, ⟨u, hu⟩, hf, hoff, -⟩ := hd
  have hmem : (v ++ u, route) ∈ es ++ [(w, route)] := by simp [hu]
  have hv := h'.prefix_trail hc' hmem hf
  rintro rfl
  exact (h.off_trail_iff hc'.of_append (List.ne_nil_of_mem hw.mem) hf).mp hoff hv

/-- The longer walk records more exactly when the new pattern takes it over a parameter. -/
theorem Response.records_same (hne : es ≠ []) : captures q (requestTokens path) =
    captures q' (requestTokens path) ↔
      ¬ ∃ v, v <+: w ∧ Fits MatchesSegment v (parseRequest path).segments ∧
        (∀ e ∈ es, ¬ v <+: e.1) ∧ ∃ u name, v = u ++ [.param name] := by
  have hgrow := Response.trail_grows hc' h h'
  have hslots : captures q (requestTokens path) = captures q' (requestTokens path) ↔
      slots q = slots q' := by
    rw [← h.captures_length, ← h'.captures_length]
    exact ⟨congrArg List.length, (captures_mono hgrow (requestTokens path)).eq_of_length⟩
  rw [hslots]
  obtain ⟨y, rfl⟩ := hgrow
  rw [slots_append, Nat.left_eq_add]
  constructor
  · rintro hzero ⟨v, ⟨x, hx⟩, hf, hoff, u, name, rfl⟩
    have hmem : (u ++ [.param name] ++ x, route) ∈ es ++ [(w, route)] := by simp [hx]
    have hv := h'.prefix_trail hc' hmem hf
    have hnot := (h.off_trail_iff hc'.of_append hne hf).mp hoff
    obtain ⟨z, hz⟩ := (List.prefix_or_prefix_of_prefix hv (List.prefix_append q y)).resolve_left hnot
    rw [← hz, List.prefix_append_right_inj] at hv
    rcases List.eq_nil_or_concat' z with rfl | ⟨z, a, rfl⟩
    · exact hnot ⟨[], by rw [← hz, List.append_nil, List.append_nil]⟩
    · obtain ⟨-, ha⟩ := List.append_inj' ((List.append_assoc q z [a]).trans hz) rfl
      have hname : .param name ∈ z ++ [a] := by rw [ha]; simp
      exact param_slots (hv.subset hname) hzero
  · intro hcond
    by_contra hs
    obtain ⟨v, name, x, rfl⟩ := exists_param (fits_append_right h'.trail.fit) hs
    have hpre : q ++ v ++ [.param name] <+: q ++ (v ++ .param name :: x) := ⟨x, by simp⟩
    have hf := fits_anti hpre h'.trail.fit
    refine hcond ⟨_, hpre.trans (Response.grown_into hc' h h' (by simp)), hf, ?_, q ++ v, name, rfl⟩
    rw [h.off_trail_iff hc'.of_append hne hf]
    intro hback
    have := hback.length_le
    simp only [List.length_append, List.length_singleton] at this
    omega

/-- Nothing matches exactly, and only the longer walk covers the request: what was a fallback
is forgotten. -/
theorem Response.stable_iff_reaching (hnone : ∀ e ∈ es ++ [(w, route)], ¬ MatchesPath e.1 path)
    (hall : ¬ ReachesAll es (parseRequest path).segments)
    (hall' : ReachesAll (es ++ [(w, route)]) (parseRequest path).segments) :
    (walk.route = walk'.route ∧ walk.params = walk'.params) ↔
      ¬ (TakesOver es w path ∨ Diverts es w (parseRequest path).segments) := by
  have hc := hc'.of_append
  have hroute' := h'.stays hc' hnone (Or.inl hall')
  obtain ⟨e, he, v, hv, hlen, hf⟩ := hall'
  obtain rfl : e = (w, route) := by
    refine (List.mem_append.mp he).elim (fun he => absurd ⟨e, he, v, hv, hlen, hf⟩ hall) ?_
    simp
  have htake : ¬ TakesOver es w path := by
    rintro ⟨-, -, t, rfl, hmore, -⟩
    have := (prefix_before_wildcard hv hf).length_le
    omega
  by_cases hw : ∃ t r, WildcardMatch es (parseRequest path).segments t r
  · obtain ⟨t, r₀, hw⟩ := hw
    obtain ⟨u, r₁, hbest⟩ := mostSpecific_exists hw
    have hdiverts : Diverts es w (parseRequest path).segments :=
      ⟨⟨t, r₀, hw⟩, v, hv, hf, fun e he hpre => hall ⟨e, he, v, hpre, hlen, hf⟩, Or.inl hlen⟩
    refine iff_of_false ?_ (not_not.mpr (Or.inr hdiverts))
    rw [hroute', (h.falls_back hc hbest hall).2]
    simp
  · have hroute := h.stays hc (fun e he => hnone e (List.mem_append_left _ he))
      (Or.inr (fun t r hm => hw ⟨t, r, hm⟩))
    refine iff_of_true (same_of_none hroute hroute') ?_
    exact not_or.mpr ⟨htake, fun hd => hw hd.1⟩

/-- Both walks fall back to one old wildcard: they differ by what the longer one records. -/
theorem Response.stable_iff_sharing {t : List Tok} {r₁ : Route}
    (hall : ¬ ReachesAll es (parseRequest path).segments)
    (hall' : ¬ ReachesAll (es ++ [(w, route)]) (parseRequest path).segments)
    (hbest' : MostSpecific (es ++ [(w, route)]) (parseRequest path).segments t r₁)
    (hold : (t ++ wildcardEnd, r₁) ∈ es) :
    (walk.route = walk'.route ∧ walk.params = walk'.params) ↔
      ¬ (TakesOver es w path ∨ Diverts es w (parseRequest path).segments) := by
  have hc := hc'.of_append
  have hbest : MostSpecific es (parseRequest path).segments t r₁ :=
    ⟨⟨hold, hbest'.1.more, hbest'.1.fits⟩, fun u r hu => hbest'.2 u r hu.append⟩
  have htake : ¬ TakesOver es w path := by
    rintro ⟨-, -, u, rfl, hmore, hf, hmax⟩
    have hu : WildcardMatch (es ++ [(u ++ wildcardEnd, route)]) (parseRequest path).segments u
        route := ⟨by simp, hmore, hf⟩
    obtain rfl : t = u := eq_of_fits hc'.deterministic hbest'.1.live hu.live hbest'.1.fits hf
      (Nat.le_antisymm (hmax t r₁ hbest.1) (hbest'.2 u route hu))
    exact hc'.fresh r₁ hold
  rw [(h'.falls_back hc' hbest' hall').2, (h.falls_back hc hbest hall).2]
  simp only [params_of_some, true_and, List.append_left_inj]
  rw [Response.records_same hc' h h' (List.ne_nil_of_mem hold), not_iff_not]
  constructor
  · rintro ⟨v, hv, hf, hoff, hname⟩
    exact Or.inr ⟨⟨t, r₁, hbest.1⟩, v, hv, hf, hoff, Or.inr hname⟩
  · rintro (ht | ⟨-, v, hv, hf, hoff, hlen | hname⟩)
    · exact absurd ht htake
    · exact absurd ⟨(w, route), by simp, v, hv, hlen, hf⟩ hall'
    · exact ⟨v, hv, hf, hoff, hname⟩

/-- A request that the new wildcard takes over had another response before. -/
theorem Response.taken_over {t : List Tok} (hw : t ++ wildcardEnd = w)
    (hnone : ∀ e ∈ es, ¬ MatchesPath e.1 path)
    (hall : ¬ ReachesAll es (parseRequest path).segments)
    (hall' : ¬ ReachesAll (es ++ [(w, route)]) (parseRequest path).segments)
    (hbest' : MostSpecific (es ++ [(w, route)]) (parseRequest path).segments t route) :
    ¬ (walk.route = walk'.route ∧ walk.params = walk'.params) := by
  subst hw
  have hc := hc'.of_append
  have hwalk' := (h'.falls_back hc' hbest' hall').2
  rintro ⟨hroute, hparams⟩
  by_cases hw : ∃ u r, WildcardMatch es (parseRequest path).segments u r
  · obtain ⟨u₀, r₀, hw⟩ := hw
    obtain ⟨u, r₂, hbest⟩ := mostSpecific_exists hw
    rw [hwalk', (h.falls_back hc hbest hall).2] at hparams
    simp only [params_of_some] at hparams
    obtain ⟨-, hlast⟩ := List.append_inj' hparams rfl
    rcases Nat.lt_or_eq_of_le (hbest'.2 u r₂ hbest.1.append) with hlt | heq
    · exact wildcardCapture_inj hlt hbest'.1.more (by simpa using hlast)
    · obtain rfl : u = t := eq_of_fits hc'.deterministic hbest.1.append.live hbest'.1.live
        hbest.1.fits hbest'.1.fits heq
      exact hc'.fresh r₂ hbest.1.mem
  · rw [hwalk', h.stays hc hnone (Or.inr (fun u r hm => hw ⟨u, r, hm⟩))] at hroute
    simp at hroute

/-- The new pattern keeps the response, or takes it over, or diverts the walk from it. -/
theorem Response.stable_iff (hno : ¬ RouteMatches w path) :
    (walk.route = walk'.route ∧ walk.params = walk'.params) ↔
      ¬ (TakesOver es w path ∨ Diverts es w (parseRequest path).segments) := by
  have hc := hc'.of_append
  have hgrow := Response.trail_grows hc' h h'
  have hfit' := fits_length h'.trail.fit
  by_cases hexact : ∃ e ∈ es, MatchesPath e.1 path
  · -- a pattern that matches exactly ends both trails
    obtain ⟨e, he, hm⟩ := hexact
    obtain ⟨hw, -, rfl⟩ := h.exact hc he hm
    obtain ⟨hw', -, rfl⟩ := h'.exact hc' (List.mem_append_left _ he) hm
    obtain rfl : q = q' := (List.append_inj' (hw.symm.trans hw') rfl).1
    refine iff_of_true ⟨rfl, rfl⟩ ?_
    rintro (⟨hill, -⟩ | hd)
    · exact hm.1 ((parse_illegal path).mpr hill)
    · exact Response.diverted hc' h h' hd rfl
  have hnone : ∀ e ∈ es, ¬ MatchesPath e.1 path := fun e he hm => hexact ⟨e, he, hm⟩
  have hnone' : ∀ e ∈ es ++ [(w, route)], ¬ MatchesPath e.1 path := by
    intro e he
    rcases List.mem_append.mp he with he | he
    · exact hnone e he
    · obtain rfl : e = (w, route) := by simpa using he
      exact fun hm => hno (Or.inl hm)
  by_cases hall : ReachesAll es (parseRequest path).segments
  · -- the old trail already covers the request
    refine iff_of_true (same_of_none (h.stays hc hnone (Or.inl hall))
      (h'.stays hc' hnone' (Or.inl hall.append))) ?_
    rintro (⟨-, hout, -⟩ | hd)
    · exact hout hall
    · obtain ⟨t, r, hw⟩ := hd.1
      have hlen := (h.reachesAll_iff hc (List.ne_nil_of_mem hw.mem)).mp hall
      exact Response.diverted hc' h h' hd (hgrow.eq_of_length
        (Nat.le_antisymm hgrow.length_le (by omega)))
  by_cases hall' : ReachesAll (es ++ [(w, route)]) (parseRequest path).segments
  · exact Response.stable_iff_reaching hc' h h' hnone' hall hall'
  by_cases hw' : ∃ t r, WildcardMatch (es ++ [(w, route)]) (parseRequest path).segments t r
  · obtain ⟨t₀, r₀, hw'⟩ := hw'
    obtain ⟨t, r₁, hbest'⟩ := mostSpecific_exists hw'
    rcases List.mem_append.mp hbest'.1.mem with hold | hnew
    · exact Response.stable_iff_sharing hc' h h' hall hall' hbest' hold
    · obtain ⟨hw, rfl⟩ : t ++ wildcardEnd = w ∧ r₁ = route := by simpa using hnew
      have hill : IllegalPath path := by
        by_contra hlegal
        exact hno (Or.inr ⟨hlegal, t, hw.symm, hbest'.1.more, hbest'.1.fits⟩)
      have htakes : TakesOver es w path := ⟨hill, hall, t, hw.symm, hbest'.1.more, hbest'.1.fits,
        fun u r hu => hbest'.2 u r hu.append⟩
      exact iff_of_false (Response.taken_over hc' h h' hw hnone hall hall' hbest')
        (not_not.mpr (Or.inl htakes))
  · -- no wildcard at all
    have hw : ∀ t r, ¬ WildcardMatch es (parseRequest path).segments t r :=
      fun t r hm => hw' ⟨t, r, hm.append⟩
    refine iff_of_true (same_of_none (h.stays hc hnone (Or.inr hw))
      (h'.stays hc' hnone' (Or.inr (fun t r hm => hw' ⟨t, r, hm⟩)))) ?_
    rintro (⟨-, -, t, rfl, hmore, hf, -⟩ | ⟨⟨t, r, hm⟩, -⟩)
    · exact hw' ⟨t, route, by simp, hmore, hf⟩
    · exact hw t r hm

end Response

/-- A further route that does not match a request leaves its response alone, exactly when
it neither takes it over nor diverts it from its wildcard, and the request overruns neither
buffer. -/
theorem stable_under_addition (L : Libc) {options : Options} {routes : List (Bytes × Route)}
    {pattern : Bytes} {route : Route} {d d' : Dispatcher} (h : Serves L options routes d)
    (h' : Serves L options (routes ++ [(pattern, route)]) d') {path : Bytes}
    (hno : ¬ RouteMatches (patternWord options.paramSyntax pattern) path) :
    (∃ r r', d.request L path = some r ∧ d'.request L path = some r' ∧
      r.route = r'.route ∧ r.dispatcher.params.list = r'.dispatcher.params.list) ↔
      ¬ (TakesOver (entries options.paramSyntax routes)
          (patternWord options.paramSyntax pattern) path ∨
        Diverts (entries options.paramSyntax routes)
          (patternWord options.paramSyntax pattern) (parseRequest path).segments) ∧
      ¬ Overrun (entries options.paramSyntax routes) (parseRequest path).segments ∧
      ¬ Overrun (entries options.paramSyntax (routes ++ [(pattern, route)]))
        (parseRequest path).segments := by
  have hc' := h'.compatible
  have hentries : entries options.paramSyntax (routes ++ [(pattern, route)]) =
      entries options.paramSyntax routes ++ [(patternWord options.paramSyntax pattern, route)] := by
    simp [entries]
  obtain ⟨hnone, hover⟩ | ⟨hin, r, q, walk, hres, hresp⟩ := h.request path
  · rw [hnone]
    exact iff_of_false (by simp) fun hcond => hcond.2.1 hover
  obtain ⟨hnone, hover⟩ | ⟨hin', r', q', walk', hres', hresp'⟩ := h'.request path
  · rw [hnone]
    exact iff_of_false (by simp) fun hcond => hcond.2.2 hover
  rw [and_iff_left ⟨hin, hin'⟩, hres, hres']
  rw [hentries] at hc' hresp'
  have hstable := Response.stable_iff hc' hresp hresp' hno
  rw [← hresp.route, ← hresp'.route, ← hresp.params, ← hresp'.params] at hstable
  rw [← hstable]
  constructor
  · rintro ⟨_, _, he, he', hsame⟩
    obtain rfl := Option.some.inj he
    obtain rfl := Option.some.inj he'
    exact hsame
  · exact fun hsame => ⟨r, r', rfl, rfl, hsame⟩

/-- `/baz` shares nothing with the new route, and stays with `/*`. -/
theorem stable_under_addition_sibling : ∃ d d' r r',
    Serves .reference plainOptions [(ascii "/*", ⟨0, 1⟩)] d ∧
    Serves .reference plainOptions [(ascii "/*", ⟨0, 1⟩), (ascii "/foo/bar", ⟨0, 2⟩)] d' ∧
    d.request .reference (ascii "/baz") = some r ∧
    d'.request .reference (ascii "/baz") = some r' ∧
    r.route = r'.route ∧ r.dispatcher.params.list = r'.dispatcher.params.list := by
  obtain ⟨d, hs⟩ : ∃ d, Serves .reference plainOptions [(ascii "/*", ⟨0, 1⟩)] d :=
    exists_serves (by decide +kernel)
  obtain ⟨d', hs'⟩ : ∃ d,
      Serves .reference plainOptions [(ascii "/*", ⟨0, 1⟩), (ascii "/foo/bar", ⟨0, 2⟩)] d :=
    exists_serves (by decide +kernel)
  obtain ⟨r, r', hsame⟩ := (stable_under_addition .reference hs hs'
    (show ¬ RouteMatches (patternWord .colon (ascii "/foo/bar")) (ascii "/baz") by
      decide +kernel)).mpr (by decide +kernel)
  exact ⟨d, d', r, r', hs, hs', hsame⟩

/-- `/foo` went to `/*`; with `/foo/bar` added, which does not match it, it goes nowhere. -/
theorem unstable_under_addition : ∃ d d' r r',
    Serves .reference plainOptions [(ascii "/*", ⟨0, 1⟩)] d ∧
    Serves .reference plainOptions [(ascii "/*", ⟨0, 1⟩), (ascii "/foo/bar", ⟨0, 2⟩)] d' ∧
    ¬ RouteMatches (patternWord .colon (ascii "/foo/bar")) (ascii "/foo") ∧
    d.request .reference (ascii "/foo") = some r ∧ r.route = some ⟨0, 1⟩ ∧
    d'.request .reference (ascii "/foo") = some r' ∧ r'.route = none := by
  obtain ⟨d, r, hs, hr, hroute⟩ : ∃ d r,
      Serves .reference plainOptions [(ascii "/*", ⟨0, 1⟩)] d ∧
        d.request .reference (ascii "/foo") = some r ∧ r.route = some ⟨0, 1⟩ :=
    trial_request (by decide +kernel)
  obtain ⟨d', r', hs', hr', hroute'⟩ : ∃ d r,
      Serves .reference plainOptions [(ascii "/*", ⟨0, 1⟩), (ascii "/foo/bar", ⟨0, 2⟩)] d ∧
        d.request .reference (ascii "/foo") = some r ∧ r.route = none :=
    trial_request (by decide +kernel)
  exact ⟨d, d', r, r', hs, hs', by decide +kernel, hr, hroute, hr', hroute'⟩

end Wrouter
