import Wrouter.Parameters

/-!
# Parameters by name

A parameter may be asked for by its position or by its name; the name search stops at the
first that fits. The two agree as long as no name was recorded twice, which only a pattern
that repeats a name can bring about.
-/
namespace Wrouter

open CLib Words

/-- `wrouter_iparam`, as a slot of the buffer. -/
def wrouterIparam (params : Params) (index : Nat) : Option Nat :=
  if index ≥ params.count then none else some index

/-- `wrouter_param`: the first slot with that name; all names are terminated strings. -/
def wrouterParam (params : Params) (name : Bytes) : Option Nat :=
  (List.range params.count).find? fun i => strcmp ((params.slots i).name.getD []) name = 0

def paramNames : List Tok → List Bytes
  | [] => []
  | .param name :: u => name :: paramNames u
  | _ :: u => paramNames u

theorem mem_paramNames {u : List Tok} {name : Bytes} :
    name ∈ paramNames u ↔ Tok.param name ∈ u := by
  induction u with
  | nil => simp [paramNames]
  | cons a u ih => cases a <;> simp [paramNames, ih]

theorem paramNames_append (u v : List Tok) :
    paramNames (u ++ v) = paramNames u ++ paramNames v := by
  induction u with
  | nil => rfl
  | cons a u ih => cases a <;> simp [paramNames, ih]

/-- The names recorded are those of the pattern. -/
theorem captures_names {q : List Tok} {xs : List Token} (h : q.length ≤ xs.length) :
    (captures q xs).map Param.name = (paramNames q).map some := by
  induction q generalizing xs with
  | nil => cases xs <;> rfl
  | cons a q ih =>
    cases xs with
    | nil => simp at h
    | cons t xs =>
      have := ih (show q.length ≤ xs.length by simpa using h)
      cases a <;> simp [captures, paramNames, this]

/-- No prefix of a pattern that matches the leading segments repeats a name. -/
def DistinctNames (es : List Entry) (segs : List Bytes) : Prop :=
  ∀ e ∈ es, ∀ q, q <+: e.1 → Fits MatchesSegment q segs → (paramNames q).Nodup

/-- It is enough to look at the prefixes of the patterns. -/
theorem distinctNames_iff {es : List Entry} {segs : List Bytes} : DistinctNames es segs ↔
    ∀ e ∈ es, ∀ q ∈ e.1.inits, Fits MatchesSegment q segs → (paramNames q).Nodup := by
  simp only [DistinctNames, List.mem_inits]

instance (es : List Entry) (segs : List Bytes) : Decidable (DistinctNames es segs) :=
  decidable_of_iff _ distinctNames_iff.symm

section Search

variable {params : Params}

/-- With proper strings for names, the search finds the first slot of that name. -/
theorem wrouterParam_eq_some {name : Bytes} (hname : NulFree name) {i : Nat}
    (hfree : ∀ j < params.count, NulFree ((params.slots j).name.getD [])) :
    wrouterParam params name = some i ↔ i < params.count ∧ (params.slots i).name.getD [] = name ∧
      ∀ j < i, (params.slots j).name.getD [] ≠ name := by
  have hcmp : ∀ j < params.count, strcmp ((params.slots j).name.getD []) name = 0 ↔
      (params.slots j).name.getD [] = name := fun j hj => strcmp_eq_zero (hfree j hj) hname
  rw [wrouterParam, List.find?_range_eq_some, List.mem_range]
  constructor
  · rintro ⟨hi, hlt, hfirst⟩
    refine ⟨hlt, (hcmp i hlt).mp (by simpa using hi), fun j hj he => ?_⟩
    have hno := hfirst j hj
    rw [(hcmp j (by omega)).mpr he] at hno
    simp at hno
  · rintro ⟨hlt, hi, hfirst⟩
    refine ⟨by simpa using (hcmp i hlt).mpr hi, hlt, fun j hj => ?_⟩
    have hne : strcmp ((params.slots j).name.getD []) name ≠ 0 :=
      fun hz => hfirst j hj ((hcmp j (by omega)).mp hz)
    simpa using hne

/-- Names that are pairwise different are found where they stand, and only those. -/
theorem names_found (hsome : ∀ i < params.count, ∃ name, (params.slots i).name = some name ∧
      NulFree name) :
    (params.list.map Param.name).Nodup ↔ ∀ i < params.count, ∃ j name,
      wrouterIparam params i = some j ∧ (params.slots j).name = some name ∧
        wrouterParam params name = some i := by
  have hfree : ∀ j < params.count, NulFree ((params.slots j).name.getD []) := by
    intro j hj
    obtain ⟨name, hname, hf⟩ := hsome j hj
    rwa [hname]
  have hnodup : (params.list.map Param.name).Nodup ↔
      ∀ i < params.count, ∀ j < i, (params.slots j).name ≠ (params.slots i).name := by
    rw [List.Nodup, List.pairwise_map, Params.list, List.pairwise_map, List.pairwise_iff_getElem]
    simp only [List.length_range, List.getElem_range]
    exact ⟨fun h i hi j hj => h j i (by omega) hi hj, fun h j i _ hi hj => h i hi j hj⟩
  rw [hnodup]
  refine forall₂_congr (fun i hi => ?_)
  obtain ⟨name, hname, hf⟩ := hsome i hi
  constructor
  · intro hne
    refine ⟨i, name, by rw [wrouterIparam, if_neg (by omega)], hname,
      (wrouterParam_eq_some hf hfree).mpr ⟨hi, by rw [hname]; rfl, fun j hj he => hne j hj ?_⟩⟩
    obtain ⟨name', hname', -⟩ := hsome j (by omega)
    rw [hname', Option.getD_some] at he
    rw [hname', hname, he]
  · rintro ⟨k, name', hk, hname', hfound⟩ j hj he
    rw [wrouterIparam, if_neg (by omega), Option.some.injEq] at hk
    subst hk
    obtain rfl : name = name' := Option.some.inj (hname.symm.trans hname')
    have hfirst := ((wrouterParam_eq_some hf hfree).mp hfound).2.2 j hj
    rw [he, hname] at hfirst
    exact hfirst rfl

end Search

/-- The names recorded for a request: those of its trail, and the wildcard's. -/
theorem Response.names {es : List Entry} {path : Bytes} {r : MatchResult} {q : List Tok}
    {walk : Walk} (h : Response es path r q walk) {route : Route} (hroute : walk.route = some route) :
    ∃ last, (last = [] ∨ last = [some wildcardParam]) ∧
      r.dispatcher.params.list.map Param.name = (paramNames q).map some ++ last := by
  have hnames := captures_names h.length_le
  have hparams : r.dispatcher.params.list = walk.recorded := by
    rw [h.params, Walk.params, hroute, if_pos Option.isSome_some]
  rw [hparams]
  cases h.outcome with
  | found => exact ⟨[], Or.inl rfl, by rw [List.append_nil]; exact hnames⟩
  | missing => simp at hroute
  | lost => simp at hroute
  | fallback => exact ⟨[some wildcardParam], Or.inr rfl, by rw [List.map_append, hnames]; rfl⟩

/-- For a resolved request the recorded names are pairwise different, so that each is found
at its own position, exactly when no matching prefix of a pattern repeats a name. -/
theorem names_agree (L : Libc) {options : Options} {routes : List (Bytes × Route)} {d : Dispatcher}
    (h : Serves L options routes d) {path : Bytes} {res : MatchResult}
    (hres : d.request L path = some res) {route : Route} (hroute : res.route = some route) :
    ((res.dispatcher.params.list.map Param.name).Nodup ∧
      ∀ i < res.dispatcher.params.count, ∃ j name,
        wrouterIparam res.dispatcher.params i = some j ∧
        (res.dispatcher.params.slots j).name = some name ∧
        wrouterParam res.dispatcher.params name = some i) ↔
      DistinctNames (entries options.paramSyntax routes) (parseRequest path).segments := by
  have hc := h.compatible
  obtain ⟨res', q, walk, hres', hresp⟩ := h.responds path
  obtain rfl : res = res' :=
    Option.some.inj ((Dispatcher.request_some.mp hres).1.symm.trans hres')
  rw [hresp.route] at hroute
  obtain ⟨last, hlast, hnames⟩ := hresp.names hroute
  have hletter : ∀ name ∈ paramNames q, isalpha (deref name) ∧ NulFree name := by
    intro name hname
    rcases hresp.trail.live with rfl | ⟨e, he, hpre⟩
    · simp [paramNames] at hname
    · obtain ⟨r, -, rfl⟩ := List.mem_map.mp (mem_dictionary.mp he)
      exact patternWord_param (hpre.subset (mem_paramNames.mp hname))
  have hsome : ∀ i < res.dispatcher.params.count, ∃ name,
      (res.dispatcher.params.slots i).name = some name ∧ NulFree name := by
    intro i hi
    have hmem : (res.dispatcher.params.slots i).name ∈
        res.dispatcher.params.list.map Param.name :=
      List.mem_map.mpr ⟨_, List.mem_map.mpr ⟨i, List.mem_range.mpr hi, rfl⟩, rfl⟩
    rw [hnames, List.mem_append] at hmem
    rcases hmem with hmem | hmem
    · obtain ⟨name, hname, he⟩ := List.mem_map.mp hmem
      exact ⟨name, he.symm, (hletter name hname).2⟩
    · rcases hlast with rfl | rfl
      · simp at hmem
      · refine ⟨wildcardParam, List.mem_singleton.mp hmem, ?_⟩
        unfold NulFree
        decide
  rw [← names_found hsome, and_self_iff, hnames]
  have hwild : ((paramNames q).map some ++ last).Nodup ↔ (paramNames q).Nodup := by
    rw [← List.nodup_map_iff (Option.some_injective Bytes) (l := paramNames q)]
    rcases hlast with rfl | rfl
    · rw [List.append_nil]
    · rw [List.nodup_append]
      refine ⟨fun hall => hall.1, fun hq => ⟨hq, List.nodup_singleton _, ?_⟩⟩
      intro a ha b hb he
      obtain ⟨name, hname, rfl⟩ := List.mem_map.mp ha
      rw [List.mem_singleton] at hb
      obtain rfl := Option.some.inj (he.trans hb)
      exact absurd (hletter _ hname).1 (by decide)
  rw [hwild]
  constructor
  · intro hq e he p ⟨u, hu⟩ hfit
    have hmem : (p ++ u, e.2) ∈ entries options.paramSyntax routes := by rwa [hu]
    obtain ⟨v, rfl⟩ := hresp.prefix_trail hc hmem hfit
    rw [paramNames_append] at hq
    exact (List.nodup_append.mp hq).1
  · intro hall
    rcases hresp.trail.live with rfl | ⟨e, he, hpre⟩
    · exact List.nodup_nil
    · exact hall e he q hpre hresp.trail.fit

/-- The second `:x` is not on the way of the request. -/
theorem names_agree_wildcard : ∃ d res,
    Serves .reference plainOptions [(ascii "/:x/:y/*", ⟨0, 1⟩), (ascii "/:x/:y/b/:x", ⟨0, 2⟩)] d ∧
      d.request .reference (ascii "/1/2/c") = some res ∧
      ∀ i < res.dispatcher.params.count, ∃ j name,
        wrouterIparam res.dispatcher.params i = some j ∧
        (res.dispatcher.params.slots j).name = some name ∧
        wrouterParam res.dispatcher.params name = some i := by
  obtain ⟨d, res, hs, hres, hroute⟩ : ∃ d res, Serves .reference plainOptions
      [(ascii "/:x/:y/*", ⟨0, 1⟩), (ascii "/:x/:y/b/:x", ⟨0, 2⟩)] d ∧
      d.request .reference (ascii "/1/2/c") = some res ∧ res.route = some ⟨0, 1⟩ :=
    trial_request (by decide +kernel)
  exact ⟨d, res, hs, hres, ((names_agree .reference hs hres hroute).mpr (by decide +kernel)).2⟩

/-- The second parameter of `/:x/:x` is not found by its name. -/
theorem repeated_name : ∃ d res, Serves .reference plainOptions [(ascii "/:x/:x", ⟨0, 1⟩)] d ∧
    d.request .reference (ascii "/1/2") = some res ∧ res.route = some ⟨0, 1⟩ ∧
      res.dispatcher.params.list.map Param.read =
        [(some (ascii "x"), ascii "1"), (some (ascii "x"), ascii "2")] ∧
      wrouterIparam res.dispatcher.params 1 = some 1 ∧
      (res.dispatcher.params.slots 1).name = some (ascii "x") ∧
      wrouterParam res.dispatcher.params (ascii "x") = some 0 ∧
      ¬ (res.dispatcher.params.list.map Param.name).Nodup :=
  trial_request (by decide +kernel)

end Wrouter
