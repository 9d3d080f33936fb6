import Wrouter.Resolve
import Wrouter.Stats

/-!
# The order of the additions

Node layout, offsets, the terminal dictionary and the symbol tables all depend on
the order in which routes are added. What a caller sees does not: acceptance, the
sizes and every response are functions of the set of patterns.
-/
namespace Wrouter

open CLib Words

/-! ## Compilation, by the answers of the allocator -/

section Answers

variable {L : Libc} {w v : World}

theorem symbolCompile_answers {tbl tbl' : SymbolTable} (hcount : tbl.count = 0 ↔ tbl'.count = 0)
    (h : w.answers = v.answers) :
    (symbolCompile L tbl w).1 = (symbolCompile L tbl' v).1 ∧
      (symbolCompile L tbl w).2.2.answers = (symbolCompile L tbl' v).2.2.answers := by
  unfold symbolCompile World.malloc
  dsimp only
  by_cases hzero : tbl.count = 0
  · rw [if_pos hzero, if_pos (hcount.mp hzero)]
    exact ⟨rfl, h⟩
  · rw [if_neg hzero, if_neg (mt hcount.mpr hzero), ← h]
    rcases hw : w.answers with _ | ⟨_ | a, _ | ⟨_ | b, rest⟩⟩ <;> simp [symbolsFree]

theorem terminalAlloc_answers (t t' : Terminals) (n m : Nat) (h : w.answers = v.answers) :
    (terminalAlloc t n w).1 = (terminalAlloc t' m v).1 ∧
      (terminalAlloc t n w).2.2.answers = (terminalAlloc t' m v).2.2.answers := by
  unfold terminalAlloc World.malloc
  rw [← h]
  rcases hw : w.answers with _ | ⟨_ | a, _ | ⟨_ | b, rest⟩⟩ <;> simp [terminalsFree]

/-- Builders with the same statistics compile alike, if the allocator answers alike. -/
theorem compileRouter_answers {b b' : Builder} (router router' : Router)
    (hstats : graphStats b.root .zero = graphStats b'.root .zero)
    (hliterals : b.literals.count = 0 ↔ b'.literals.count = 0)
    (hparams : b.params.count = 0 ↔ b'.params.count = 0) (h : w.answers = v.answers) :
    (compileRouter L b router w).1 = (compileRouter L b' router' v).1 := by
  unfold compileRouter
  dsimp only
  rw [hstats]
  split
  · rfl
  obtain ⟨herr, h⟩ := symbolCompile_answers (L := L) hliterals h
  rw [← herr]
  split
  · rfl
  obtain ⟨herr, h⟩ := symbolCompile_answers (L := L) hparams h
  rw [← herr]
  split
  · rfl
  obtain ⟨hok, h⟩ := terminalAlloc_answers router.terminals router'.terminals
    (graphStats b'.root .zero).terminals (graphStats b'.root .zero).terminals h
  rw [← hok]
  split
  · rfl
  obtain ⟨hsome, -⟩ := malloc_answers _ _ h ((graphStats b'.root .zero).size * 2)
    ((graphStats b'.root .zero).size * 2)
  split <;> split <;> simp_all

theorem wrouterCompile_answers {b b' : Builder} (hcorrupted : b.corrupted = b'.corrupted)
    (hstats : graphStats b.root .zero = graphStats b'.root .zero)
    (hliterals : b.literals.count = 0 ↔ b'.literals.count = 0)
    (hparams : b.params.count = 0 ↔ b'.params.count = 0) (h : w.answers = v.answers) :
    (wrouterCompile L (some b) w).1.isSome = (wrouterCompile L (some b') v).1.isSome := by
  obtain ⟨hsome, hrest⟩ := malloc_answers w v h 1 1
  unfold wrouterCompile
  dsimp only
  rw [hcorrupted]
  split
  · rfl
  cases hm : w.malloc 1 with
  | mk block w₁ =>
    cases hm' : v.malloc 1 with
    | mk block' v₁ =>
      rw [hm, hm'] at hsome hrest
      cases block with
      | none =>
        obtain rfl : block' = none := by simpa using hsome.symm
        rfl
      | some block =>
        obtain ⟨block', rfl⟩ : ∃ c, block' = some c := Option.isSome_iff_exists.mp hsome.symm
        dsimp only
        have hretain : (w₁.retain b.retain b.fallback.ctx).answers =
            (v₁.retain b'.retain b'.fallback.ctx).answers := by simpa using hrest
        rw [compileRouter_answers _ ⟨block', none, .zero, .zero, .zero, b'.fallback, 0, 0, 0,
          b'.retain, b'.release⟩ hstats hliterals hparams hretain]
        split <;> rfl

end Answers

theorem SymbolTable.Ok.count_eq_zero {tbl : SymbolTable} (h : tbl.Ok) :
    tbl.count = 0 ↔ tbl.texts = [] := by
  rw [h.count_eq, List.length_eq_zero_iff, SymbolTable.texts, List.map_eq_nil_iff]

/-- Tables of the same strings are empty together. -/
theorem texts_empty_congr {tbl tbl' : SymbolTable} (ht : tbl.Ok) (ht' : tbl'.Ok)
    (h : ∀ s, s ∈ tbl.texts ↔ s ∈ tbl'.texts) : tbl.count = 0 ↔ tbl'.count = 0 := by
  rw [ht.count_eq_zero, ht'.count_eq_zero, List.eq_nil_iff_forall_not_mem,
    List.eq_nil_iff_forall_not_mem]
  exact forall_congr' (fun s => not_congr (h s))

/-! ## Two runs -/

/-- The order of the calls is the order of the entries. -/
theorem entries_perm (paramSyntax : ParamSyntax) {routes routes' : List (Bytes × Route)}
    (h : routes.Perm routes') : (entries paramSyntax routes).Perm (entries paramSyntax routes') :=
  h.map _

section Permuted

variable {es es' : List Entry} {b b' : Builder}

/-- The counters do not depend on the order. -/
theorem stats_congr (hb : b.Holds es) (hb' : b'.Holds es') (h : es.Perm es') :
    graphStats b.root .zero = graphStats b'.root .zero := by
  have hroutes : b.root.routes.Perm b'.root.routes := hb.routes.trans (h.trans hb'.routes.symm)
  rw [graphStats_zero hb.sound, graphStats_zero hb'.sound, hroutes.length_eq,
    size_congr hb.sound hb'.sound hroutes, maxSlots_congr (fun e => hroutes.mem_iff)]

/-- Nor does it depend on the order whether compiling succeeds. -/
theorem compile_congr {L : Libc} {w v : World} (hb : b.Holds es) (hb' : b'.Holds es')
    (h : es.Perm es') (hanswers : w.answers = v.answers) :
    (wrouterCompile L (some b) w).1.isSome = (wrouterCompile L (some b') v).1.isSome := by
  refine wrouterCompile_answers (by rw [hb.intact, hb'.intact]) (stats_congr hb hb' h) ?_ ?_ hanswers
  · refine texts_empty_congr hb.literalsOk hb'.literalsOk (fun s => ?_)
    rw [hb.literals, hb'.literals]
    simp only [h.mem_iff]
  · refine texts_empty_congr hb.paramsOk hb'.paramsOk (fun s => ?_)
    rw [hb.params, hb'.params]
    simp only [h.mem_iff]

/-- A trail ends in one way only. -/
theorem Outcome.unique {S : Set Entry} {xs : List Token} {fin : Tok} {q : List Tok}
    {walk walk' : Walk} (hf : ∀ w r r', (w, r) ∈ S → (w, r') ∈ S → r = r')
    (h : Outcome S xs fin q walk) (h' : Outcome S xs fin q walk') : walk = walk' := by
  cases h with
  | found hlen hr =>
    cases h' with
    | found _ hr' => rw [hf _ _ _ hr hr']
    | missing _ hno => exact absurd hr (hno _)
    | fallback hlt => omega
    | lost hlt => omega
  | missing hlen hno =>
    cases h' with
    | found _ hr' => exact absurd hr' (hno _)
    | missing => rfl
    | fallback hlt => omega
    | lost hlt => omega
  | fallback hlt hd =>
    cases h' with
    | found hlen => omega
    | missing hlen => omega
    | fallback _ hd' =>
      obtain ⟨rfl, rfl⟩ := deepest_unique hf hd hd'
      rfl
    | lost _ hno => exact absurd hd.mem (hno _ _ hd.le)
  | lost hlt hno =>
    cases h' with
    | found hlen => omega
    | missing hlen => omega
    | fallback _ hd' => exact absurd hd'.mem (hno _ _ hd'.le)
    | lost => rfl

/-- A response depends on the set of patterns only. -/
theorem Response.congr {path : Bytes} {r r' : MatchResult} {q q' : List Tok} {walk walk' : Walk}
    (hc : Compatible es) (hmem : ∀ e, e ∈ es ↔ e ∈ es') (h : Response es path r q walk)
    (h' : Response es' path r' q' walk') :
    r.reply = r'.reply ∧ r.touched = r'.touched := by
  have hdict : dictionary es' = dictionary es := Set.ext (fun e => (hmem e).symm)
  have htrail := h'.trail
  have hout := h'.outcome
  rw [hdict] at htrail hout
  obtain rfl : q = q' := trail_unique hc.deterministic h.trail htrail
  obtain rfl : walk = walk' := h.outcome.unique (fun _ _ _ => hc.functional) hout
  exact ⟨Prod.ext (h.route.trans h'.route.symm) (h.params.trans h'.params.symm),
    h.touched.trans h'.touched.symm⟩

end Permuted

/-- Matches that take the same slots of buffers of one size. -/
theorem request_congr {L : Libc} {d d' : Dispatcher} {path : Bytes} {r r' : MatchResult}
    (hsize : d.params.allocated = d'.params.allocated) (hr : resolveRequest L d path = some r)
    (hr' : resolveRequest L d' path = some r') (hreply : r.reply = r'.reply)
    (htouched : r.touched = r'.touched) :
    (d.request L path).map MatchResult.reply = (d'.request L path).map MatchResult.reply := by
  have hover : d.overruns L path = d'.overruns L path := by
    rw [Dispatcher.overruns, Dispatcher.overruns, hr, hr', hsize, Option.any_some, Option.any_some,
      htouched]
  rw [Dispatcher.request, Dispatcher.request, hover, hr, hr']
  cases d'.overruns L path with
  | true => rfl
  | false => exact congrArg some hreply

/-- Whatever the order of the calls: the same acceptance, the same sizes, the same
responses, and the same requests overrun the buffer. -/
theorem order_independence (L : Libc) (options : Options) {routes routes' : List (Bytes × Route)}
    (hperm : routes.Perm routes') (w w' : World)
    (hclean : Clean (wrouterAddRoutes (.fresh options) w routes).1)
    (hclean' : Clean (wrouterAddRoutes (.fresh options) w' routes').1) :
    (AllOk (wrouterAddRoutes (.fresh options) w routes).1 ↔
      AllOk (wrouterAddRoutes (.fresh options) w' routes').1) ∧
    (AllOk (wrouterAddRoutes (.fresh options) w routes).1 →
      ∀ v v' : World, v.answers = v'.answers →
        let c := (wrouterCompile L (some (wrouterAddRoutes (.fresh options) w routes).2.1) v).1
        let c' := (wrouterCompile L (some (wrouterAddRoutes (.fresh options) w' routes').2.1) v').1
        (c.isSome ↔ c'.isSome) ∧ ∀ router ∈ c, ∀ router' ∈ c',
          router.graphSize = router'.graphSize ∧
          wrouterRouteCount router = wrouterRouteCount router' ∧
          router.maxParams = router'.maxParams ∧
          ∀ (d d' : Dispatcher) (path : Bytes), d.router = router → d'.router = router' →
            (∃ r r', resolveRequest L d path = some r ∧ resolveRequest L d' path = some r' ∧
              r.reply = r'.reply) ∧
            (d.params.allocated = d'.params.allocated →
              (d.request L path).map MatchResult.reply =
                (d'.request L path).map MatchResult.reply)) := by
  have hfresh := (built_fresh options).holds.1
  have hentries := entries_perm options.paramSyntax hperm
  have hiff : AllOk (wrouterAddRoutes (.fresh options) w routes).1 ↔
      AllOk (wrouterAddRoutes (.fresh options) w' routes').1 := by
    rw [wrouterAddRoutes_ok_iff hfresh hclean, wrouterAddRoutes_ok_iff hfresh hclean']
    refine and_congr ?_ ?_
    · exact forall_congr' (fun e => imp_congr_left hentries.mem_iff)
    · exact hentries.pairwise_iff (fun h => mt Conflict.symm h)
  refine ⟨hiff, fun hok v v' hanswers => ?_⟩
  have hbuilt := (built_fresh options).addRoutes hok
  have hb := hbuilt.holds.1
  have hb' := ((built_fresh options).addRoutes (hiff.mp hok)).holds.1
  rw [List.nil_append] at hb hb' hbuilt
  refine ⟨by rw [compile_congr hb hb' hentries hanswers], fun router hr router' hr' => ?_⟩
  have hfrom := wrouterCompile_ok hr
  have hfrom' := wrouterCompile_ok hr'
  have hstats := stats_congr hb hb' hentries
  refine ⟨by rw [hfrom.graphSize, hfrom'.graphSize, hstats],
    by rw [wrouterRouteCount, wrouterRouteCount, hfrom.numRoutes, hfrom'.numRoutes, hstats],
    by rw [hfrom.maxParams, hfrom'.maxParams, hstats], ?_⟩
  rintro d d' path rfl rfl
  obtain ⟨r, q, walk, hres, hresp⟩ := answers_response hb hfrom path
  obtain ⟨r', q', walk', hres', hresp'⟩ := answers_response hb' hfrom' path
  obtain ⟨hreply, htouched⟩ :=
    hresp.congr hbuilt.isCompatible (fun _ => hentries.mem_iff) hresp'
  exact ⟨⟨r, r', hres, hres', hreply⟩,
    fun hsize => request_congr hsize hres hres' hreply htouched⟩

/-- Two routes in both orders. -/
theorem order_independence_pair : ∃ router router',
    (wrouterCompile .reference (some (wrouterAddRoutes (.fresh plainOptions) .empty
      [(ascii "/*", ⟨0, 1⟩), (ascii "/a/:x", ⟨0, 2⟩)]).2.1) .empty).1 = some router ∧
    (wrouterCompile .reference (some (wrouterAddRoutes (.fresh plainOptions) .empty
      [(ascii "/a/:x", ⟨0, 2⟩), (ascii "/*", ⟨0, 1⟩)]).2.1) .empty).1 = some router' ∧
    router.graphSize = router'.graphSize ∧
    ∀ (d d' : Dispatcher) (path : Bytes), d.router = router → d'.router = router' →
      (∃ r r', resolveRequest .reference d path = some r ∧
        resolveRequest .reference d' path = some r' ∧ r.reply = r'.reply) ∧
      (d.params.allocated = d'.params.allocated →
        (d.request .reference path).map MatchResult.reply =
          (d'.request .reference path).map MatchResult.reply) := by
  obtain ⟨hsome, hsame⟩ := (order_independence .reference plainOptions
    (.swap (ascii "/a/:x", ⟨0, 2⟩) (ascii "/*", ⟨0, 1⟩) []) .empty .empty (by decide +kernel)
    (by decide +kernel)).2 (by decide +kernel) .empty .empty rfl
  have hc : (wrouterCompile .reference (some (wrouterAddRoutes (.fresh plainOptions) .empty
    [(ascii "/*", ⟨0, 1⟩), (ascii "/a/:x", ⟨0, 2⟩)]).2.1) .empty).1.isSome := by decide +kernel
  obtain ⟨router, hr⟩ := Option.isSome_iff_exists.mp hc
  obtain ⟨router', hr'⟩ := Option.isSome_iff_exists.mp (hsome.mp hc)
  obtain ⟨hsize, -, -, hresolve⟩ := hsame router hr router' hr'
  exact ⟨router, router', hr, hr', hsize, hresolve⟩

end Wrouter
