import Wrouter.Erlang

/-!
# What the Erlang binding replies

With memory left, `new_nif` and `resolve_nif` reply what the list of pairs says: a term is
found through the number of its pair, which is the context of its route.
-/
namespace Wrouter

open CLib Runs

variable {τ : Type}

/-! ## The replies to a list -/

def Element.term : Element τ → Option τ
  | .pair _ term => some term
  | .other => none

/-- The elements one by one; `k` pairs went before. A pair that is refused with its edge lost takes
the freeing of the builder to a null pointer. -/
def newSpec : List (Element τ) → Nat → RouteSet → Except Fault (NewReply (List Entry))
  | [], _, t =>
    .ok (if Fits16 t.accepted then .ok t.accepted else .error (wrouterStrerror .outOfRange))
  | .other :: _, _, _ => .ok .badarg
  | .pair none _ :: _, _, _ => .ok .badarg
  | .pair (some pattern) _ :: rest, k, t =>
    let e := callEntry .colon (some pattern, ⟨0, k + 1⟩)
    let r := t.add e
    if r.1 = .ok then newSpec rest (k + 1) r.2
    else if t.losesEdge e then .error .nullPointer
    else .ok (.error (wrouterStrerror r.1))

def paramMap (ps : List Param) (map : List (Bytes × Bytes)) : List (Bytes × Bytes) :=
  ps.foldl (fun map p => mapPut map p.nameText p.valueText) map

def resolveSpec (es : List Entry) (terms : List τ) : Option Bytes → Except Fault (ResolveReply τ)
  | none => .ok .badarg
  | some path =>
    let walk := answer es path
    if maxSlots es < walk.recorded.length then .error .undefined
    else match walk.route with
      | none => .ok .notFound
      | some route =>
        match terms[route.ctx - 1]? with
        | none => .error .deadContext
        | some term => .ok (.ok term (paramMap walk.params []))

/-! ## Building -/

structure Lists (b : HeapBuilder) (n : Nif τ) (t : RouteSet) : Prop where
  owns : Owns b n
  represents : Represents .colon (b.erase, n.world) t
  built : ∃ routes, Built nifOptions routes b.erase ∧ entries .colon routes = t.accepted
  open_ : t.refused = false
  named : ∀ e ∈ t.accepted, e.2.ctx ≠ 0
  granted : n.grants = []

structure Offers (L : Libc) (router : Router) (n : Nif τ) (es : List Entry) (terms : List τ) :
    Prop where
  routes : RouterOf L nifOptions router es
  backed : Backed router.holders n
  named : ∀ e ∈ es, e.2.ctx ≠ 0
  terms : n.contexts.map RouteContext.term = terms
  granted : n.grants = []
  noFail : n.world.NoFail

def Tells (L : Libc) (terms : List τ) (reply : NewReply Router) (n : Nif τ) :
    NewReply (List Entry) → Prop
  | .badarg => reply = .badarg
  | .error reason => reply = .error reason
  | .ok es => ∃ router, reply = .ok router ∧ Offers L router n es terms

def Told (L : Libc) (terms : List τ) (spec : Except Fault (NewReply (List Entry))) :
    Except Fault (NewReply Router × Nif τ) → Prop
  | .error f => spec = .error f
  | .ok (reply, n) => ∃ expected, spec = .ok expected ∧ Tells L terms reply n expected

theorem alloc_granted {n : Nif τ} (h : n.grants = []) : n.alloc = (true, n) := by
  rw [Nif.alloc, h]

theorem makeError_granted {ρ : Type} (badarg : ρ) (error : String → ρ) (reason : String) {n : Nif τ}
    (h : n.grants = []) : makeError badarg error reason n = (error reason, n) := by
  rw [makeError, alloc_granted h]

theorem map_grants {r : Except Fault (List (RouteContext τ))} {f : List (RouteContext τ) → Nif τ}
    {n : Nif τ} (h : r.map f = .ok n) {grants : List Bool}
    (hf : ∀ contexts, (f contexts).grants = grants) : n.grants = grants := by
  cases r with
  | error fault => simp [Except.map] at h
  | ok contexts =>
    obtain rfl := Except.ok.inj h
    exact hf contexts

theorem listen_grants {n n' : Nif τ} {w : World} (h : n.listen w = .ok n') :
    n'.grants = n.grants := by
  unfold Nif.listen at h
  exact map_grants h fun _ => rfl

theorem routeContextFree_grants {ctx : Nat} {n n' : Nif τ} (h : routeContextFree ctx n = .ok n') :
    n'.grants = n.grants := by
  unfold routeContextFree at h
  exact map_grants h fun _ => rfl

theorem routeContextCreate_granted {n : Nif τ} (h : n.grants = []) (term : τ) :
    routeContextCreate term n =
      (some (n.contexts.length + 1), { n with contexts := n.contexts ++ [⟨term, 0, false⟩] }) := by
  rw [routeContextCreate, alloc_granted h]
  dsimp only
  rw [alloc_granted h]

/-- The builder is freed, or it has lost an edge. -/
theorem Owns.told {b : HeapBuilder} {n : Nif τ} (h : Owns b n)
    (reply : Nif τ → NewReply Router × Nif τ) :
    (b.erase.root.whole = true ∧
        ∃ n', n'.grants = n.grants ∧ Wrouter.giveUp reply b n = .ok (reply n')) ∨
      b.erase.root.whole ≠ true ∧ Wrouter.giveUp reply b n = .error .nullPointer := by
  have hiff := heapBuilderFree_iff h.release n.world
  unfold Wrouter.giveUp
  cases hfree : heapBuilderFree b n.world with
  | none =>
    rw [hfree] at hiff
    exact Or.inr ⟨fun hwhole => by simpa using hiff.mpr hwhole, rfl⟩
  | some w =>
    obtain ⟨n', hlisten, -⟩ :=
      h.backed.dropped [] rfl (h.free_calls hfree)
    refine Or.inl ⟨hiff.mp ⟨w, hfree⟩, n', listen_grants hlisten, ?_⟩
    dsimp only
    rw [hlisten]
    rfl

section Lists

variable {L : Libc} {b : HeapBuilder} {n : Nif τ} {t : RouteSet} (h : Lists b n t)

include h

/-- As long as the pairs are taken no edge is lost. -/
theorem Lists.whole : b.erase.root.whole = true :=
  (h.represents.holds h.open_).sound.whole

/-- A list that breaks off here. -/
theorem Lists.giveUp {terms : List τ} :
    Told L terms (.ok .badarg) (Wrouter.giveUp (.badarg, ·) b n) := by
  obtain ⟨-, n', -, hgive⟩ | ⟨hlost, -⟩ := h.owns.told (.badarg, ·)
  · rw [hgive]
    exact ⟨.badarg, rfl, rfl⟩
  · exact absurd h.whole hlost

/-- The end of the list: whether there is a router is a matter of size. -/
theorem Lists.finish (k : Nat) : Told L (n.contexts.map RouteContext.term)
    (newSpec ([] : List (Element τ)) k t) (newRouter L b n) := by
  obtain ⟨v, hv, hcompile⟩ :=
    wrouterCompile_noFail L (h.represents.holds h.open_) h.represents.noFail
  have honce : ¬ freesTwice n.world (wrouterCompile L (some b.erase) n.world).2.2 = true := by
    rw [wrouterCompile_freesTwice, FreesAgain, FreesOnce, refused_noFail h.represents.noFail]
    simp
  obtain ⟨w, hfree⟩ := (heapBuilderFree_iff h.owns.release v).mpr h.whole
  rw [newRouter, if_neg honce]
  obtain ⟨hfit, router, hcompile⟩ | ⟨hfit, hcompile⟩ := hcompile
  · have hconsume : wrouterConsume L (some b) n.world = some (some router, .ok, w) := by
      simp only [wrouterConsume, hcompile, hfree, Option.map_some]
    obtain ⟨hfail, -⟩ | ⟨router', hsome, -, -, hbacked, hlisten⟩ := h.owns.consume L hconsume
    · exact absurd rfl hfail
    obtain rfl := Option.some.inj hsome
    have hgrant : Nif.alloc { n with world := w } = (true, _) := alloc_granted h.granted
    simp only [hconsume, hlisten, hgrant, bind, Except.bind]
    rw [if_neg (by simp)]
    obtain ⟨routes, hb, hes⟩ := h.built
    rw [newSpec, if_pos hfit]
    exact ⟨_, rfl, _, rfl, ⟨⟨_, routes, hb, hes, wrouterCompile_ok (congrArg Prod.fst hcompile)⟩,
      hbacked.congr rfl, h.named, rfl, h.granted,
      noFail_of_suffix hv (heapBuilderFree_answers hfree)⟩⟩
  · have hconsume : wrouterConsume L (some b) n.world = some (none, .outOfRange, w) := by
      simp only [wrouterConsume, hcompile, hfree, Option.map_some]
    obtain ⟨-, n', hlisten, -⟩ | ⟨router', hsome, -⟩ := h.owns.consume L hconsume
    · have hgrants : n'.grants = [] := (listen_grants hlisten).trans h.granted
      simp only [hconsume, hlisten, bind, Except.bind]
      rw [if_pos (by simp), newSpec, if_neg hfit, makeError_granted _ _ _ hgrants]
      exact ⟨_, rfl, rfl⟩
    · simp at hsome

/-- One more pair. -/
theorem Lists.add (pattern : Bytes) (term : τ) :
    let route : Route := ⟨0, n.contexts.length + 1⟩
    let r := heapAddRoute b (some pattern) route n.world
    let v := t.add (callEntry .colon (some pattern, route))
    r.1 = v.1 ∧
      (r.1 = .ok → Lists r.2.1
        { n with contexts := n.contexts ++ [⟨term, 1, false⟩], world := r.2.2 } v.2) ∧
      r.2.1.erase.root.whole = !t.losesEdge (callEntry .colon (some pattern, route)) := by
  intro route r v
  have hstep := h.represents.step (some pattern, route)
  have hcall : addStep (some pattern, route) (b.erase, n.world) = (r.1, r.2.1.erase, r.2.2) :=
    heapAddRoute_erase b (some pattern) route n.world
  rw [hcall] at hstep
  refine ⟨hstep.1, fun hok => ?_, ?_⟩
  swap
  · have hwhole := (wrouterAddRoute_effect h.owns.usable (some pattern) route n.world).whole
    have hlost := h.represents.toStands.losesEdge (some pattern, route)
      (h.represents.memory (some pattern, route))
    rw [heapAddRoute_erase, h.whole, Bool.true_and, hlost] at hwhole
    exact hwhole
  have hok' : v.1 = .ok := hstep.1.symm.trans hok
  obtain ⟨routes, hb, hes⟩ := h.built
  have hrepresents : Represents nifOptions.paramSyntax (b.erase, n.world) t := h.represents
  have hgrows := hrepresents.grows hb hes (some pattern, route) hok'
  rw [hcall] at hgrows
  have haccepted : v.2 = _ := add_accepted hok'
  obtain ⟨-, n', -, howns, rfl⟩ | ⟨hfail, -⟩ := h.owns.add (some pattern)
    { n with contexts := n.contexts ++ [⟨term, 0, false⟩] } rfl
  · refine ⟨howns.congr rfl, hstep.2, hgrows, by rw [haccepted], fun e he => ?_, h.granted⟩
    rw [haccepted] at he
    rcases List.mem_append.mp he with he | he
    · exact h.named e he
    · rw [List.mem_singleton.mp he]
      exact Nat.succ_ne_zero _
  · exact absurd hok hfail

end Lists

/-- The loop, by induction on the list. -/
theorem newRoutes_told {L : Libc} (list : List (Element τ)) {b : HeapBuilder} {n : Nif τ}
    {t : RouteSet} (h : Lists b n t) :
    Told L (n.contexts.map RouteContext.term ++ list.filterMap Element.term)
      (newSpec list n.contexts.length t) (newRoutes L list b n) := by
  induction list generalizing b n t with
  | nil =>
    rw [List.filterMap_nil, List.append_nil]
    exact h.finish _
  | cons element rest ih =>
    match element with
    | .other => exact h.giveUp
    | .pair none _ => exact h.giveUp
    | .pair (some pattern) term =>
      rw [newRoutes, alloc_granted h.granted]
      dsimp only
      rw [routeContextCreate_granted h.granted]
      obtain ⟨hcode, hnext, hwhole⟩ := h.add pattern term
      rw [newSpec, ← hcode]
      obtain ⟨hok, n₁, hlisten, -, rfl⟩ | ⟨hfail, n₁, n₂, hlisten, hfree, howns⟩ :=
        h.owns.add (some pattern) { n with contexts := n.contexts ++ [⟨term, 0, false⟩] } rfl
      · simp only [hlisten, bind, Except.bind]
        rw [if_pos hok, if_pos hok]
        have htold := ih (hnext hok)
        simpa [Element.term] using htold
      · have hgranted : n₂.grants = [] :=
          (routeContextFree_grants hfree).trans ((listen_grants hlisten).trans h.granted)
        simp only [hlisten, bind, Except.bind]
        rw [if_neg hfail, if_neg hfail, hfree]
        dsimp only at howns ⊢
        obtain ⟨hintact, n', hgrants, hgive⟩ | ⟨hlost, hgive⟩ := howns.told (makeError .badarg
          .error (wrouterStrerror
            (heapAddRoute b (some pattern) ⟨0, n.contexts.length + 1⟩ n.world).1))
        · rw [hgive, makeError_granted _ _ _ (hgrants.trans hgranted)]
          rw [hintact] at hwhole
          rw [if_neg (by simpa using hwhole.symm)]
          exact ⟨_, rfl, rfl⟩
        · rw [hgive]
          refine if_pos ?_
          rw [hwhole] at hlost
          simpa using hlost

/-- The first builder has taken nothing yet. -/
theorem lists_start {w w' : World} (hw : w.NoFail) {b : HeapBuilder}
    (h : heapBuilderCreate nifOptions w = some (some b, w')) :
    Lists b (⟨[], [], w'⟩ : Nif τ) .empty := by
  have hcreate := heapBuilderCreate_erase h
  exact ⟨(heapBuilderCreate_owns [] h).2, represents_create hw hcreate, ⟨[], .create hcreate, rfl⟩, rfl,
    by simp [RouteSet.empty], rfl⟩

theorem heapBuilderCreate_noFail (options : Options) {w : World} (hw : w.NoFail) :
    ∃ b w', heapBuilderCreate options w = some (some b, w') := by
  obtain ⟨block, w₁, hfirst, hw₁⟩ := malloc_some hw 1
  have hw₁' : (w₁.retain options.retain options.fallbackCtx).NoFail := by
    rwa [World.NoFail, retain_answers]
  obtain ⟨root, w₂, hsecond, -⟩ := malloc_some hw₁' 1
  simp only [heapBuilderCreate, hfirst, hsecond]
  exact ⟨_, _, rfl⟩

/-- The whole of `new_nif`, from the empty builder. -/
theorem newNif_told (L : Libc) (list : List (Element τ)) {w : World} (hw : w.NoFail) :
    Told L (list.filterMap Element.term) (newSpec list 0 .empty) (newNif L list ⟨[], [], w⟩) := by
  obtain ⟨b, w', hcreate⟩ := heapBuilderCreate_noFail nifOptions hw
  obtain ⟨hlisten, -⟩ := heapBuilderCreate_owns (τ := τ) [] hcreate
  unfold newNif
  simp only [hcreate, hlisten, bind, Except.bind]
  exact newRoutes_told list (lists_start hw hcreate)

/-! ## Requests -/

theorem makeParams_granted (ps : List Param) (map : List (Bytes × Bytes)) {n : Nif τ}
    (h : n.grants = []) : makeParams ps map n = (some (paramMap ps map), n) := by
  induction ps generalizing map with
  | nil => rfl
  | cons p ps ih =>
    rw [makeParams, alloc_granted h]
    dsimp only
    rw [alloc_granted h]
    exact ih _

theorem heapDispatcherCreate_noFail (router : Router) {w : World} (hw : w.NoFail) :
    ∃ d w', heapDispatcherCreate router w = (some d, w') ∧ w'.NoFail ∧ d.data.router = router ∧
      d.data.params.allocated = router.maxParams := by
  obtain ⟨data, w', hw', hcreate, hrouter, hallocated, -⟩ := wrouterDispatcherCreate_noFail router hw
  rw [heapDispatcherCreate_erase] at hcreate
  obtain ⟨hdata, rfl⟩ := Prod.mk.inj hcreate
  obtain ⟨d, hd, rfl⟩ := Option.map_eq_some_iff.mp hdata
  exact ⟨d, _, Prod.ext hd rfl, hw', hrouter, hallocated⟩

/-- The route that answers is one of the set. -/
theorem answer_route {es : List Entry} {path : Bytes} {route : Route}
    (h : (answer es path).route = some route) : ∃ word, (word, route) ∈ es := by
  have hout := answer_outcome es path
  generalize answer es path = walk at h hout
  cases hout with
  | found hlen hmem => exact ⟨_, Option.some.inj h ▸ hmem⟩
  | fallback hlt hdeepest => exact ⟨_, Option.some.inj h ▸ hdeepest.mem⟩
  | missing => simp at h
  | lost => simp at h

theorem dispatcherFree_noFail {w : World} (hw : w.NoFail) (d : HeapDispatcher) :
    (wrouterDispatcherFree (some d) w).NoFail := by
  unfold World.NoFail wrouterDispatcherFree paramsFree
  dsimp only
  rwa [free_answers, free_answers]

/-- A match replies the term and the map of the parameters. -/
theorem resolved_live {n : Nif τ} {i : Nat} {term : τ} (hterm : n.contexts[i]? = some ⟨term, 1, false⟩)
    (hgrants : n.grants = []) (params : Params) :
    resolved (i + 1) params n = .ok (.ok term (paramMap params.list []), n) := by
  rw [resolved, Nat.add_sub_cancel, hterm]
  dsimp only
  rw [if_neg Bool.false_ne_true, makeParams_granted _ _ hgrants]
  rfl

/-- One request. -/
theorem Offers.resolve {L : Libc} {router : Router} {n : Nif τ} {es : List Entry} {terms : List τ}
    (h : Offers L router n es terms) (path : Option Bytes) :
    (∃ f, resolveSpec es terms path = .error f ∧ resolveNif L router path n = .error f) ∨
      ∃ reply n', resolveSpec es terms path = .ok reply ∧
        resolveNif L router path n = .ok (reply, n') ∧ Offers L router n' es terms := by
  cases path with
  | none => exact Or.inr ⟨.badarg, n, rfl, rfl, h⟩
  | some path =>
    obtain ⟨d, w, hcreate, hw, hrouter, hallocated⟩ := heapDispatcherCreate_noFail router h.noFail
    have hroutes : RouterOf L nifOptions d.data.router es := hrouter ▸ h.routes
    obtain ⟨hover, r, hr, hroute, hparams, -, -⟩ :=
      hroutes.request (hallocated.trans (congrArg Router.maxParams hrouter).symm) path
    rw [resolveSpec, resolveNif, alloc_granted h.granted]
    dsimp only
    rw [hcreate]
    dsimp only
    by_cases hlong : maxSlots es < (answer es path).recorded.length
    · rw [if_pos hlong, wrouterNresolve, Dispatcher.request, if_pos (hover.mpr hlong)]
      exact Or.inl ⟨.undefined, rfl, rfl⟩
    have hresolve : wrouterNresolve L d.data path =
        some (((answer es path).route.getD ⟨0, 0⟩).ctx, r.dispatcher) := by
      rw [wrouterNresolve, Dispatcher.request, if_neg (mt hover.mp hlong), hr, Option.map_some,
        hroute, hroutes.fallback]
      rfl
    rw [if_neg hlong, hresolve]
    dsimp only
    cases hanswer : (answer es path).route with
    | none =>
      refine Or.inr ⟨.notFound, _, rfl, if_pos rfl, ?_⟩
      exact { h with backed := h.backed.congr rfl, noFail := dispatcherFree_noFail hw _ }
    | some route =>
      obtain ⟨word, hmem⟩ := answer_route hanswer
      obtain ⟨i, hi⟩ : ∃ i, route.ctx = i + 1 := Nat.exists_eq_succ_of_ne_zero (h.named _ hmem)
      have hholds := wrouterNresolve_holders hresolve
      rw [hanswer, hrouter, Option.getD_some, hi] at hholds
      obtain ⟨term, hterm⟩ := h.backed.live i hholds
      have hread : terms[i]? = some term := by
        rw [← h.terms, List.getElem?_map, hterm]
        rfl
      have hresolved := resolved_live (n := { n with world := w }) hterm h.granted
        r.dispatcher.params
      rw [Option.getD_some, hi, if_neg (Nat.succ_ne_zero i), hresolved, hparams]
      dsimp only
      rw [hi, Nat.add_sub_cancel, hread]
      refine Or.inr ⟨_, _, rfl, rfl, ?_⟩
      exact { h with backed := h.backed.congr rfl, noFail := dispatcherFree_noFail hw _ }

/-- Request after request. -/
theorem Offers.resolveAll {L : Libc} {router : Router} {n : Nif τ} {es : List Entry} {terms : List τ}
    (h : Offers L router n es terms) (paths : List (Option Bytes)) :
    (Wrouter.resolveAll L router paths n).map Prod.fst = paths.mapM (resolveSpec es terms) := by
  induction paths generalizing n with
  | nil => rfl
  | cons path rest ih =>
    rw [Wrouter.resolveAll, List.mapM_cons]
    obtain ⟨f, hspec, hreply⟩ | ⟨reply, n₁, hspec, hreply, hnext⟩ := h.resolve path
    · rw [hspec, hreply]
      rfl
    · have hrest := ih hnext
      simp only [hspec, hreply, bind, Except.bind]
      rw [← hrest]
      cases Wrouter.resolveAll L router rest n₁ <;> rfl

/-! ## A router and its requests -/

def NewReply.map {ρ σ : Type} (f : ρ → σ) : NewReply ρ → NewReply σ
  | .badarg => .badarg
  | .error reason => .error reason
  | .ok router => .ok (f router)

theorem NewReply.map_map {ρ σ υ : Type} (f : ρ → σ) (g : σ → υ) (reply : NewReply ρ) :
    (reply.map f).map g = reply.map (g ∘ f) := by
  cases reply <;> rfl

theorem except_map_map {ε α β γ : Type} (f : α → β) (g : β → γ) (x : Except ε α) :
    (x.map f).map g = x.map (g ∘ f) := by
  cases x <;> rfl

/-- With memory left the list decides: what `new_nif` replies, and what the router replies to any
requests, by the answer of the patterns and the term at its number. -/
theorem list_decides_replies (L : Libc) (list : List (Element τ)) {w : World} (hw : w.NoFail) :
    ((newNif L list ⟨[], [], w⟩).map fun r =>
      r.1.map fun router paths => (resolveAll L router paths r.2).map Prod.fst) =
        (newSpec list 0 .empty).map fun reply =>
          reply.map fun es paths => paths.mapM (resolveSpec es (list.filterMap Element.term)) := by
  have htold := newNif_told L list hw
  generalize newNif L list ⟨[], [], w⟩ = r at htold ⊢
  rcases r with f | ⟨reply, n⟩
  · have hspec : newSpec list 0 .empty = .error f := htold
    rw [hspec]
    rfl
  obtain ⟨expected, hspec, htells⟩ := htold
  rw [hspec]
  refine congrArg Except.ok ?_
  dsimp only
  cases expected with
  | badarg =>
    obtain rfl : reply = .badarg := htells
    rfl
  | error reason =>
    obtain rfl : reply = .error reason := htells
    rfl
  | ok es =>
    obtain ⟨router, rfl, hoffers⟩ := htells
    refine congrArg NewReply.ok ?_
    funext paths
    exact hoffers.resolveAll paths

def routeList : List (Element Nat) :=
  [.pair (some (ascii "/users/:id")) 7, .pair (some (ascii "/files/*")) 8,
    .pair (some (ascii "/users/:id/:id")) 9]

/-- A map keeps the last value of a name that is used twice. -/
theorem list_decides_replies_users :
    ((newNif .reference routeList ⟨[], [], .empty⟩).map fun r => r.1.map fun router =>
      (resolveAll .reference router [some (ascii "/users/42"), some (ascii "/missing"), none,
        some (ascii "/files/a/b"), some (ascii "/users/1/2")] r.2).map Prod.fst) =
      .ok (.ok (.ok [.ok 7 [(ascii "id", ascii "42")], .notFound, .badarg,
        .ok 8 [(ascii "_", ascii "a/b")], .ok 9 [(ascii "id", ascii "2")]])) := by
  have hnoFail : World.empty.NoFail := by simp [World.NoFail, World.empty]
  have hreplies := congrArg (Except.map (NewReply.map fun replies => replies [some (ascii "/users/42"),
      some (ascii "/missing"), none, some (ascii "/files/a/b"), some (ascii "/users/1/2")]))
    (list_decides_replies .reference routeList hnoFail)
  rw [except_map_map, except_map_map] at hreplies
  simp only [Function.comp_def, NewReply.map_map] at hreplies
  refine hreplies.trans ?_
  decide +kernel

end Wrouter
