import Mathlib.Data.List.Find
import Wrouter.Capacity
import Wrouter.Lib.Derive
import Wrouter.Names
import Wrouter.Order
import Wrouter.RouteSet
import Wrouter.Snapshot

/-!
# The library as a service

A program that uses the library adds routes, compiles routers, gives them dispatchers and asks
those. What it is told can be computed from sets of routes alone: the answer to a request from
the patterns and the path, without tree, graph, symbols or buffers.
-/
namespace Wrouter

open CLib Runs Words

/-! ## The answer to a request -/

def answer (es : List Entry) (path : Bytes) : Walk :=
  let xs := requestTokens path
  let q := trailOf MatchesSegment es (parseRequest path).segments
  if q.length = xs.length then ⟨es.lookup (q ++ [requestEnd path]), captures q xs⟩
  else match deepestOf es wildcardEnd q q.length with
    | some (k, route) => ⟨some route, captures q xs ++ [wildcardCapture xs k]⟩
    | none => ⟨none, captures q xs⟩

/-- The answer from the patterns is the outcome of their trail. -/
theorem answer_outcome (es : List Entry) (path : Bytes) :
    Outcome (dictionary es) (requestTokens path) (requestEnd path)
      (trailOf MatchesSegment es (parseRequest path).segments) (answer es path) := by
  have htrail : IsTrail MatchesSegment (dictionary es) (parseRequest path).segments
    (trailOf MatchesSegment es (parseRequest path).segments) := trailOf_isTrail
  have hle := fits_length htrail.fit
  rw [← length_requestTokens] at hle
  unfold answer
  dsimp only
  generalize trailOf MatchesSegment es (parseRequest path).segments = q at hle
  split
  · rename_i hlen
    cases hroute : es.lookup (q ++ [requestEnd path]) with
    | some r => exact .found hlen (mem_of_lookup hroute)
    | none => exact .missing hlen (not_mem_of_lookup hroute)
  · rename_i hne
    have hlt := Nat.lt_of_le_of_ne hle hne
    split
    · rename_i k r hdeepest
      obtain ⟨hk, hmem, hlast⟩ := deepestOf_some (Nat.le_refl _) hdeepest
      exact .fallback hlt ⟨hk, hmem, hlast⟩
    · rename_i hnone
      exact .lost hlt (deepestOf_none hnone)

/-- The response of a compiled router is the answer of its patterns. -/
theorem Response.answer {es : List Entry} {path : Bytes} {r : MatchResult} {q : List Tok}
    {walk : Walk} (h : Response es path r q walk) (hc : Compatible es) :
    walk = Wrouter.answer es path := by
  have hout := answer_outcome es path
  rw [← trail_unique hc.deterministic h.trail trailOf_isTrail] at hout
  exact h.outcome.unique (fun _ _ _ => hc.functional) hout

/-! ## The calls of a program -/

structure HandlerCall where
  handler : Nat
  dispatchCtx : Nat
  routeCtx : Nat
  params : List Param
  deriving DecidableEq, Repr

/-- The call of the route's handler, or of the fallback's; none without a handler. -/
def handlerCall (route : Route) (dispatchCtx : Nat) (params : List Param) : Option HandlerCall :=
  if route.handler ≠ 0 then some ⟨route.handler, dispatchCtx, route.ctx, params⟩ else none

def wrouterNdispatch (L : Libc) (d : Dispatcher) (path : Bytes) (dispatchCtx : Nat) :
    Option (Option HandlerCall × Dispatcher) :=
  (d.request L path).map fun r =>
    (handlerCall (r.route.getD d.router.fallback) dispatchCtx r.dispatcher.params.list, r.dispatcher)

/-- The request is a terminated string. -/
def wrouterDispatch (L : Libc) (d : Dispatcher) (path : Bytes) (dispatchCtx : Nat) :
    Option (Option HandlerCall × Dispatcher) :=
  wrouterNdispatch L d (path.take (strlen path)) dispatchCtx

def stringAt (bytes : Bytes) (offset : Nat) : Bytes :=
  (bytes.drop offset).take (strlen (bytes.drop offset))

/-- The strings a snapshot shows, names with values. -/
def Snapshot.strings (s : Snapshot) : List (Bytes × Bytes) :=
  s.list.map fun q => (stringAt s.bytes q.name, stringAt s.bytes q.value)

inductive ApiCall where
  | addRoute (pattern : Option Bytes) (route : Route)
  | compile
  | routeCount (router : Nat)
  | dispatcherCreate (router : Nat)
  | dispatch (dispatcher : Nat) (path : Bytes) (dispatchCtx : Nat)
  | resolve (dispatcher : Nat) (path : Bytes)
  | iparam (dispatcher index : Nat)
  | param (dispatcher : Nat) (name : Bytes)
  | paramsCopy (dispatcher : Nat)
  deriving DecidableEq, Repr

inductive Reply where
  | code (e : WrouterError)
  | count (n : Nat)
  | created (done : Bool)
  | called (call : Option HandlerCall)
  | context (ctx : Nat)
  | param (p : Option (Option Bytes × Bytes))
  | copied (strings : Option (List (Bytes × Bytes)))
  | undefined
  deriving DecidableEq, Repr

/-- One builder, with what was made from it. Routers and dispatchers are known by their numbers.
A call with an unknown number, or one that leaves its buffer, breaks the program. -/
structure Service where
  builder : Builder
  routers : List Router
  dispatchers : List Dispatcher
  world : World
  broken : Bool

def Service.crash (s : Service) : Reply × Service := (.undefined, { s with broken := true })

/-- `wrouter_params`, then one of the functions that read. -/
def Service.read (s : Service) (dispatcher : Nat) (f : Params → Reply) : Reply × Service :=
  match s.dispatchers[dispatcher]? with
  | none => s.crash
  | some d => (f d.params, s)

def Service.request {α : Type} (s : Service) (dispatcher : Nat)
    (run : Dispatcher → Option (α × Dispatcher)) (reply : α → Reply) : Reply × Service :=
  match s.dispatchers[dispatcher]? with
  | none => s.crash
  | some d =>
    match run d with
    | none => s.crash
    | some (a, d) => (reply a, { s with dispatchers := s.dispatchers.set dispatcher d })

def Service.call (L : Libc) (s : Service) : ApiCall → Reply × Service
  | .addRoute pattern route =>
    let r := wrouterAddRoute s.builder pattern route s.world
    (.code r.1, { s with builder := r.2.1, world := r.2.2 })
  | .compile =>
    let r := wrouterCompile L (some s.builder) s.world
    (.code r.2.1, { s with routers := s.routers ++ r.1.toList, world := r.2.2 })
  | .routeCount i =>
    match s.routers[i]? with
    | none => s.crash
    | some router => (.count (wrouterRouteCount router), s)
  | .dispatcherCreate i =>
    match s.routers[i]? with
    | none => s.crash
    | some router =>
      let r := wrouterDispatcherCreate router s.world
      (.created r.1.isSome, { s with dispatchers := s.dispatchers ++ r.1.toList, world := r.2 })
  | .dispatch j path dispatchCtx => s.request j (wrouterDispatch L · path dispatchCtx) .called
  | .resolve j path => s.request j (wrouterResolve L · path) .context
  | .iparam j index =>
    s.read j fun p => .param ((wrouterIparam p index).map fun i => (p.slots i).read)
  | .param j name =>
    s.read j fun p => .param ((wrouterParam p (name.take (strlen name))).map fun i =>
      (p.slots i).read)
  | .paramsCopy j =>
    match s.dispatchers[j]? with
    | none => s.crash
    | some d =>
      match wrouterParamsCopy (some d.params) s.world with
      | none => s.crash
      | some (snapshot, w) => (.copied (snapshot.map Snapshot.strings), { s with world := w })

/-- Nothing is said of a program that is broken. -/
def serviceStep (L : Libc) (call : ApiCall) (s : Service) : Reply × Service :=
  if s.broken then (.undefined, s) else s.call L call

/-! ## The same from sets of routes -/

/-- What is left of a service when all structure is forgotten: the routes taken, the sets that
were compiled, and for each dispatcher its set and the parameters of its last request. -/
structure Registry where
  routes : RouteSet
  routers : List (List Entry)
  dispatchers : List (List Entry × List Param)
  broken : Bool

def Registry.empty : Registry := ⟨.empty, [], [], false⟩

def Registry.crash (t : Registry) : Reply × Registry := (.undefined, { t with broken := true })

def Registry.read (t : Registry) (dispatcher : Nat) (f : List Param → Reply) : Reply × Registry :=
  match t.dispatchers[dispatcher]? with
  | none => t.crash
  | some (_, ps) => (f ps, t)

/-- A request is answered from the patterns. There are as many slots as one pattern needs. -/
def Registry.request (fallback : Route) (t : Registry) (dispatcher : Nat) (path : Bytes)
    (reply : Route → List Param → Reply) : Reply × Registry :=
  match t.dispatchers[dispatcher]? with
  | none => t.crash
  | some (es, _) =>
    let walk := answer es path
    if maxSlots es < walk.recorded.length then t.crash
    else (reply (walk.route.getD fallback) walk.params,
      { t with dispatchers := t.dispatchers.set dispatcher (es, walk.params) })

def Registry.call (options : Options) (t : Registry) : ApiCall → Reply × Registry
  | .addRoute pattern route =>
    let r := t.routes.add (callEntry options.paramSyntax (pattern, route))
    (.code r.1, { t with routes := r.2 })
  | .compile =>
    if t.routes.refused then (.code .builderCorrupted, t)
    else if Fits16 t.routes.accepted then
      (.code .ok, { t with routers := t.routers ++ [t.routes.accepted] })
    else (.code .outOfRange, t)
  | .routeCount i =>
    match t.routers[i]? with
    | none => t.crash
    | some es => (.count es.length, t)
  | .dispatcherCreate i =>
    match t.routers[i]? with
    | none => t.crash
    | some es => (.created true, { t with dispatchers := t.dispatchers ++ [(es, [])] })
  | .dispatch j path dispatchCtx =>
    t.request ⟨options.fallbackHandler, options.fallbackCtx⟩ j (path.take (strlen path))
      fun route ps => .called (handlerCall route dispatchCtx ps)
  | .resolve j path =>
    t.request ⟨options.fallbackHandler, options.fallbackCtx⟩ j (path.take (strlen path))
      fun route _ => .context route.ctx
  | .iparam j index => t.read j fun ps => .param (ps[index]?.map Param.read)
  | .param j name =>
    t.read j fun ps => .param ((ps.find? fun p => p.name = some (name.take (strlen name))).map
      Param.read)
  | .paramsCopy j =>
    t.read j fun ps => .copied (if totalSize ps ≤ 65535 then
      some (ps.map fun p => (p.nameText, p.valueText)) else none)

def registryStep (options : Options) (call : ApiCall) (t : Registry) : Reply × Registry :=
  if t.broken then (.undefined, t) else t.call options call

/-! ## Requests -/

structure Param.Proper (p : Param) : Prop where
  copyable : p.Copyable
  named : ∃ name, p.name = some name ∧ NulFree name

theorem mem_captures {q : List Tok} {xs : List Token} {p : Param} (h : p ∈ captures q xs) :
    ∃ name t, Tok.param name ∈ q ∧ t ∈ xs ∧ p = ⟨some name, t.ptr, t.length⟩ := by
  induction q generalizing xs with
  | nil => cases xs <;> simp [captures] at h
  | cons a q ih =>
    cases xs with
    | nil => cases a <;> simp [captures] at h
    | cons t xs =>
      have hrest (h : p ∈ captures q xs) : ∃ name t', Tok.param name ∈ a :: q ∧ t' ∈ t :: xs ∧
          p = ⟨some name, t'.ptr, t'.length⟩ := by
        obtain ⟨name, t', hname, ht', rfl⟩ := ih h
        exact ⟨name, t', List.mem_cons_of_mem a hname, List.mem_cons_of_mem t ht', rfl⟩
      cases a with
      | param name =>
        rcases List.mem_cons.mp h with rfl | h
        · exact ⟨name, t, List.mem_cons_self, List.mem_cons_self, rfl⟩
        · exact hrest h
      | _ => exact hrest h

/-- What is recorded for a request without terminators can be copied and searched. -/
theorem answer_proper {es : List Entry} (hes : ∀ e ∈ es, ∀ name, Tok.param name ∈ e.1 → NulFree name)
    {path : Bytes} (hpath : NulFree path) : ∀ p ∈ (answer es path).recorded, p.Proper := by
  have htrail : IsTrail MatchesSegment (dictionary es) (parseRequest path).segments
    (trailOf MatchesSegment es (parseRequest path).segments) := trailOf_isTrail
  have hout := answer_outcome es path
  generalize trailOf MatchesSegment es (parseRequest path).segments = q at htrail hout
  generalize answer es path = walk at hout ⊢
  have hcaptured : ∀ p ∈ captures q (requestTokens path), p.Proper := by
    intro p hp
    obtain ⟨name, t, hname, ht, rfl⟩ := mem_captures hp
    obtain ⟨-, ⟨value, hvalue, hlen, hfree⟩, -⟩ := requestTokens_literal ht
    have hproper : NulFree name := by
      rcases htrail.live with rfl | ⟨e, he, hpre⟩
      · simp at hname
      · exact hes e he name (hpre.subset hname)
    refine ⟨⟨rfl, by simp [hvalue], ?_, ?_⟩, name, rfl, hproper⟩
    · rwa [hvalue, Option.getD_some]
    · rwa [Param.valueText, hvalue, Option.getD_some]
  cases hout with
  | found => exact hcaptured
  | missing => exact hcaptured
  | lost => exact hcaptured
  | fallback hlt hd =>
    intro p hp
    rcases List.mem_append.mp hp with hp | hp
    · exact hcaptured p hp
    rw [length_requestTokens] at hlt
    rw [List.mem_singleton, wildcardCapture_eq (Nat.lt_of_le_of_lt hd.le hlt)] at hp
    subst hp
    refine ⟨⟨rfl, rfl, Nat.le_refl _, ?_⟩, _, rfl, ?_⟩
    · exact fun h => hpath (List.mem_of_mem_drop (List.mem_of_mem_take h))
    · unfold NulFree
      decide

theorem enter_params (s : MatchState) (word : Nat) (tok : Token) :
    (s.enter word tok).params = s.params := by
  unfold MatchState.enter
  split <;> split <;> split <;> rfl

def MatchStep.state : MatchStep → MatchState
  | .next s => s
  | .done _ s => s

theorem matchStep_base (L : Libc) (router : Router) (g : List Nat) (s : MatchState) :
    (matchStep L router g s).state.params.base = s.params.base := by
  have henter := enter_params { s with lx := (lexerNext s.lx).2 } (cell g s.cursor) (lexerNext s.lx).1
  unfold matchStep
  dsimp only
  generalize MatchState.enter _ _ _ = s' at henter
  have hbase : s'.params.base = s.params.base := congrArg Params.base henter
  split
  · split
    · exact hbase
    split
    · exact hbase
    split <;> exact hbase
  · split <;> exact hbase
  · split <;> exact hbase
  · exact hbase

/-- Requests move no buffer. -/
theorem matchLoop_base {L : Libc} {router : Router} {g : List Nat} {fuel : Nat} {s s' : MatchState}
    {route : Option Route} (h : matchLoop L router g fuel s = some (route, s')) :
    s'.params.base = s.params.base := by
  induction fuel generalizing s with
  | zero => simp [matchLoop] at h
  | succ fuel ih =>
    have hstep := matchStep_base L router g s
    rw [matchLoop] at h
    cases hs : matchStep L router g s with
    | done route' s₁ =>
      rw [hs] at h hstep
      obtain ⟨-, rfl⟩ := Prod.mk.inj (Option.some.inj h)
      exact hstep
    | next s₁ =>
      rw [hs] at h hstep
      exact (ih h).trans hstep

/-- A request keeps the buffer. -/
theorem resolveRequest_base {L : Libc} {d : Dispatcher} {path : Bytes} {r : MatchResult}
    (h : resolveRequest L d path = some r) : r.dispatcher.params.base = d.params.base := by
  unfold resolveRequest routeMatch at h
  dsimp only at h
  split at h
  · obtain rfl := Option.some.inj h
    rfl
  · obtain ⟨⟨route, m⟩, hm, rfl⟩ := Option.map_eq_some_iff.mp h
    exact matchLoop_base hm

def RouterOf (L : Libc) (options : Options) (router : Router) (es : List Entry) : Prop :=
  ∃ b routes, Built options routes b ∧ entries options.paramSyntax routes = es ∧
    CompiledFrom L b router

theorem Built.fallback {options : Options} {routes : List (Bytes × Route)} {b : Builder}
    (h : Built options routes b) : b.fallback = ⟨options.fallbackHandler, options.fallbackCtx⟩ := by
  induction h with
  | create hcreate =>
    obtain ⟨rfl, -⟩ := wrouterBuilderCreate_fresh hcreate
    rfl
  | @add routes b b' pattern route w w' hb hadd ih =>
    have heffect := wrouterAddRoute_effect (fun _ => ⟨_, hb.holds.1⟩) (some pattern) route w
    rw [hadd] at heffect
    exact heffect.fallback.trans ih

section RouterOf

variable {L : Libc} {options : Options} {router : Router} {es : List Entry}
  (h : RouterOf L options router es)

include h

theorem RouterOf.compatible : Compatible es := by
  obtain ⟨b, routes, hb, rfl, -⟩ := h
  exact hb.isCompatible

theorem RouterOf.proper : ∀ e ∈ es, ∀ name, Tok.param name ∈ e.1 → NulFree name := by
  obtain ⟨b, routes, -, rfl, -⟩ := h
  intro e he name hname
  obtain ⟨r, -, rfl⟩ := List.mem_map.mp he
  exact (patternWord_param hname).2

theorem RouterOf.fallback : router.fallback = ⟨options.fallbackHandler, options.fallbackCtx⟩ := by
  obtain ⟨b, routes, hb, -, hc⟩ := h
  exact hc.fallback.trans hb.fallback

theorem RouterOf.routeCount : wrouterRouteCount router = es.length := by
  obtain ⟨b, routes, hb, rfl, hc⟩ := h
  rw [wrouterRouteCount, hc.numRoutes, graphStats_zero hb.holds.1.sound,
    hb.holds.1.routes.length_eq]

theorem RouterOf.maxParams : router.maxParams = maxSlots es := by
  obtain ⟨b, routes, hb, rfl, hc⟩ := h
  rw [hc.maxParams, graphStats_zero hb.holds.1.sound]
  exact maxSlots_congr (fun e => hb.holds.1.routes.mem_iff)

end RouterOf

structure DispatcherOf (L : Libc) (options : Options) (d : Dispatcher)
    (e : List Entry × List Param) : Prop where
  router : RouterOf L options d.router e.1
  allocated : d.params.allocated = d.router.maxParams
  base : d.router.maxParams ≠ 0 → d.params.base.isSome
  params : d.params.list = e.2
  within : e.2.length ≤ d.router.maxParams
  proper : ∀ p ∈ e.2, p.Proper

/-- A request to a dispatcher of the router: past the buffer, or answered from the set. -/
theorem RouterOf.request {L : Libc} {options : Options} {d : Dispatcher} {es : List Entry}
    (h : RouterOf L options d.router es) (hallocated : d.params.allocated = d.router.maxParams)
    (path : Bytes) :
    (d.overruns L path ↔ maxSlots es < (answer es path).recorded.length) ∧
    ∃ r, resolveRequest L d path = some r ∧ r.route = (answer es path).route ∧
      r.dispatcher.params.list = (answer es path).params ∧ r.dispatcher.router = d.router ∧
      r.dispatcher.params.allocated = d.params.allocated := by
  have hmax := h.maxParams
  have hcompatible := h.compatible
  obtain ⟨b, routes, hb, rfl, hc⟩ := h
  obtain ⟨r, hr, ha⟩ := resolveRequest_answers hb.holds.1 hc path
  obtain ⟨r', q, walk, hr', hresp⟩ := answers_response hb.holds.1 hc path
  obtain rfl : r = r' := Option.some.inj (hr.symm.trans hr')
  obtain rfl := hresp.answer hcompatible
  refine ⟨?_, r, hr, hresp.route, hresp.params, ha.router, ha.allocated⟩
  rw [Dispatcher.overruns, hr, Option.any_some, List.any_eq_true, hresp.touched, hallocated, hmax]
  constructor
  · rintro ⟨slot, hslot, hle⟩
    exact Nat.lt_of_le_of_lt (of_decide_eq_true hle) (List.mem_range.mp hslot)
  · exact fun hlt => ⟨_, List.mem_range.mpr hlt, decide_eq_true (Nat.le_refl _)⟩

/-- A request without terminators leaves a dispatcher for the same set. -/
theorem DispatcherOf.request {L : Libc} {options : Options} {d : Dispatcher}
    {e : List Entry × List Param} (h : DispatcherOf L options d e) {path : Bytes}
    (hpath : NulFree path) :
    (d.overruns L path ↔ maxSlots e.1 < (answer e.1 path).recorded.length) ∧
    ∃ r, resolveRequest L d path = some r ∧ r.route = (answer e.1 path).route ∧
      r.dispatcher.params.list = (answer e.1 path).params ∧
      (¬ d.overruns L path → DispatcherOf L options r.dispatcher (e.1, (answer e.1 path).params)) := by
  obtain ⟨es, ps⟩ := e
  have hrouter : RouterOf L options d.router es := h.router
  obtain ⟨hover, r, hr, hroute, hparams, hsame, hallocated⟩ := hrouter.request h.allocated path
  refine ⟨hover, r, hr, hroute, hparams, fun hin => ?_⟩
  have hlen : (answer es path).params.length ≤ (answer es path).recorded.length := by
    unfold Walk.params
    split
    · exact Nat.le_refl _
    · exact Nat.zero_le _
  refine ⟨hsame ▸ hrouter, ?_, ?_, hparams, ?_, ?_⟩
  · rw [hallocated, hsame]
    exact h.allocated
  · rw [hsame, resolveRequest_base hr]
    exact h.base
  · rw [hsame, hrouter.maxParams]
    exact hlen.trans (Nat.not_lt.mp (mt hover.mpr hin))
  · intro p hp
    unfold Walk.params at hp
    split at hp
    · exact answer_proper hrouter.proper hpath p hp
    · simp at hp

/-! ## Worlds with memory left -/

theorem wrouterFree_answers (r : Router) (w : World) : (wrouterFree (some r) w).answers = w.answers := by
  have hfold (l : List Route) (w : World) :
      (l.foldl (fun w route => w.release r.release route.ctx) w).answers = w.answers := by
    induction l generalizing w with
    | nil => rfl
    | cons route l ih => rw [List.foldl_cons, ih, release_answers]
  unfold wrouterFree symbolsFree terminalsFree
  dsimp only
  simp only [free_answers, hfold, release_answers]

theorem wrouterCompile_suffix (L : Libc) {b : Builder} {es : List Entry} (hb : b.Holds es)
    (w : World) : (wrouterCompile L (some b) w).2.2.answers <:+ w.answers := by
  unfold wrouterCompile
  dsimp only
  rw [hb.intact, if_neg Bool.false_ne_true]
  split
  · rename_i hm
    exact (quiet_of_malloc hm).answers
  rename_i block w₁ hm
  obtain ⟨-, -, hretains, -⟩ := compileRouter_retains (L := L) hb
    ⟨block, none, .zero, .zero, .zero, b.fallback, 0, 0, 0, b.retain, b.release⟩
    (w₁.retain b.retain b.fallback.ctx)
  have hsuffix := hretains.answers
  rw [retain_answers] at hsuffix
  split
  · rw [wrouterFree_answers]
    exact hsuffix.trans (quiet_of_malloc hm).answers
  · exact hsuffix.trans (quiet_of_malloc hm).answers

theorem refused_noFail {plan : List Allocation} {answers : List (Option Nat)}
    (h : none ∉ answers) : refused plan answers = none := by
  induction plan generalizing answers with
  | nil => cases answers <;> rfl
  | cons a plan ih =>
    rw [refused_cons, if_neg fun hfirst => h (List.mem_of_getElem? hfirst)]
    exact ih fun hmem => h (List.mem_of_mem_tail hmem)

/-- With memory left a compilation is a matter of size. -/
theorem wrouterCompile_noFail (L : Libc) {b : Builder} {es : List Entry} (hb : b.Holds es)
    {w : World} (hw : w.NoFail) : ∃ w', w'.NoFail ∧
      ((Fits16 es ∧ ∃ router, wrouterCompile L (some b) w = (some router, .ok, w')) ∨
        ¬ Fits16 es ∧ wrouterCompile L (some b) w = (none, .outOfRange, w')) := by
  obtain ⟨hsome, hcode⟩ := compile_ends L hb w
  have hnoFail := noFail_of_suffix hw (wrouterCompile_suffix L hb w)
  rw [refused_noFail hw] at hsome hcode
  rcases hr : wrouterCompile L (some b) w with ⟨router, e, w'⟩
  rw [hr] at hsome hcode hnoFail
  dsimp only at hsome hcode hnoFail
  rw [if_neg (by simp)] at hcode
  refine ⟨w', hnoFail, ?_⟩
  by_cases hfit : Fits16 es
  · rw [if_neg (not_not.mpr hfit), if_pos rfl] at hcode
    obtain ⟨router, rfl⟩ := Option.isSome_iff_exists.mp (hsome.mpr ⟨hfit, rfl⟩)
    exact Or.inl ⟨hfit, router, by rw [hcode]⟩
  · rw [if_pos hfit] at hcode
    obtain rfl : router = none := Option.not_isSome_iff_eq_none.mp fun h => hfit (hsome.mp h).1
    exact Or.inr ⟨hfit, by rw [hcode]⟩

theorem wrouterDispatcherCreate_noFail (router : Router) {w : World} (hw : w.NoFail) :
    ∃ d w', w'.NoFail ∧ wrouterDispatcherCreate router w = (some d, w') ∧ d.router = router ∧
      d.params.allocated = router.maxParams ∧ (router.maxParams ≠ 0 → d.params.base.isSome) ∧
      d.params.list = [] := by
  obtain ⟨b, w₁, hb, hw₁⟩ := malloc_some hw 1
  obtain ⟨base, w₂, hbase, hw₂⟩ := malloc_some hw₁ (router.maxParams * 24)
  unfold wrouterDispatcherCreate paramsAlloc
  rw [hb]
  dsimp only
  rw [hbase]
  split
  · exact ⟨_, w₂, hw₂, rfl, rfl, rfl, fun _ => rfl, rfl⟩
  · rename_i hzero
    exact ⟨_, w₁, hw₁, rfl, rfl, (not_not.mp hzero).symm, fun h => absurd h hzero, rfl⟩

theorem stringAt_eq {bytes s : Bytes} {offset : Nat} (h : StringAt bytes offset s) :
    stringAt bytes offset = s := by
  obtain ⟨hfree, rest, hrest⟩ := h
  rw [List.append_assoc, List.singleton_append] at hrest
  have hlen : strlen (s ++ 0 :: rest) = s.length := by
    clear hrest
    induction s with
    | nil => rfl
    | cons b s ih =>
      obtain ⟨hb, hs⟩ := (nulFree_cons b s).mp hfree
      rw [List.cons_append, strlen, if_neg hb, ih hs, List.length_cons]
  rw [stringAt, ← hrest, hlen, List.take_left]

/-- With memory left a copy shows the strings that were recorded, if they fit. -/
theorem wrouterParamsCopy_noFail {params : Params} {w : World} (hw : w.NoFail)
    (hbase : params.count ≠ 0 → params.base.isSome) (hp : ∀ p ∈ params.list, p.Copyable) :
    ∃ snapshot w', w'.NoFail ∧ wrouterParamsCopy (some params) w = some (snapshot, w') ∧
      snapshot.map Snapshot.strings = if totalSize params.list ≤ 65535 then
        some (params.list.map fun p => (p.nameText, p.valueText)) else none := by
  have htotal := regionSize_eq hp (Nat.zero_le 65535)
  rw [Nat.zero_add] at htotal
  have hlen : params.list.length = params.count := params_list_length params
  obtain ⟨b, w₁, hb, hw₁⟩ := malloc_some hw 24
  rw [wrouterParamsCopy, hb]
  dsimp only
  by_cases hzero : params.count = 0
  · have hnil : params.list = [] := List.length_eq_zero_iff.mp (hlen.trans hzero)
    rw [if_pos hzero, hnil]
    exact ⟨_, w₁, hw₁, rfl, rfl⟩
  rw [if_neg hzero, if_neg (Option.isSome_iff_ne_none.mp (hbase hzero)), htotal]
  by_cases hfit : totalSize params.list ≤ 65535
  · obtain ⟨r, w₂, hr, hw₂⟩ := malloc_some hw₁ (totalSize params.list)
    obtain ⟨base, w₃, hbase', hw₃⟩ := malloc_some hw₂ (16 * params.count)
    have hcopy := copyParams_eq hp []
    simp only [List.nil_append, List.length_nil, Nat.zero_add] at hcopy
    rw [if_pos hfit, if_pos hfit]
    simp only [hr, paramsNtAlloc, hbase', hcopy]
    refine ⟨_, w₃, hw₃, rfl, ?_⟩
    have hoffsets := length_offsets params.list 0
    simp only [Option.map_some, Option.some.injEq, Snapshot.strings, Snapshot.list, Snapshot.bytes,
      Option.getD_some]
    refine List.ext_getElem (by simp [hoffsets]) fun i hi hi' => ?_
    rw [List.length_map] at hi hi'
    have hstrings := stringAt_offsets hp [] (List.getElem?_eq_getElem hi')
      (List.getElem?_eq_getElem (l := offsets params.list 0) hi)
    rw [List.nil_append] at hstrings
    rw [List.getElem_map, List.getElem_map, stringAt_eq hstrings.1, stringAt_eq hstrings.2]
  · rw [if_neg hfit, if_neg hfit]
    refine ⟨none, _, ?_, rfl, rfl⟩
    unfold World.NoFail wrouterSnapshotFree paramsNtFree
    dsimp only
    rw [free_answers, free_answers, free_answers]
    exact hw₁

/-! ## Reading parameters -/

theorem iparam_list (p : Params) (index : Nat) :
    (wrouterIparam p index).map (fun i => (p.slots i).read) = p.list[index]?.map Param.read := by
  unfold wrouterIparam Params.list
  split
  · rename_i hge
    rw [List.getElem?_eq_none (by simpa using hge)]
    rfl
  · rename_i hlt
    rw [List.getElem?_map, List.getElem?_range (by omega)]
    rfl

theorem param_list {p : Params} (hp : ∀ q ∈ p.list, q.Proper) {name : Bytes} (hname : NulFree name) :
    (wrouterParam p name).map (fun i => (p.slots i).read) =
      (p.list.find? fun q => q.name = some name).map Param.read := by
  have hfind : wrouterParam p name =
      (List.range p.count).find? fun i => decide ((p.slots i).name = some name) := by
    refine List.find?_congr fun i hi => ?_
    obtain ⟨-, name', hname', hfree⟩ := hp (p.slots i) (List.mem_map_of_mem hi)
    rw [hname', Option.getD_some, decide_eq_decide, strcmp_eq_zero hfree hname, Option.some.injEq]
  rw [hfind, Params.list, List.find?_map, Option.map_map]
  rfl

/-! ## One more route -/

theorem add_open {t : RouteSet} {e : Entry} (h : (t.add e).2.refused = false) :
    (t.add e).1 = .ok := by
  by_contra hfail
  exact absurd (RouteSet.add_fails hfail) (by simp [h])

theorem add_ok {t : RouteSet} {e : Entry} (h : (t.add e).1 = .ok) : t.refused = false := by
  unfold RouteSet.add at h
  split at h
  · simp at h
  · rename_i hopen
    simpa using hopen

theorem add_accepted {t : RouteSet} {e : Entry} (h : (t.add e).1 = .ok) :
    (t.add e).2 = ⟨t.accepted ++ [e], false⟩ := by
  have hopen := add_ok h
  rw [RouteSet.add, hopen, if_neg Bool.false_ne_true] at h ⊢
  dsimp only at h ⊢
  rw [if_pos h]

/-- A call that is accepted is one more step of the building. -/
theorem Represents.grows {options : Options} {s : Builder × World} {t : RouteSet}
    (h : Represents options.paramSyntax s t) {routes : List (Bytes × Route)}
    (hb : Built options routes s.1) (hes : entries options.paramSyntax routes = t.accepted)
    (call : Option Bytes × Route)
    (hok : (t.add (callEntry options.paramSyntax call)).1 = .ok) :
    ∃ routes', Built options routes' (addStep call s).2.1 ∧
      entries options.paramSyntax routes' =
        (t.add (callEntry options.paramSyntax call)).2.accepted := by
  obtain ⟨pattern, route⟩ := call
  have hcode := (h.step (pattern, route)).1.trans hok
  cases pattern with
  | none =>
    rw [RouteSet.add, add_ok hok, if_neg Bool.false_ne_true, callEntry, patternTokens_null] at hok
    simp [Token.tok, Token.bare, verdict] at hok
  | some p =>
    refine ⟨routes ++ [(p, route)], .add hb (Prod.ext hcode rfl), ?_⟩
    rw [add_accepted hok, entries, List.map_append, ← hes]
    rfl

/-! ## The service mirrors the registry -/

structure Mirrors (L : Libc) (options : Options) (s : Service) (t : Registry) : Prop where
  represents : Represents options.paramSyntax (s.builder, s.world) t.routes
  built : t.routes.refused = false → ∃ routes, Built options routes s.builder ∧
    entries options.paramSyntax routes = t.routes.accepted
  routers : List.Forall₂ (RouterOf L options) s.routers t.routers
  dispatchers : List.Forall₂ (DispatcherOf L options) s.dispatchers t.dispatchers
  intact : s.broken = false
  intact' : t.broken = false

/-- Both are broken, or neither is and one mirrors the other. -/
def Agree (L : Libc) (options : Options) (s : Service) (t : Registry) : Prop :=
  (s.broken = true ∧ t.broken = true) ∨ Mirrors L options s t

/-- Two steps that reply the same and leave the two in agreement. -/
def Agrees₂ (L : Libc) (options : Options) (r : Reply × Service) (r' : Reply × Registry) : Prop :=
  r.1 = r'.1 ∧ Agree L options r.2 r'.2

section Numbered

variable {α β : Type} {R : α → β → Prop} {l : List α} {m : List β}

/-- What goes by one number on both sides. -/
theorem forall₂_getElem? (h : List.Forall₂ R l m) (i : Nat) :
    (l[i]? = none ∧ m[i]? = none) ∨ ∃ a b, l[i]? = some a ∧ m[i]? = some b ∧ R a b := by
  induction h generalizing i with
  | nil => exact Or.inl ⟨rfl, rfl⟩
  | cons hab _ ih =>
    cases i with
    | zero => exact Or.inr ⟨_, _, rfl, rfl, hab⟩
    | succ i => simpa using ih i

theorem forall₂_set (h : List.Forall₂ R l m) (i : Nat) {a : α} {b : β} (hab : R a b) :
    List.Forall₂ R (l.set i a) (m.set i b) := by
  induction h generalizing i with
  | nil => exact .nil
  | cons hcd hrest ih =>
    cases i with
    | zero => exact .cons hab hrest
    | succ i => exact .cons hcd (ih i)

end Numbered

section Mirrors

variable {L : Libc} {options : Options} {s : Service} {t : Registry} (h : Mirrors L options s t)

theorem agrees_crash (s : Service) (t : Registry) : Agrees₂ L options s.crash t.crash :=
  ⟨rfl, Or.inl ⟨rfl, rfl⟩⟩

include h

theorem Mirrors.world {w : World} (hw : w.NoFail) : Mirrors L options { s with world := w } t :=
  { h with
    represents := { h.represents with noFail := hw } }

theorem Mirrors.grows (pattern : Option Bytes) (route : Route)
    (hopen : (t.routes.add (callEntry options.paramSyntax (pattern, route))).2.refused = false) :
    ∃ routes, Built options routes (wrouterAddRoute s.builder pattern route s.world).2.1 ∧
      entries options.paramSyntax routes =
        (t.routes.add (callEntry options.paramSyntax (pattern, route))).2.accepted := by
  have hok := add_open hopen
  obtain ⟨routes, hb, hes⟩ := h.built (add_ok hok)
  exact h.represents.grows hb hes (pattern, route) hok

theorem Mirrors.addRoute (pattern : Option Bytes) (route : Route) :
    Agrees₂ L options (s.call L (.addRoute pattern route))
      (t.call options (.addRoute pattern route)) := by
  obtain ⟨hcode, hrepresents⟩ := h.represents.step (pattern, route)
  exact ⟨congrArg Reply.code hcode,
    Or.inr { h with represents := hrepresents, built := h.grows pattern route }⟩

/-- A router is made exactly where the set fits 16 bits. -/
theorem Mirrors.compile : Agrees₂ L options (s.call L .compile) (t.call options .compile) := by
  rw [Service.call, Registry.call]
  by_cases hrefused : t.routes.refused = true
  · have hcorrupted := h.represents.refused.trans hrefused
    have hcompile : wrouterCompile L (some s.builder) s.world = (none, .builderCorrupted, s.world) := by
      rw [wrouterCompile]
      dsimp only
      rw [if_pos hcorrupted]
    rw [hcompile, if_pos hrefused, Option.toList_none, List.append_nil]
    exact ⟨rfl, Or.inr h⟩
  have hopen : t.routes.refused = false := by simpa using hrefused
  have hholds := h.represents.holds hopen
  rw [if_neg hrefused]
  obtain ⟨w', hw', ⟨hfit, router, hcompile⟩ | ⟨hfit, hcompile⟩⟩ :=
    wrouterCompile_noFail L hholds h.represents.noFail
  · rw [hcompile, if_pos hfit]
    refine ⟨rfl, Or.inr ?_⟩
    obtain ⟨routes, hb, hes⟩ := h.built hopen
    have hrouter : RouterOf L options router t.routes.accepted :=
      ⟨_, routes, hb, hes, wrouterCompile_ok (congrArg Prod.fst hcompile)⟩
    exact { h.world hw' with
      routers := List.rel_append h.routers (.cons hrouter .nil) }
  · rw [hcompile, if_neg hfit, Option.toList_none, List.append_nil]
    exact ⟨rfl, Or.inr (h.world hw')⟩

theorem Mirrors.routeCount (i : Nat) :
    Agrees₂ L options (s.call L (.routeCount i)) (t.call options (.routeCount i)) := by
  rw [Service.call, Registry.call]
  obtain ⟨hs, ht⟩ | ⟨router, es, hs, ht, hrouter⟩ := forall₂_getElem? h.routers i <;> rw [hs, ht]
  · exact agrees_crash s t
  · exact ⟨congrArg Reply.count hrouter.routeCount, Or.inr h⟩

/-- A new dispatcher shows no parameters. -/
theorem Mirrors.dispatcherCreate (i : Nat) :
    Agrees₂ L options (s.call L (.dispatcherCreate i)) (t.call options (.dispatcherCreate i)) := by
  rw [Service.call, Registry.call]
  obtain ⟨hs, ht⟩ | ⟨router, es, hs, ht, hrouter⟩ := forall₂_getElem? h.routers i <;> rw [hs, ht]
  · exact agrees_crash s t
  obtain ⟨d, w', hw', hcreate, rfl, hallocated, hbase, hlist⟩ :=
    wrouterDispatcherCreate_noFail router h.represents.noFail
  dsimp only
  rw [hcreate]
  have hd : DispatcherOf L options d (es, []) :=
    ⟨hrouter, hallocated, hbase, hlist, Nat.zero_le _, by simp⟩
  exact ⟨rfl, Or.inr { h.world hw' with
    dispatchers := List.rel_append h.dispatchers (.cons hd .nil) }⟩

/-- A request is answered alike when its two ways of reading the match agree. -/
theorem Mirrors.request {α : Type} (j : Nat) {path : Bytes} (hpath : NulFree path)
    {run : Dispatcher → Option (α × Dispatcher)} {result : Dispatcher → MatchResult → α}
    (hrun : ∀ d, run d = (d.request L path).map fun r => (result d r, r.dispatcher))
    {reply : α → Reply} {reply' : Route → List Param → Reply}
    (hreply : ∀ d r, d.router.fallback = ⟨options.fallbackHandler, options.fallbackCtx⟩ →
      reply (result d r) = reply' (r.route.getD ⟨options.fallbackHandler, options.fallbackCtx⟩)
        r.dispatcher.params.list) :
    Agrees₂ L options (s.request j run reply)
      (t.request ⟨options.fallbackHandler, options.fallbackCtx⟩ j path reply') := by
  rw [Service.request, Registry.request]
  obtain ⟨hs, ht⟩ | ⟨d, ⟨es, ps⟩, hs, ht, hd⟩ := forall₂_getElem? h.dispatchers j <;> rw [hs, ht]
  · exact agrees_crash s t
  obtain ⟨hover, r, hr, hroute, hparams, hnext⟩ := hd.request hpath
  dsimp only at hover hroute hparams hnext ⊢
  rw [hrun, Dispatcher.request]
  by_cases hlong : maxSlots es < (answer es path).recorded.length
  · rw [if_pos (hover.mpr hlong), if_pos hlong]
    exact agrees_crash s t
  · have hin := mt hover.mp hlong
    rw [if_neg hin, if_neg hlong, hr]
    dsimp only [Option.map]
    rw [hreply d r hd.router.fallback, hroute, hparams]
    exact ⟨rfl, Or.inr { h with dispatchers := forall₂_set h.dispatchers j (hnext hin) }⟩

theorem Mirrors.read (j : Nat) {f : Params → Reply} {f' : List Param → Reply}
    (hf : ∀ p : Params, (∀ q ∈ p.list, q.Proper) → f p = f' p.list) :
    Agrees₂ L options (s.read j f) (t.read j f') := by
  rw [Service.read, Registry.read]
  obtain ⟨hs, ht⟩ | ⟨d, ⟨es, ps⟩, hs, ht, hd⟩ := forall₂_getElem? h.dispatchers j <;> rw [hs, ht]
  · exact agrees_crash s t
  · obtain rfl : d.params.list = ps := hd.params
    exact ⟨hf d.params hd.proper, Or.inr h⟩

/-- A copy shows the parameters of the last request. -/
theorem Mirrors.paramsCopy (j : Nat) :
    Agrees₂ L options (s.call L (.paramsCopy j)) (t.call options (.paramsCopy j)) := by
  rw [Service.call, Registry.call, Registry.read]
  obtain ⟨hs, ht⟩ | ⟨d, ⟨es, ps⟩, hs, ht, hd⟩ := forall₂_getElem? h.dispatchers j <;> rw [hs, ht]
  · exact agrees_crash s t
  obtain rfl : d.params.list = ps := hd.params
  have hbase : d.params.count ≠ 0 → d.params.base.isSome := by
    intro hcount
    have hwithin := hd.within
    dsimp only at hwithin
    rw [params_list_length] at hwithin
    exact hd.base (by omega)
  obtain ⟨snapshot, w', hw', hcopy, hstrings⟩ := wrouterParamsCopy_noFail h.represents.noFail hbase
    fun p hp => (hd.proper p hp).copyable
  dsimp only
  rw [hcopy]
  dsimp only
  rw [hstrings]
  exact ⟨rfl, Or.inr (h.world hw')⟩

/-- The step lemma, one case for each call. -/
theorem Mirrors.call (c : ApiCall) : Agrees₂ L options (s.call L c) (t.call options c) := by
  cases c with
  | addRoute pattern route => exact h.addRoute pattern route
  | compile => exact h.compile
  | routeCount i => exact h.routeCount i
  | dispatcherCreate i => exact h.dispatcherCreate i
  | dispatch j path dispatchCtx =>
    refine h.request j (nulFree_take_strlen path) (fun _ => rfl) fun d r hfallback => ?_
    rw [hfallback]
  | resolve j path =>
    refine h.request j (nulFree_take_strlen path) (fun _ => rfl) fun d r hfallback => ?_
    rw [hfallback]
  | iparam j index => exact h.read j fun p _ => congrArg Reply.param (iparam_list p index)
  | param j name =>
    exact h.read j fun p hp => congrArg Reply.param (param_list hp (nulFree_take_strlen name))
  | paramsCopy j => exact h.paramsCopy j

end Mirrors

theorem agree_step {L : Libc} {options : Options} (c : ApiCall) (s : Service) (t : Registry)
    (h : Agree L options s t) :
    Agrees₂ L options (serviceStep L c s) (registryStep options (id c) t) := by
  unfold serviceStep registryStep
  obtain ⟨hs, ht⟩ | h := h
  · rw [if_pos hs, if_pos ht]
    exact ⟨rfl, Or.inl ⟨hs, ht⟩⟩
  · rw [h.intact, h.intact', if_neg Bool.false_ne_true, if_neg Bool.false_ne_true]
    exact h.call c

theorem Mirrors.replies {L : Libc} {options : Options} {s : Service} {t : Registry}
    (h : Mirrors L options s t) (calls : List ApiCall) :
    (run (serviceStep L) calls s).1 = (run (registryStep options) calls t).1 := by
  have hruns := run_simulates id (Agree L options) agree_step (Or.inr h) calls
  rw [List.map_id] at hruns
  exact hruns.1

/-- A new service mirrors the empty registry. -/
theorem mirrors_start (L : Libc) {options : Options} {w w' : World} (hw : w.NoFail) {b : Builder}
    (hcreate : wrouterBuilderCreate options w = (some b, w')) :
    Mirrors L options ⟨b, [], [], w', false⟩ .empty :=
  ⟨represents_create hw hcreate, fun _ => ⟨[], .create hcreate, rfl⟩, .nil, .nil, rfl, rfl⟩

/-- With memory left, what a program is told is what the sets of routes say, in every run:
the code of each call, the handler that is called, its context, the parameters, the copies, and
where the behaviour is undefined. -/
theorem service_is_registry (L : Libc) {options : Options} {w w' : World} (hw : w.NoFail)
    {b : Builder} (hcreate : wrouterBuilderCreate options w = (some b, w')) (calls : List ApiCall) :
    (run (serviceStep L) calls ⟨b, [], [], w', false⟩).1 =
      (run (registryStep options) calls .empty).1 :=
  (mirrors_start L hw hcreate).replies calls

/-- Two routers in one program; the last request leaves its buffer. -/
def program : List ApiCall :=
  [.addRoute (some (ascii "/*")) ⟨5, 1⟩, .compile, .addRoute (some (ascii "/a/:x/b")) ⟨6, 2⟩, .compile,
    .dispatcherCreate 1, .dispatcherCreate 0, .dispatch 0 (ascii "/a/1/b") 9,
    .dispatch 1 (ascii "/a/1/b") 9, .param 0 (ascii "x"), .paramsCopy 1, .routeCount 1,
    .addRoute (some (ascii "/a/b")) ⟨0, 3⟩, .compile, .resolve 0 (ascii "/a/1/c"), .routeCount 0]

/-- A whole program, replied to from the sets alone. -/
theorem service_is_registry_program :
    (run (serviceStep .reference) program
      ⟨.fresh plainOptions, [], [], (wrouterBuilderCreate plainOptions .empty).2, false⟩).1 =
    [.code .ok, .code .ok, .code .ok, .code .ok, .created true, .created true,
      .called (some ⟨6, 9, 2, [⟨some (ascii "x"), some (ascii "1/b"), 1⟩]⟩),
      .called (some ⟨5, 9, 1, [⟨some (ascii "_"), some (ascii "a/1/b"), 5⟩]⟩),
      .param (some (some (ascii "x"), ascii "1")), .copied (some [(ascii "_", ascii "a/1/b")]),
      .count 2, .code .literalConflictsWithParam, .code .builderCorrupted, .undefined, .undefined] := by
  have hcreate : wrouterBuilderCreate plainOptions .empty =
    (some (.fresh plainOptions), (wrouterBuilderCreate plainOptions .empty).2) := rfl
  have hnoFail : World.empty.NoFail := by simp [World.NoFail, World.empty]
  rw [service_is_registry .reference hnoFail hcreate program]
  decide +kernel

/-! ## Dispatchers do not disturb each other -/

def ApiCall.on (j : Nat) : ApiCall → Bool
  | .dispatch i _ _ | .resolve i _ | .iparam i _ | .param i _ | .paramsCopy i => i == j
  | _ => false

structure SameDispatcher (j : Nat) (s t : Registry) : Prop where
  some : j < s.dispatchers.length
  same : s.dispatchers[j]? = t.dispatchers[j]?
  intact : s.broken = false
  intact' : t.broken = false

section Alone

variable {options : Options} {j : Nat} {s t : Registry} (h : SameDispatcher j s t)

include h

theorem SameDispatcher.read (f : List Param → Reply) :
    (s.read j f).1 = (t.read j f).1 ∧ SameDispatcher j (s.read j f).2 (t.read j f).2 := by
  rw [Registry.read, Registry.read, ← h.same, List.getElem?_eq_getElem h.some]
  exact ⟨rfl, h⟩

theorem SameDispatcher.request (fallback : Route) (path : Bytes) (reply : Route → List Param → Reply)
    (hgood : (s.request fallback j path reply).1 ≠ .undefined) :
    (s.request fallback j path reply).1 = (t.request fallback j path reply).1 ∧
      SameDispatcher j (s.request fallback j path reply).2 (t.request fallback j path reply).2 := by
  rw [Registry.request, List.getElem?_eq_getElem h.some] at hgood
  rw [Registry.request, Registry.request, ← h.same, List.getElem?_eq_getElem h.some]
  dsimp only at hgood ⊢
  split
  · rename_i hlong
    rw [if_pos hlong] at hgood
    exact absurd rfl hgood
  · have hlen : j < t.dispatchers.length := by
      have := h.same
      rw [List.getElem?_eq_getElem h.some, eq_comm, List.getElem?_eq_some_iff] at this
      exact this.1
    refine ⟨rfl, by simpa using h.some, ?_, h.intact, h.intact'⟩
    rw [List.getElem?_set_self h.some, List.getElem?_set_self hlen]

/-- A call to the dispatcher replies the same, whatever happened to others. -/
theorem SameDispatcher.own (c : ApiCall) (hc : c.on j = true)
    (hgood : (registryStep options c s).1 ≠ .undefined) :
    (registryStep options c s).1 = (registryStep options c t).1 ∧
      SameDispatcher j (registryStep options c s).2 (registryStep options c t).2 := by
  unfold registryStep at hgood ⊢
  rw [h.intact, if_neg Bool.false_ne_true] at hgood ⊢
  rw [h.intact', if_neg Bool.false_ne_true]
  cases c with
  | dispatch i path dispatchCtx =>
    obtain rfl : i = j := by simpa [ApiCall.on] using hc
    exact h.request _ _ _ hgood
  | resolve i path =>
    obtain rfl : i = j := by simpa [ApiCall.on] using hc
    exact h.request _ _ _ hgood
  | iparam i index =>
    obtain rfl : i = j := by simpa [ApiCall.on] using hc
    exact h.read _
  | param i name =>
    obtain rfl : i = j := by simpa [ApiCall.on] using hc
    exact h.read _
  | paramsCopy i =>
    obtain rfl : i = j := by simpa [ApiCall.on] using hc
    exact h.read _
  | _ => simp [ApiCall.on] at hc

theorem SameDispatcher.other_read {i : Nat} {f : List Param → Reply}
    (hgood : (s.read i f).1 ≠ .undefined) : SameDispatcher j (s.read i f).2 t := by
  rw [Registry.read] at hgood ⊢
  split
  · rename_i hnone
    rw [hnone] at hgood
    exact absurd rfl hgood
  · exact h

theorem SameDispatcher.other_request {i : Nat} (hi : i ≠ j) {fallback : Route} {path : Bytes}
    {reply : Route → List Param → Reply}
    (hgood : (s.request fallback i path reply).1 ≠ .undefined) :
    SameDispatcher j (s.request fallback i path reply).2 t := by
  rw [Registry.request] at hgood ⊢
  split
  · rename_i hnone
    rw [hnone] at hgood
    exact absurd rfl hgood
  · rename_i hsome
    rw [hsome] at hgood
    dsimp only at hgood ⊢
    split
    · rename_i hlong
      rw [if_pos hlong] at hgood
      exact absurd rfl hgood
    · exact ⟨by simpa using h.some, by rw [List.getElem?_set_ne hi]; exact h.same, h.intact, h.intact'⟩

/-- A call to others leaves the dispatcher as it is. -/
theorem SameDispatcher.other (c : ApiCall) (hc : c.on j = false)
    (hgood : (registryStep options c s).1 ≠ .undefined) :
    SameDispatcher j (registryStep options c s).2 t := by
  unfold registryStep at hgood ⊢
  rw [h.intact, if_neg Bool.false_ne_true] at hgood ⊢
  cases c with
  | addRoute pattern route => exact ⟨h.some, h.same, h.intact, h.intact'⟩
  | compile =>
    rw [Registry.call]
    split
    · exact h
    · split
      · exact ⟨h.some, h.same, h.intact, h.intact'⟩
      · exact h
  | routeCount i =>
    rw [Registry.call] at hgood ⊢
    split
    · rename_i hnone
      rw [hnone] at hgood
      exact absurd rfl hgood
    · exact h
  | dispatcherCreate i =>
    rw [Registry.call] at hgood ⊢
    split
    · rename_i hnone
      rw [hnone] at hgood
      exact absurd rfl hgood
    · refine ⟨?_, ?_, h.intact, h.intact'⟩
      · rw [List.length_append]
        exact Nat.lt_add_right _ h.some
      · rw [List.getElem?_append_left h.some]
        exact h.same
  | dispatch i path dispatchCtx => exact h.other_request (by simpa [ApiCall.on] using hc) hgood
  | resolve i path => exact h.other_request (by simpa [ApiCall.on] using hc) hgood
  | iparam i index => exact h.other_read hgood
  | param i name => exact h.other_read hgood
  | paramsCopy i => exact h.other_read hgood

end Alone

/-- Where a service in agreement has no reply but what the registry says, calls on one dispatcher
are answered as if they were the only ones. -/
theorem Mirrors.alone {L : Libc} {options : Options} {s : Service} {t : Registry}
    (h : Mirrors L options s t) {j : Nat} (hj : j < s.dispatchers.length) {calls : List ApiCall}
    (hgood : ∀ a ∈ (run (serviceStep L) calls s).1, a ≠ .undefined) :
    answersOf (ApiCall.on j) calls (run (serviceStep L) calls s).1 =
      (run (serviceStep L) (calls.filter (ApiCall.on j)) s).1 := by
  rw [h.replies] at hgood
  rw [h.replies, h.replies]
  rw [h.dispatchers.length_eq] at hj
  exact run_filter (V := SameDispatcher j) (fun c s t hc hv hgood => hv.own c hc hgood)
    (fun c s t hc hv hgood => hv.other c hc hgood) ⟨hj, rfl, h.intact', h.intact'⟩ hgood

/-- However the calls of a program are interleaved, and whatever is added, compiled and created
meanwhile: as long as nothing is undefined, a dispatcher answers as if it were alone. -/
theorem dispatcher_alone (L : Libc) {options : Options} {w w' : World} (hw : w.NoFail) {b : Builder}
    (hcreate : wrouterBuilderCreate options w = (some b, w')) (setup calls : List ApiCall) {j : Nat}
    (hj : j < (run (serviceStep L) setup ⟨b, [], [], w', false⟩).2.dispatchers.length)
    (hgood : ∀ a ∈ (run (serviceStep L) calls
      (run (serviceStep L) setup ⟨b, [], [], w', false⟩).2).1, a ≠ .undefined) :
    answersOf (ApiCall.on j) calls
        (run (serviceStep L) calls (run (serviceStep L) setup ⟨b, [], [], w', false⟩).2).1 =
      (run (serviceStep L) (calls.filter (ApiCall.on j))
        (run (serviceStep L) setup ⟨b, [], [], w', false⟩).2).1 := by
  obtain ⟨-, hsetup⟩ := run_simulates id (Agree L options) agree_step
    (Or.inr (mirrors_start L hw hcreate)) setup
  generalize (run (serviceStep L) setup ⟨b, [], [], w', false⟩).2 = s at hj hgood hsetup ⊢
  rcases hsetup with ⟨hbroken, -⟩ | hmirrors
  · cases calls with
    | nil => rfl
    | cons c calls =>
      refine absurd rfl (hgood .undefined ?_)
      rw [run, serviceStep, if_pos hbroken]
      exact List.mem_cons_self
  · exact hmirrors.alone hj hgood

/-- Dispatcher 0 between calls on another one and on the builder. -/
theorem dispatcher_alone_program :
    answersOf (ApiCall.on 0) ((program.drop 6).take 7)
        (run (serviceStep .reference) ((program.drop 6).take 7)
          (run (serviceStep .reference) (program.take 6) ⟨.fresh plainOptions, [], [],
            (wrouterBuilderCreate plainOptions .empty).2, false⟩).2).1 =
      (run (serviceStep .reference) [.dispatch 0 (ascii "/a/1/b") 9, .param 0 (ascii "x")]
        (run (serviceStep .reference) (program.take 6) ⟨.fresh plainOptions, [], [],
          (wrouterBuilderCreate plainOptions .empty).2, false⟩).2).1 := by
  have hcreate : wrouterBuilderCreate plainOptions .empty =
    (some (.fresh plainOptions), (wrouterBuilderCreate plainOptions .empty).2) := rfl
  have hnoFail : World.empty.NoFail := by simp [World.NoFail, World.empty]
  exact @dispatcher_alone .reference plainOptions .empty _ hnoFail _ hcreate (program.take 6)
    ((program.drop 6).take 7) 0 (by decide +kernel) (by decide +kernel)

end Wrouter
