import Wrouter.Builder
import Wrouter.Router

/-!
# Compiler and dispatcher

`wrouter_compile` turns a builder into an immutable router: statistics first, then
symbols, terminals and the graph, each in memory of the size the statistics gave.
A dispatcher is a router with a lexer and a parameter buffer of its own.
-/
namespace Wrouter

open CLib

def compileGraph (L : Libc) (builder : Builder) (router : Router) (size : Nat) (w : World) : Emit :=
  (graphCompile L router.literals router.params router.retain builder.root
    ⟨List.replicate size 0, router.terminals, 0, w⟩).2

/-- The body of `wrouter_compile` once the router itself is allocated; on failure
the router as far as it got, with the error. -/
def compileRouter (L : Libc) (builder : Builder) (router : Router) (w : World) :
    WrouterError × Router × World :=
  let stats := graphStats builder.root .zero
  let router := { router with
    numRoutes := stats.terminals, maxParams := stats.maxParams, graphSize := stats.size }
  if stats.size > 65535 ∨ stats.terminals > 65535 then (.outOfRange, router, w)
  else
    let r := symbolCompile L builder.literals w
    let router := { router with literals := r.2.1 }
    if r.1 ≠ .ok then (r.1, router, r.2.2)
    else
      let r := symbolCompile L builder.params r.2.2
      let router := { router with params := r.2.1 }
      if r.1 ≠ .ok then (r.1, router, r.2.2)
      else
        let r := terminalAlloc router.terminals stats.terminals r.2.2
        let router := { router with terminals := r.2.1 }
        if ¬ r.1 then (.noMemory, router, r.2.2)
        else match r.2.2.malloc (stats.size * 2) with
          | (none, w) => (.noMemory, router, w)
          | (some b, w) =>
            let e := compileGraph L builder router stats.size w
            (.ok, { router with graph := some ⟨b, e.cells⟩, terminals := e.terminals }, e.world)

def wrouterCompile (L : Libc) (builder : Option Builder) (w : World) :
    Option Router × WrouterError × World :=
  match builder with
  | none => (none, .nullArgument, w)
  | some builder =>
    if builder.corrupted then (none, .builderCorrupted, w)
    else match w.malloc 1 with
      | (none, w) => (none, .noMemory, wrouterFree none w)
      | (some b, w) =>
        let router : Router := ⟨b, none, .zero, .zero, .zero, builder.fallback, 0, 0, 0,
          builder.retain, builder.release⟩
        let w := w.retain router.retain router.fallback.ctx
        let r := compileRouter L builder router w
        if r.1 ≠ .ok then (none, r.1, wrouterFree (some r.2.1) r.2.2)
        else (some r.2.1, .ok, r.2.2)

def paramsAlloc (p : Params) (n : Nat) (w : World) : Bool × Params × World :=
  match w.malloc (n * 24) with
  | (none, w) => (false, p, w)
  | (some b, w) => (true, { p with base := some b, allocated := n }, w)

def wrouterDispatcherCreate (router : Router) (w : World) : Option Dispatcher × World :=
  match w.malloc 1 with
  | (none, w) => (none, w)
  | (some b, w) =>
    if router.maxParams ≠ 0 then
      match paramsAlloc .zero router.maxParams w with
      | (false, _, w) => (none, w.free (some b))
      | (true, params, w) => (some ⟨router, .zero, params⟩, w)
    else (some ⟨router, .zero, .zero⟩, w)

/-- `lexer_load`, then `route_match`, over a buffer that is long enough. -/
def resolveRequest (L : Libc) (d : Dispatcher) (path : Bytes) : Option MatchResult :=
  routeMatch L { d with lx := lexerLoad (some path) }

/-- The request writes past the dispatcher's buffer. -/
def Dispatcher.overruns (L : Libc) (d : Dispatcher) (path : Bytes) : Bool :=
  (resolveRequest L d path).any fun r => r.touched.any fun slot => d.params.allocated ≤ slot

/-- The same over the buffer there is: past its end anything may happen. -/
def Dispatcher.request (L : Libc) (d : Dispatcher) (path : Bytes) : Option MatchResult :=
  if d.overruns L path then none else resolveRequest L d path

def MatchResult.reply (r : MatchResult) : Option Route × List Param :=
  (r.route, r.dispatcher.params.list)

/-- The context of the matched route, or the fallback's. -/
def wrouterNresolve (L : Libc) (d : Dispatcher) (path : Bytes) : Option (Nat × Dispatcher) :=
  (d.request L path).map fun r => ((r.route.getD d.router.fallback).ctx, r.dispatcher)

/-- The request is a terminated string. -/
def wrouterResolve (L : Libc) (d : Dispatcher) (path : Bytes) : Option (Nat × Dispatcher) :=
  wrouterNresolve L d (path.take (strlen path))

structure CompiledFrom (L : Libc) (builder : Builder) (router : Router) : Prop where
  numRoutes : router.numRoutes = (graphStats builder.root .zero).terminals
  maxParams : router.maxParams = (graphStats builder.root .zero).maxParams
  graphSize : router.graphSize = (graphStats builder.root .zero).size
  fallback : router.fallback = builder.fallback
  size_le : router.graphSize ≤ 65535
  terminals_le : router.numRoutes ≤ 65535
  literals : ∃ w w', symbolCompile L builder.literals w = (.ok, router.literals, w')
  params : ∃ w w', symbolCompile L builder.params w = (.ok, router.params, w')
  graph : ∃ (block refs base : Block) (w : World),
    let e := (graphCompile L router.literals router.params builder.retain builder.root
      ⟨List.replicate router.graphSize 0,
        ⟨some ⟨refs, List.replicate router.numRoutes 0⟩,
          some ⟨base, List.replicate router.numRoutes ⟨0, 0⟩⟩, 0⟩, 0, w⟩).2
    router.graph = some ⟨block, e.cells⟩ ∧ router.terminals = e.terminals

theorem terminalAlloc_ok {t : Terminals} {n : Nat} {w : World} (h : (terminalAlloc t n w).1 = true) :
    ∃ refs base, (terminalAlloc t n w).2.1 =
      ⟨some ⟨refs, List.replicate n 0⟩, some ⟨base, List.replicate n ⟨0, 0⟩⟩, t.count⟩ := by
  unfold terminalAlloc at h ⊢
  split at h
  · simp at h
  dsimp only at h ⊢
  split at h
  · simp at h
  · exact ⟨_, _, rfl⟩

/-- A successful body leaves a router with every part compiled from the builder. -/
theorem compileRouter_ok {L : Libc} {builder : Builder} {router router' : Router} {w w' : World}
    (ht : router.terminals = .zero) (hr : router.retain = builder.retain)
    (hf : router.fallback = builder.fallback)
    (h : compileRouter L builder router w = (.ok, router', w')) :
    CompiledFrom L builder router' := by
  unfold compileRouter at h
  dsimp only at h
  split at h
  · simp at h
  rename_i hsize
  split at h
  · rename_i hne
    exact absurd (Prod.mk.inj h).1 hne
  rename_i hliterals
  split at h
  · rename_i hne
    exact absurd (Prod.mk.inj h).1 hne
  rename_i hparams
  split at h
  · simp at h
  rename_i hterminals
  split at h
  · simp at h
  rename_i block w₁ _
  simp only [Prod.mk.injEq, true_and] at h
  obtain ⟨rfl, -⟩ := h
  obtain ⟨refs, base, htab⟩ := terminalAlloc_ok (not_not.mp hterminals)
  refine ⟨rfl, rfl, rfl, hf, by simp; omega, by simp; omega,
    ⟨w, _, Prod.ext (not_not.mp hliterals) rfl⟩, ⟨_, _, Prod.ext (not_not.mp hparams) rfl⟩,
    block, refs, base, w₁, ?_⟩
  rw [ht] at htab
  simp only [compileGraph, hr, ht, htab]
  exact ⟨rfl, rfl⟩

theorem wrouterCompile_ok {L : Libc} {builder : Builder} {w : World} {router : Router}
    (h : (wrouterCompile L (some builder) w).1 = some router) : CompiledFrom L builder router := by
  unfold wrouterCompile at h
  dsimp only at h
  split at h
  · simp at h
  split at h
  · simp at h
  split at h
  · simp at h
  · rename_i hok
    simp only [Option.some.injEq] at h
    exact compileRouter_ok rfl rfl rfl (Prod.ext (not_not.mp hok) (Prod.ext h rfl))

/-- A dispatcher over the compiled routes, fresh or after any number of requests. -/
inductive Serves (L : Libc) (options : Options) (routes : List (Bytes × Route)) :
    Dispatcher → Prop where
  | create {builder : Builder} {router : Router} {d : Dispatcher} {w w' : World} :
      Built options routes builder → (wrouterCompile L (some builder) w).1 = some router →
      (wrouterDispatcherCreate router w').1 = some d → Serves L options routes d
  | resolve {d : Dispatcher} {path : Bytes} {r : MatchResult} :
      Serves L options routes d → d.request L path = some r →
      Serves L options routes r.dispatcher

/-- A request has a result exactly if it stays in the buffer. -/
theorem Dispatcher.request_some {L : Libc} {d : Dispatcher} {path : Bytes} {r : MatchResult} :
    d.request L path = some r ↔ resolveRequest L d path = some r ∧ d.overruns L path = false := by
  unfold Dispatcher.request
  cases d.overruns L path <;> simp

/-- A created dispatcher has as many slots as the router has parameters at most. -/
theorem wrouterDispatcherCreate_ok {router : Router} {d : Dispatcher} {w : World}
    (h : (wrouterDispatcherCreate router w).1 = some d) :
    d.router = router ∧ d.params.allocated = router.maxParams := by
  unfold wrouterDispatcherCreate paramsAlloc at h
  split at h
  · simp at h
  split at h
  · split at h
    · simp at h
    · rename_i hparams
      split at hparams
      · simp at hparams
      · simp only [Option.some.injEq] at h
        simp only [Prod.mk.injEq, true_and] at hparams
        obtain ⟨rfl, -⟩ := hparams
        subst h
        exact ⟨rfl, rfl⟩
  · rename_i hzero
    simp only [Option.some.injEq] at h
    subst h
    exact ⟨rfl, (not_not.mp hzero).symm⟩

/-- From the options and the routes to a dispatcher; none unless every step succeeds. -/
def deploy (L : Libc) (options : Options) (routes : List (Bytes × Route)) (w : World) :
    Option Dispatcher :=
  match buildRoutes options routes w with
  | none => none
  | some (b, w) =>
    match wrouterCompile L (some b) w with
    | (none, _, _) => none
    | (some router, _, w) => (wrouterDispatcherCreate router w).1

theorem deploy_serves {L : Libc} {options : Options} {routes : List (Bytes × Route)} {w : World}
    {d : Dispatcher} (h : deploy L options routes w = some d) : Serves L options routes d := by
  unfold deploy at h
  split at h
  · simp at h
  rename_i b w' hb
  split at h
  · simp at h
  rename_i router err w'' hc
  exact .create (buildRoutes_built hb) (by rw [hc]) h

theorem exists_serves {routes : List (Bytes × Route)}
    (h : (deploy .reference plainOptions routes .empty).isSome) :
    ∃ d, Serves .reference plainOptions routes d := by
  obtain ⟨d, hd⟩ := Option.isSome_iff_exists.mp h
  exact ⟨d, deploy_serves hd⟩

def trial (routes : List (Bytes × Route)) (path : Bytes) : Option (Dispatcher × MatchResult) :=
  (deploy .reference plainOptions routes .empty).bind fun d =>
    (resolveRequest .reference d path).map fun r => (d, r)

/-- What a trial shows holds of a dispatcher in service. -/
theorem trial_serves {routes : List (Bytes × Route)} {path : Bytes}
    {P : Dispatcher → MatchResult → Prop} [∀ d r, Decidable (P d r)]
    (h : (trial routes path).any fun t => P t.1 t.2) :
    ∃ d r, Serves .reference plainOptions routes d ∧ resolveRequest .reference d path = some r ∧
      P d r := by
  obtain ⟨⟨d, r⟩, ht, hp⟩ := (Option.any_eq_true _ _).mp h
  obtain ⟨d', hd, hr⟩ := Option.bind_eq_some_iff.mp ht
  obtain ⟨r', hres, he⟩ := Option.map_eq_some_iff.mp hr
  obtain ⟨rfl, rfl⟩ := Prod.mk.inj he
  exact ⟨d', r', deploy_serves hd, hres, of_decide_eq_true hp⟩

/-- The same of a trial that stays in its buffer. -/
theorem trial_request {routes : List (Bytes × Route)} {path : Bytes}
    {P : Dispatcher → MatchResult → Prop} [∀ d r, Decidable (P d r)]
    (h : (trial routes path).any fun t => t.1.overruns .reference path = false ∧ P t.1 t.2) :
    ∃ d r, Serves .reference plainOptions routes d ∧ d.request .reference path = some r ∧
      P d r := by
  obtain ⟨d, r, hs, hr, hin, hp⟩ := trial_serves
    (P := fun d r => d.overruns .reference path = false ∧ P d r) h
  exact ⟨d, r, hs, Dispatcher.request_some.mpr ⟨hr, hin⟩, hp⟩

end Wrouter
