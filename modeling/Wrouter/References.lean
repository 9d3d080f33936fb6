import Mathlib.Data.List.Perm.Basic
import Wrouter.Layout
import Wrouter.Teardown

/-!
# Counting references

Every retain is matched by a holder: a route or fallback context in the live builder or in
a live router. The builder lets go of its contexts on a walk over the tree, a router on a
walk over its dictionary; both hold exactly what was retained for them.
-/
namespace Wrouter

open CLib

/-- The contexts of a builder: its fallback's and those of its routes. -/
def Builder.holders (b : Builder) : List Nat :=
  b.fallback.ctx :: b.root.routes.map fun e => e.2.ctx

def Router.holders (r : Router) : List Nat :=
  r.fallback.ctx :: (r.terminals.baseData.take r.terminals.count).map Route.ctx

structure Session where
  builder : Option Builder
  routers : List Router
  world : World

def Session.holders (s : Session) : List Nat :=
  (s.builder.toList.flatMap Builder.holders) ++ s.routers.flatMap Router.holders

inductive Call where
  | addRoute (pattern : Option Bytes) (route : Route)
  | compile
  | builderFree
  | routerFree (i : Nat)
  deriving DecidableEq, Repr

def Session.create (options : Options) (w : World) : Session :=
  let r := wrouterBuilderCreate options w
  ⟨r.1, [], r.2⟩

/-- One call, whatever it returns; none where it does not come through. A builder that was
freed takes no more routes, and a router is freed once. -/
def Session.call (L : Libc) (s : Session) : Call → Option Session
  | .addRoute pattern route =>
    match s.builder with
    | none => some s
    | some b =>
      let r := wrouterAddRoute b pattern route s.world
      some { s with builder := some r.2.1, world := r.2.2 }
  | .compile =>
    let r := wrouterCompile L s.builder s.world
    some { s with routers := s.routers ++ r.1.toList, world := r.2.2 }
  | .builderFree =>
    (wrouterBuilderFree s.builder s.world).map fun w => { s with builder := none, world := w }
  | .routerFree i =>
    some { s with routers := s.routers.eraseIdx i, world := wrouterFree s.routers[i]? s.world }

def Session.run (L : Libc) (s : Session) : List Call → Option Session
  | [] => some s
  | c :: calls => (s.call L c).bind fun s => s.run L calls

/-- The parameters' table has room for one more. -/
def Session.room (s : Session) : Bool := s.builder.all fun b => b.params.count < 65535

/-- No call of the run fills the parameters' table. -/
def Session.roomLeft (L : Libc) (s : Session) : List Call → Bool
  | [] => true
  | c :: calls => (s.call L c).all fun s => s.room && s.roomLeft L calls

/-! ## The tree's two readings

The release walks the tree in an order of its own; what it comes to is what the tree holds. -/

theorem heldChildren_perm {l : List Segment}
    (h : ∀ c ∈ l, c.held.Perm (c.routes.map fun e => e.2.ctx)) :
    (heldChildren l).Perm ((routesChildren l).map fun e => e.2.ctx) := by
  induction l with
  | nil => exact .refl _
  | cons c l ih =>
    obtain ⟨hc, h⟩ := List.forall_mem_cons.mp h
    rw [heldChildren, routesChildren, List.map_append, List.map_map]
    exact hc.append (ih h)

/-- The contexts held are those of the routes. -/
theorem held_perm (s : Segment) : s.held.Perm (s.routes.map fun e => e.2.ctx) := by
  induction s.everywhere with
  | node s _ _ _ ihc ihp =>
    have hspecial : (heldSpecial s.special).Perm ((routesSpecial s.special).map fun e => e.2.ctx) := by
      cases hc : s.special with
      | param p =>
        rw [heldSpecial, routesSpecial, List.map_map]
        exact ihp p hc
      | _ => exact .refl _
    have hchildren := heldChildren_perm ihc
    rw [held_eq, routes_eq, List.perm_iff_count]
    intro ctx
    have hc := hchildren.count_eq ctx
    have hs := hspecial.count_eq ctx
    simp only [List.map_append, List.count_append, List.map_map] at hc hs ⊢
    rw [hc, hs]
    have hterminal : s.terminal.toList.map Route.ctx =
        s.terminal.toList.map ((fun e : Entry => e.2.ctx) ∘ fun r => ([.end_], r)) := rfl
    have htrailing : s.trailing.toList.map Route.ctx =
        s.trailing.toList.map ((fun e : Entry => e.2.ctx) ∘ fun r => ([.trailing], r)) := rfl
    rw [hterminal, htrailing]
    omega

/-! ## What compiling retains -/

structure Retains (installed : Bool) (ctxs : List Nat) (w w' : World) : Prop where
  callbacks : w'.callbacks = w.callbacks ++ retained installed ctxs
  answers : w'.answers <:+ w.answers

theorem Retains.moves {ctxs : List Nat} {w w' : World} (h : Retains true ctxs w w') :
    Moves ctxs [] w w' := by
  refine ⟨fun ctx => ?_, fun ctx => ?_, h.answers⟩
  · rw [World.retains, h.callbacks, List.count_append, (count_retained true ctxs ctx).1]
    rfl
  · rw [World.releases, h.callbacks, List.count_append, (count_retained true ctxs ctx).2]
    rfl

theorem Quiet.retains {w w' : World} (h : Quiet w w') (installed : Bool) :
    Retains installed [] w w' := by
  refine ⟨?_, h.answers⟩
  rw [h.callbacks]
  cases installed <;> simp [retained]

theorem Retains.trans {installed : Bool} {l m : List Nat} {u v w : World}
    (h : Retains installed l u v) (h' : Retains installed m v w) :
    Retains installed (l ++ m) u w := by
  refine ⟨?_, h'.answers.trans h.answers⟩
  rw [h'.callbacks, h.callbacks]
  cases installed <;> simp [retained]

theorem retains_retain (w : World) (installed : Bool) (ctx : Nat) :
    Retains installed [ctx] w (w.retain installed ctx) := by
  refine ⟨?_, ⟨[], by rw [List.nil_append, retain_answers]⟩⟩
  rw [retain_callbacks]
  rfl

section Graph

variable {L : Libc} {literals params : Symbols} {retain : Bool}

theorem emitSymbols_world (l : List Segment) (e : Emit) :
    (emitSymbols L literals l e).world = e.world := by
  induction l generalizing e with
  | nil => rfl
  | cons c l ih =>
    rw [emitSymbols, ih]
    rfl

theorem node_retains (e : Emit) (n : Nat) (terminal : Option Route) :
    Retains retain (terminal.toList.map Route.ctx) e.world (e.node retain n terminal).world := by
  cases terminal with
  | none => exact (Quiet.refl _).retains retain
  | some r => exact retains_retain _ _ _

theorem specialEdge_world (e : Emit) (i : Nat) (sp : Special Segment) :
    (e.specialEdge L params i sp).world = e.world := by
  cases sp <;> rfl

theorem trailingEdge_world (e : Emit) (i : Nat) (trailing : Option Route) :
    (e.trailingEdge i trailing).world = e.world := by
  unfold Emit.trailingEdge
  split <;> rfl

theorem trailingNode_retains (e : Emit) (i : Nat) (trailing : Option Route) :
    Retains retain (trailing.toList.map Route.ctx) e.world
      (e.trailingNode retain i trailing).world := by
  cases trailing with
  | none => exact (Quiet.refl _).retains retain
  | some r => exact retains_retain _ _ _

theorem graphCompileChildren_retains {l : List Segment}
    (h : ∀ c ∈ l, ∀ e : Emit, Retains retain (c.routes.map fun e => e.2.ctx) e.world
      (graphCompile L literals params retain c e).2.world) (slot : Nat) (e : Emit) :
    Retains retain ((routesChildren l).map fun e => e.2.ctx) e.world
      (graphCompileChildren L literals params retain l slot e).world := by
  induction l generalizing slot e with
  | nil => exact (Quiet.refl _).retains retain
  | cons c l ih =>
    obtain ⟨hc, h⟩ := List.forall_mem_cons.mp h
    rw [graphCompileChildren, routesChildren, List.map_append, List.map_map]
    exact (hc e).trans (ih h (slot + 2) ((graphCompile L literals params retain c e).2.set
      (slot + 1) (graphCompile L literals params retain c e).1))

/-- Encoding a tree retains the context of each of its routes, once. -/
theorem graphCompile_retains {s : Segment} (hs : s.Sound) (e : Emit) :
    Retains retain (s.routes.map fun e => e.2.ctx) e.world
      (graphCompile L literals params retain s e).2.world := by
  induction hs generalizing e with
  | node s hn _ _ ihc ihp =>
    have hspecial (edge : Nat) (e : Emit) :
        Retains retain ((routesSpecial s.special).map fun e => e.2.ctx) e.world
          (graphCompileSpecial L literals params retain s.special edge e).world := by
      cases hc : s.special with
      | param p =>
        rw [routesSpecial, List.map_map]
        exact ihp p hc e
      | wildcard r => exact retains_retain _ _ _
      | _ => exact (Quiet.refl _).retains retain
    have hchildren (slot : Nat) (e : Emit) :
        Retains retain ((routesChildren s.children).map fun e => e.2.ctx) e.world
          (if s.childCount ≠ 0 then
            (graphCompileChildren L literals params retain s.children slot
              (emitSymbols L literals s.children e)).sortEdges L slot s.childCount
          else e).world := by
      split
      · have hworld := graphCompileChildren_retains ihc slot (emitSymbols L literals s.children e)
        rwa [emitSymbols_world] at hworld
      · rename_i hzero
        have hnil : s.children = [] := by
          rw [← List.length_eq_zero_iff, ← hn.count_eq]
          exact not_not.mp hzero
        rw [hnil]
        exact (Quiet.refl _).retains retain
    rw [graphCompile_eq, routes_eq]
    dsimp only
    simp only [List.map_append, List.map_map]
    refine Retains.trans (Retains.trans (Retains.trans ?_ (hchildren _ _)) (hspecial _ _))
      (trailingNode_retains _ _ _)
    rw [trailingEdge_world, specialEdge_world]
    exact node_retains _ _ _

end Graph

/-- Compiling retains the context of each route once, for the router. -/
theorem compileGraph_retains (L : Libc) {builder : Builder} (hs : builder.root.Sound)
    {router : Router} {retain : Bool} (hretain : router.retain = retain) (size : Nat) (w : World) :
    Retains retain (builder.root.routes.map fun e => e.2.ctx) w
      (compileGraph L builder router size w).world := by
  subst hretain
  exact graphCompile_retains hs ⟨List.replicate size 0, router.terminals, 0, w⟩

theorem Quiet.symbolsFree {w w' : World} (h : Quiet w w') (sym : Symbols) :
    Quiet w (symbolsFree sym w') :=
  (h.free _).free _

theorem Quiet.terminalsFree {w w' : World} (h : Quiet w w') (t : Terminals) :
    Quiet w (terminalsFree t w') :=
  (h.free _).free _

theorem quiet_symbolCompile (L : Libc) (tbl : SymbolTable) (w : World) :
    Quiet w (symbolCompile L tbl w).2.2 := by
  unfold symbolCompile
  dsimp only
  split
  · exact .refl w
  split
  · rename_i h
    dsimp only
    exact (quiet_of_malloc h).symbolsFree _
  rename_i h
  split
  · rename_i h'
    dsimp only
    exact ((quiet_of_malloc h).trans (quiet_of_malloc h')).symbolsFree _
  · rename_i h'
    exact (quiet_of_malloc h).trans (quiet_of_malloc h')

theorem quiet_terminalAlloc (t : Terminals) (n : Nat) (w : World) :
    Quiet w (terminalAlloc t n w).2.2 := by
  unfold terminalAlloc
  split
  · rename_i h
    dsimp only
    exact (quiet_of_malloc h).terminalsFree _
  rename_i h
  dsimp only
  split
  · rename_i h'
    dsimp only
    exact ((quiet_of_malloc h).trans (quiet_of_malloc h')).terminalsFree _
  · rename_i h'
    exact (quiet_of_malloc h).trans (quiet_of_malloc h')

theorem terminalAlloc_count (t : Terminals) (n : Nat) (w : World) :
    (terminalAlloc t n w).2.1.count = t.count := by
  unfold terminalAlloc
  split
  · rfl
  · dsimp only
    split <;> rfl

/-- What compiling leaves, where it comes to its end and where it does not. -/
theorem compileRouter_retains {L : Libc} {builder : Builder} {added : List Entry}
    (hb : builder.Holds added) (router : Router) (w : World) :
    let r := compileRouter L builder router w
    r.2.1.fallback = router.fallback ∧ r.2.1.release = router.release ∧
      Retains router.retain
        (if r.1 = .ok then builder.root.routes.map fun e => e.2.ctx else []) w r.2.2 ∧
      (r.1 ≠ .ok → r.2.1.terminals.count = router.terminals.count) := by
  intro r
  have hfailed {e : WrouterError} {w' : World} (he : e ≠ .ok) (hq : Quiet w w') :
      Retains router.retain
        (if e = .ok then builder.root.routes.map fun e => e.2.ctx else []) w w' := by
    rw [if_neg he]
    exact hq.retains _
  have hliterals := quiet_symbolCompile L builder.literals w
  have hparams := hliterals.trans (quiet_symbolCompile L builder.params _)
  have hterminals := hparams.trans (quiet_terminalAlloc router.terminals
    (graphStats builder.root .zero).terminals _)
  unfold r compileRouter
  dsimp only
  split
  · exact ⟨rfl, rfl, hfailed (by simp) (.refl w), fun _ => rfl⟩
  split
  · rename_i hne
    exact ⟨rfl, rfl, hliterals.retains _, fun _ => rfl⟩
  split
  · rename_i hne
    exact ⟨rfl, rfl, hparams.retains _, fun _ => rfl⟩
  split
  · exact ⟨rfl, rfl, hfailed (by simp) hterminals, fun _ => terminalAlloc_count _ _ _⟩
  split
  · rename_i hm
    exact ⟨rfl, rfl, hfailed (by simp) (hterminals.trans (quiet_of_malloc hm)),
      fun _ => terminalAlloc_count _ _ _⟩
  · rename_i hm
    refine ⟨rfl, rfl, ?_, fun h => absurd rfl h⟩
    rw [if_pos rfl]
    dsimp only
    exact ((hterminals.trans (quiet_of_malloc hm)).retains _).trans
      (compileGraph_retains L hb.sound (by rfl) _ _)

/-! ## What freeing releases -/

/-- A router is freed by a walk over its dictionary. -/
theorem wrouterFree_moves {r : Router} (hrelease : r.release = true) (w : World) :
    Moves [] r.holders w (wrouterFree (some r) w) := by
  have hwalk : (w.release r.release r.fallback.ctx).releaseAll true
      ((r.terminals.baseData.take r.terminals.count).map Route.ctx) =
        w.releaseAll true r.holders := by
    rw [hrelease]
    rfl
  have hfree : Quiet (w.releaseAll true r.holders) (wrouterFree (some r) w) := by
    unfold wrouterFree
    dsimp only
    rw [← hwalk, World.releaseAll, List.foldl_map, hrelease]
    exact (((((Quiet.refl _).symbolsFree _).symbolsFree _).terminalsFree _).free _).free _
  simpa using (releaseAll_moves w r.holders).trans hfree.moves

/-- A builder is freed by a walk over its tree. -/
theorem wrouterBuilderFree_moves {b : Builder} (hwhole : b.root.whole = true)
    (hrelease : b.release = true) (w : World) :
    ∃ w', wrouterBuilderFree (some b) w = some w' ∧ Moves [] b.holders w w' := by
  refine ⟨_, by rw [wrouterBuilderFree_eq hrelease, if_pos hwhole], ?_⟩
  have hmoves := releaseAll_moves w (b.root.held ++ [b.fallback.ctx])
  refine ⟨hmoves.retains, fun ctx => ?_, hmoves.answers⟩
  rw [hmoves.releases, ((List.perm_append_singleton _ _).trans
    ((held_perm b.root).cons _)).count_eq]
  rfl

/-! ## Calls -/

/-- Compiling retains the contexts of the router it returns; where it returns none, it has
released again whatever it retained. -/
theorem wrouterCompile_moves (L : Libc) {b : Builder} (hb : b.Usable) (hretain : b.retain = true)
    (hrelease : b.release = true) (w : World) :
    let r := wrouterCompile L (some b) w
    (r.1 = none ∧ ∃ ctxs, Moves ctxs ctxs w r.2.2) ∨
      ∃ router, r.1 = some router ∧ router.release = true ∧ Moves router.holders [] w r.2.2 := by
  intro r
  unfold r wrouterCompile
  dsimp only
  cases hcorrupted : b.corrupted with
  | true => exact Or.inl ⟨rfl, [], (Quiet.refl w).moves⟩
  | false =>
    obtain ⟨es, hes⟩ := hb hcorrupted
    rw [if_neg (by simp)]
    split
    · rename_i hm
      exact Or.inl ⟨rfl, [], (quiet_of_malloc hm).moves⟩
    rename_i block w₁ hm
    obtain ⟨hfallback, hrel, hmade, hcount⟩ := compileRouter_retains (L := L) hes
      ⟨block, none, .zero, .zero, .zero, b.fallback, 0, 0, 0, b.retain, b.release⟩
      (w₁.retain b.retain b.fallback.ctx)
    have hstart := (quiet_of_malloc hm).moves.trans (retains_retain w₁ true b.fallback.ctx).moves
    generalize hc : compileRouter L b _ _ = c at *
    dsimp only at hmade
    rw [hretain] at hmade
    split
    · rename_i hne
      rw [if_neg hne] at hmade
      have hholders : c.2.1.holders = [b.fallback.ctx] := by
        rw [Router.holders, hcount hne, hfallback]
        rfl
      have hfree := wrouterFree_moves (hrel.trans hrelease) c.2.2
      rw [hholders] at hfree
      exact Or.inl ⟨rfl, [b.fallback.ctx], (hstart.trans hmade.moves).trans hfree⟩
    · rename_i hok
      rw [if_pos (not_not.mp hok)] at hmade
      have hholders : c.2.1.holders = b.fallback.ctx :: b.root.routes.map fun e => e.2.ctx := by
        have hfrom := compileRouter_ok rfl rfl rfl (hc.trans (Prod.ext (not_not.mp hok) rfl))
        rw [Router.holders, (terminals_of_compiled hes hfrom).routes, terms_routes hes.sound,
          hfallback, List.map_map]
        rfl
      refine Or.inr ⟨c.2.1, rfl, hrel.trans hrelease, ?_⟩
      rw [hholders]
      exact hstart.trans hmade.moves

/-! ## What a router can return -/

theorem matchStep_route {L : Libc} {router : Router} {g : List Nat} {s s' : MatchState}
    {route : Route} (h : matchStep L router g s = .done (some route) s') :
    route ∈ router.terminals.baseData.take router.terminals.count := by
  unfold matchStep at h
  dsimp only at h
  split at h
  · split at h
    · simp at h
    split at h
    · simp at h
    split at h
    · exact terminalLookup_mem (MatchStep.done.inj h).1
    · simp [MatchState.notFound] at h
  · split at h
    · exact terminalLookup_mem (MatchStep.done.inj h).1
    · simp [MatchState.notFound] at h
  · split at h
    · exact terminalLookup_mem (MatchStep.done.inj h).1
    · simp [MatchState.notFound] at h
  · simp [MatchState.notFound] at h

theorem matchLoop_route {L : Libc} {router : Router} {g : List Nat} {fuel : Nat}
    {s s' : MatchState} {route : Route}
    (h : matchLoop L router g fuel s = some (some route, s')) :
    route ∈ router.terminals.baseData.take router.terminals.count := by
  induction fuel generalizing s with
  | zero => simp [matchLoop] at h
  | succ fuel ih =>
    rw [matchLoop] at h
    split at h
    · rename_i hstep
      simp only [Option.some.injEq, Prod.mk.injEq] at h
      rw [h.1] at hstep
      exact matchStep_route hstep
    · exact ih h

/-- A request is answered with a context that the router holds. -/
theorem wrouterNresolve_holders {L : Libc} {d d' : Dispatcher} {path : Bytes} {ctx : Nat}
    (h : wrouterNresolve L d path = some (ctx, d')) : ctx ∈ d.router.holders := by
  obtain ⟨r, hr, hctx⟩ := Option.map_eq_some_iff.mp h
  have hr := (Dispatcher.request_some.mp hr).1
  rw [← (Prod.mk.inj hctx).1, Router.holders]
  cases hroute : r.route with
  | none => exact List.mem_cons_self
  | some route =>
    refine List.mem_cons_of_mem _ (List.mem_map.mpr ⟨route, ?_, rfl⟩)
    unfold resolveRequest routeMatch at hr
    dsimp only at hr
    split at hr
    · obtain rfl := Option.some.inj hr
      simp at hroute
    · obtain ⟨m, hm, hmr⟩ := Option.map_eq_some_iff.mp hr
      have hm' : m.1 = some route := by rw [← hroute, ← hmr]
      exact matchLoop_route (hm.trans (congrArg some (Prod.ext hm' rfl)))

/-! ## Runs -/

/-- A builder that counts its references: whatever its calls did, it can be torn down. -/
structure Builder.Counted (b : Builder) : Prop where
  usable : b.Usable
  whole : b.root.whole = true
  retain : b.retain = true
  release : b.release = true
  arena : b.params.arena.Ok

/-- Every context was retained once more than released for each of its holders. -/
structure Session.Balanced (s : Session) : Prop where
  builder : ∀ b, s.builder = some b → b.Counted
  routers : ∀ r ∈ s.routers, r.release = true
  noFail : s.world.NoFail
  balance : ∀ ctx, s.world.retains ctx = s.world.releases ctx + s.holders.count ctx

section Step

variable {L : Libc} {s : Session} (hs : s.Balanced)

include hs

/-- The world moves with the holders. -/
theorem balanced_moves {s' : Session} {up down : List Nat} (h : Moves up down s.world s'.world)
    (hholders : (s'.holders ++ down).Perm (s.holders ++ up))
    (hbuilder : ∀ b, s'.builder = some b → b.Counted)
    (hrouters : ∀ r ∈ s'.routers, r.release = true) : s'.Balanced := by
  refine ⟨hbuilder, hrouters, noFail_of_suffix hs.noFail h.answers, fun ctx => ?_⟩
  have hold := hs.balance ctx
  have hcount := hholders.count_eq ctx
  rw [List.count_append, List.count_append] at hcount
  rw [h.retains, h.releases]
  omega

/-- A call that succeeds retains the context it adds, and one that fails leaves no holder. -/
theorem balanced_addRoute {b : Builder} (hb : s.builder = some b) (pattern : Option Bytes)
    (route : Route) : let r := wrouterAddRoute b pattern route s.world
    r.2.1.params.count < 65535 →
      Session.Balanced { s with builder := some r.2.1, world := r.2.2 } := by
  intro r hroom
  have hcounted := hs.builder b hb
  have h : CallEffect b route s.world r _ :=
    wrouterAddRoute_effect hcounted.usable pattern route s.world
  have hkept : b.losesEdge pattern s.world = false := by
    by_contra hlost
    have := h.full hs.noFail hcounted.arena (by simpa using hlost)
    omega
  have hup : Retains true (gained route r.1) s.world r.2.2 :=
    ⟨by rw [h.callbacks, hcounted.retain], h.answers⟩
  refine balanced_moves hs hup.moves ?_ (fun c hc => ?_) hs.routers
  · have hheld := (held_perm r.2.1.root).symm.trans
      (h.held.trans ((held_perm b.root).append_left _))
    rw [List.append_nil, Session.holders, Session.holders, hb, List.perm_iff_count]
    intro ctx
    have hcount := hheld.count_eq ctx
    simp only [List.count_append, Option.toList_some, List.flatMap_cons, List.flatMap_nil,
      Builder.holders, List.count_cons, List.count_nil, h.fallback] at hcount ⊢
    omega
  · obtain rfl := Option.some.inj hc
    refine ⟨h.usable, ?_, h.retain.trans hcounted.retain, h.release.trans hcounted.release,
      h.params.arena hcounted.arena⟩
    rw [h.whole, hcounted.whole, hkept]
    rfl

/-- A router that was made holds what it retained, and a failed one gave it back. -/
theorem balanced_compile : let r := wrouterCompile L s.builder s.world
    Session.Balanced { s with routers := s.routers ++ r.1.toList, world := r.2.2 } := by
  intro r
  have hcases : (r.1 = none ∧ ∃ ctxs, Moves ctxs ctxs s.world r.2.2) ∨
      ∃ router, r.1 = some router ∧ router.release = true ∧
        Moves router.holders [] s.world r.2.2 := by
    unfold r
    cases hb : s.builder with
    | none => exact Or.inl ⟨rfl, [], (Quiet.refl _).moves⟩
    | some b =>
      have hcounted := hs.builder b hb
      exact wrouterCompile_moves L hcounted.usable hcounted.retain hcounted.release s.world
  rcases hcases with ⟨hnone, ctxs, hmoves⟩ | ⟨router, hsome, hrelease, hmoves⟩
  · rw [hnone, Option.toList_none, List.append_nil]
    exact balanced_moves hs hmoves (.refl _) hs.builder hs.routers
  · rw [hsome, Option.toList_some]
    refine balanced_moves hs hmoves ?_ hs.builder (fun q hq => ?_)
    · simp [Session.holders]
    · rcases List.mem_append.mp hq with hq | hq
      · exact hs.routers q hq
      · rw [List.mem_singleton.mp hq]
        exact hrelease

/-- The builder releases what it held, once. -/
theorem balanced_builderFree : ∃ w, wrouterBuilderFree s.builder s.world = some w ∧
    Session.Balanced { s with builder := none, world := w } := by
  cases hb : s.builder with
  | none =>
    refine ⟨s.world, rfl, ?_⟩
    rw [← hb]
    exact hs
  | some b =>
    have hcounted := hs.builder b hb
    obtain ⟨w, hfree, hmoves⟩ := wrouterBuilderFree_moves hcounted.whole hcounted.release s.world
    refine ⟨w, hfree, balanced_moves hs hmoves ?_ (by simp) hs.routers⟩
    rw [Session.holders, Session.holders, hb]
    simpa using List.perm_append_comm

/-- So does a router. -/
theorem balanced_routerFree (i : Nat) : Session.Balanced
    { s with routers := s.routers.eraseIdx i, world := wrouterFree s.routers[i]? s.world } := by
  have hkeep : ∀ r ∈ s.routers.eraseIdx i, r.release = true :=
    fun r hr => hs.routers r (List.mem_of_mem_eraseIdx hr)
  by_cases hi : i < s.routers.length
  · have hget := List.getElem?_eq_getElem hi
    rw [hget]
    refine balanced_moves hs
      (wrouterFree_moves (hs.routers _ (List.getElem_mem hi)) s.world) ?_ hs.builder hkeep
    have hperm := (List.getElem_cons_eraseIdx_perm hi).flatMap_right Router.holders
    rw [List.perm_iff_count]
    intro ctx
    have hcount := hperm.count_eq ctx
    simp only [Session.holders, List.flatMap_cons, List.count_append, List.count_nil] at hcount ⊢
    omega
  · rw [List.getElem?_eq_none (Nat.le_of_not_lt hi), List.eraseIdx_of_length_le (Nat.le_of_not_lt hi)]
    exact hs

/-- No call upsets the balance, and none breaks off. -/
theorem balanced_call (c : Call) : ∃ s', s.call L c = some s' ∧ (s'.room → s'.Balanced) := by
  cases c with
  | addRoute pattern route =>
    cases hb : s.builder with
    | none => exact ⟨s, by simp [Session.call, hb], fun _ => hs⟩
    | some b =>
      have hadd := balanced_addRoute hs hb pattern route
      exact ⟨_, by simp only [Session.call, hb], fun hroom => hadd (of_decide_eq_true hroom)⟩
  | compile => exact ⟨_, rfl, fun _ => balanced_compile hs⟩
  | builderFree =>
    obtain ⟨w, hfree, hbalanced⟩ := balanced_builderFree hs
    exact ⟨_, by rw [Session.call, hfree]; rfl, fun _ => hbalanced⟩
  | routerFree i => exact ⟨_, rfl, fun _ => balanced_routerFree hs i⟩

/-- The run lemma, by induction on the calls. -/
theorem balanced_run (calls : List Call) (hroom : s.roomLeft L calls) :
    ∃ s', s.run L calls = some s' ∧ s'.Balanced := by
  induction calls generalizing s with
  | nil => exact ⟨s, rfl, hs⟩
  | cons c calls ih =>
    obtain ⟨s', hcall, hbalanced⟩ := balanced_call (L := L) hs c
    rw [Session.roomLeft, hcall, Option.all_some, Bool.and_eq_true] at hroom
    obtain ⟨s'', hrun, hend⟩ := ih (hbalanced hroom.1) hroom.2
    exact ⟨s'', by rw [Session.run, hcall]; exact hrun, hend⟩

end Step

/-- With both callbacks installed, a builder starts with its fallback retained. -/
theorem balanced_create {options : Options} (hretain : options.retain = true)
    (hrelease : options.release = true) {answers : List (Option Nat)} (hanswers : none ∉ answers) :
    (Session.create options ⟨answers, 0, []⟩).Balanced := by
  have hnoFail : World.NoFail ⟨answers, 0, []⟩ := hanswers
  obtain ⟨b, w, hcreate⟩ : ∃ b w, wrouterBuilderCreate options ⟨answers, 0, []⟩ = (some b, w) := by
    obtain ⟨_, w₁, hm, hw₁⟩ := malloc_some hnoFail 1
    have hw₁' : (w₁.retain options.retain options.fallbackCtx).NoFail := by
      rwa [World.NoFail, retain_answers]
    obtain ⟨_, w₂, hm', -⟩ := malloc_some hw₁' 1
    exact ⟨.fresh options, w₂, by simp only [wrouterBuilderCreate, hm]; rw [Builder.fresh, hm']⟩
  obtain ⟨hb, hcallbacks, hsuffix⟩ := wrouterBuilderCreate_fresh hcreate
  have hmoves : Retains true [options.fallbackCtx] ⟨answers, 0, []⟩ w := by
    rw [hretain] at hcallbacks
    exact ⟨hcallbacks, hsuffix⟩
  rw [Session.create, hcreate]
  refine ⟨fun c hc => ?_, by simp, noFail_of_suffix hnoFail hsuffix, fun ctx => ?_⟩
  · obtain rfl := Option.some.inj hc
    refine ⟨fun _ => ⟨[], (wrouterBuilderCreate_holds hcreate).1⟩, ?_, ?_, ?_, ?_⟩
    all_goals rw [hb]
    · rfl
    · exact hretain
    · exact hrelease
    · exact fun h => absurd rfl h
  · rw [hmoves.moves.retains, hmoves.moves.releases, hb]
    rfl

/-- After any calls, each context was retained once more than released for every holder it
has in the live builder and the live routers. So once all are freed the two are even, and
what a live router returns is not released to the last. -/
theorem references_balanced (L : Libc) {options : Options} (hretain : options.retain = true)
    (hrelease : options.release = true) {answers : List (Option Nat)} (hanswers : none ∉ answers)
    (calls : List Call) (hroom : (Session.create options ⟨answers, 0, []⟩).roomLeft L calls) :
    ∃ s, (Session.create options ⟨answers, 0, []⟩).run L calls = some s ∧
      (∀ ctx, s.world.retains ctx = s.world.releases ctx + s.holders.count ctx) ∧
      (s.builder = none → s.routers = [] → ∀ ctx, s.world.retains ctx = s.world.releases ctx) ∧
      ∀ r ∈ s.routers, ∀ (d d' : Dispatcher) (path : Bytes) (ctx : Nat), d.router = r →
        wrouterNresolve L d path = some (ctx, d') → s.world.releases ctx < s.world.retains ctx := by
  obtain ⟨s, hrun, hs⟩ := balanced_run (balanced_create hretain hrelease hanswers) calls hroom
  refine ⟨s, hrun, hs.balance, fun hbuilder hrouters ctx => ?_, fun r hr d d' path ctx hd h => ?_⟩
  · rw [hs.balance, Session.holders, hbuilder, hrouters]
    rfl
  · have hmem : ctx ∈ s.holders :=
      List.mem_append_right _ (List.mem_flatMap.mpr ⟨r, hr, hd ▸ wrouterNresolve_holders h⟩)
    have hpos := List.count_pos_iff.mpr hmem
    have hbalance := hs.balance ctx
    omega

/-- Two routers of one builder, the second made after more routes; a failed call corrupts
the builder, and everything is freed out of order. -/
def scenario : List Call :=
  [.addRoute (some (ascii "/a")) ⟨0, 1⟩, .addRoute (some (ascii "/b/:x")) ⟨0, 2⟩, .compile,
    .addRoute (some (ascii "/*")) ⟨0, 1⟩, .compile, .addRoute (some (ascii "/:y")) ⟨0, 3⟩,
    .compile, .routerFree 0, .builderFree, .compile, .routerFree 0]

/-- Everything freed: as many releases as retains, and none of a context that was refused. -/
theorem references_balanced_scenario : ∃ s,
    (Session.create countingOptions .empty).run .reference scenario = some s ∧
      s.builder = none ∧ s.routers = [] ∧ s.world.retains 1 = 5 ∧ s.world.releases 1 = 5 ∧
      s.world.retains 3 = 0 := by
  obtain ⟨s, hrun, -, heven, -⟩ := references_balanced .reference
    (show countingOptions.retain = true from rfl) rfl (show none ∉ [] by simp) scenario
    (by decide +kernel)
  have hstate : ((Session.create countingOptions .empty).run .reference scenario).any fun s =>
      s.builder.isNone && s.routers.isEmpty && s.world.retains 1 == 5 &&
        s.world.retains 3 == 0 := by
    decide +kernel
  have hrun' : (Session.create countingOptions .empty).run .reference scenario = some s := hrun
  rw [hrun', Option.any_some] at hstate
  simp only [Bool.and_eq_true, Option.isNone_iff_eq_none, List.isEmpty_iff, beq_iff_eq] at hstate
  obtain ⟨⟨⟨hbuilder, hrouters⟩, hones⟩, hthrees⟩ := hstate
  exact ⟨s, hrun', hbuilder, hrouters, hones, heven hbuilder hrouters 1 ▸ hones, hthrees⟩

end Wrouter
