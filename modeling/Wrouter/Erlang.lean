import Wrouter.Callbacks
import Wrouter.Lib.Handles

/-!
# The Erlang binding

`new_nif` builds a router from a list of patterns and terms, `resolve_nif` asks it. A term is
copied into a context with a reference count of its own, which the callbacks of the library move
up and down; the last release frees it.
-/
namespace Wrouter

open CLib Handles Machine Runs

/-! ## Contexts -/

/-- `route_context_t`; what was freed stays on the list to be told apart. -/
structure RouteContext (τ : Type) where
  term : τ
  refs : Nat
  freed : Bool
  deriving DecidableEq, Repr

/-- What must not happen: a null pointer is followed, a block is freed again, a freed context is
used, or a request leaves its buffer. -/
inductive Fault where
  | nullPointer
  | doubleFree
  | deadContext
  | undefined
  deriving DecidableEq, Repr

/-- The contexts by their pointers, what the runtime answers to its allocations (an exhausted
list answers yes), and the library's world. -/
structure Nif (τ : Type) where
  contexts : List (RouteContext τ)
  grants : List Bool
  world : World
  deriving DecidableEq, Repr

variable {τ : Type}

def Nif.alloc (n : Nif τ) : Bool × Nif τ :=
  match n.grants with
  | [] => (true, n)
  | granted :: rest => (granted, { n with grants := rest })

def RouteContext.retain (c : RouteContext τ) : RouteContext τ :=
  { c with refs := addWord 32 c.refs 1 }

def RouteContext.free (c : RouteContext τ) : RouteContext τ := { c with freed := true }

def RouteContext.release (c : RouteContext τ) : RouteContext τ :=
  let refs := if c.refs > 0 then c.refs - 1 else c.refs
  if refs = 0 then { c with refs := refs }.free else { c with refs := refs }

def onContext (f : RouteContext τ → RouteContext τ) (contexts : List (RouteContext τ)) (ctx : Nat) :
    Except Fault (List (RouteContext τ)) :=
  touch .deadContext RouteContext.freed f contexts ctx

def routeContextCreate (term : τ) (n : Nif τ) : Option Nat × Nif τ :=
  match n.alloc with
  | (false, n) => (none, n)
  | (true, n) =>
    match n.alloc with
    | (false, n) => (none, n)
    | (true, n) =>
      (some (n.contexts.length + 1), { n with contexts := n.contexts ++ [⟨term, 0, false⟩] })

def routeContextFree (ctx : Nat) (n : Nif τ) : Except Fault (Nif τ) :=
  (onContext .free n.contexts ctx).map fun contexts => { n with contexts := contexts }

/-- `route_context_retain` and `route_context_release`, as the library calls them. -/
def onCallback (contexts : List (RouteContext τ)) : Event → Except Fault (List (RouteContext τ))
  | .retain ctx => onContext .retain contexts ctx
  | .release ctx => onContext .release contexts ctx
  | _ => .ok contexts

/-- The library leaves its world with the callbacks it made. It never looks at a context itself,
so they may as well be carried out now. -/
def Nif.listen (n : Nif τ) (w : World) : Except Fault (Nif τ) :=
  ((w.callbacks.drop n.world.callbacks.length).foldlM onCallback n.contexts).map fun contexts =>
    { n with contexts := contexts, world := w }

/-! ## `new_nif` -/

/-- An element of the list: a pair of a pattern, in bytes where it is an iolist, and a term. The
end of an improper list is one of the others. -/
inductive Element (τ : Type) where
  | pair (pattern : Option Bytes) (term : τ)
  | other
  deriving DecidableEq, Repr

inductive NewReply (ρ : Type) where
  | badarg
  | error (reason : String)
  | ok (router : ρ)
  deriving DecidableEq, Repr

def makeError {ρ : Type} (badarg : ρ) (error : String → ρ) (reason : String) (n : Nif τ) : ρ × Nif τ :=
  match n.alloc with
  | (false, n) => (badarg, n)
  | (true, n) => (error reason, n)

def giveUp (reply : Nif τ → NewReply Router × Nif τ) (b : HeapBuilder) (n : Nif τ) :
    Except Fault (NewReply Router × Nif τ) :=
  match heapBuilderFree b n.world with
  | none => .error .nullPointer
  | some w => (n.listen w).map reply

def newRouter (L : Libc) (b : HeapBuilder) (n : Nif τ) : Except Fault (NewReply Router × Nif τ) :=
  if freesTwice n.world (wrouterCompile L (some b.erase) n.world).2.2 then .error .doubleFree
  else match wrouterConsume L (some b) n.world with
  | none => .error .nullPointer
  | some (router, e, w) => do
    let n ← n.listen w
    if e ≠ .ok then pure (makeError .badarg .error (wrouterStrerror e) n)
    else match n.alloc, router with
      | (false, n), router =>
        (n.listen (wrouterFree router n.world)).map
          (makeError .badarg .error (wrouterStrerror .noMemory))
      | (true, n), some router => pure (.ok router, n)
      | (true, _), none => .error .nullPointer

def newRoutes (L : Libc) : List (Element τ) → HeapBuilder → Nif τ →
    Except Fault (NewReply Router × Nif τ)
  | [], b, n => newRouter L b n
  | .other :: _, b, n => giveUp (.badarg, ·) b n
  | .pair none _ :: _, b, n => giveUp (.badarg, ·) b n
  | .pair (some pattern) term :: rest, b, n =>
    match n.alloc with
    | (false, n) => giveUp (.badarg, ·) b n
    | (true, n) =>
      match routeContextCreate term n with
      | (none, n) => giveUp (makeError .badarg .error (wrouterStrerror .noMemory)) b n
      | (some ctx, n) =>
        let r := heapAddRoute b (some pattern) ⟨0, ctx⟩ n.world
        do
          let n ← n.listen r.2.2
          if r.1 = .ok then newRoutes L rest r.2.1 n
          else do
            let n ← routeContextFree ctx n
            giveUp (makeError .badarg .error (wrouterStrerror r.1)) r.2.1 n

def nifOptions : Options := ⟨0, 0, .colon, true, true⟩

def newNif (L : Libc) (list : List (Element τ)) (n : Nif τ) :
    Except Fault (NewReply Router × Nif τ) :=
  match heapBuilderCreate nifOptions n.world with
  | none => .error .nullPointer
  | some (none, w) =>
    (n.listen w).map (makeError .badarg .error (wrouterStrerror .noMemory))
  | some (some b, w) => do
    let n ← n.listen w
    newRoutes L list b n

/-- The calls that add a route, one for each pair as long as the runtime has memory; `k` contexts
were made before. -/
def newAdds : List (Element τ) → List Bool → Nat → List (Option Bytes × Route)
  | .pair (some pattern) _ :: rest, grants, k =>
    if (grants.take 3).all id then
      (some pattern, ⟨0, k + 1⟩) :: newAdds rest (grants.drop 3) (k + 1)
    else []
  | _, _, _ => []

def routerResourceDtor (router : Router) (n : Nif τ) : Except Fault (Nif τ) :=
  n.listen (wrouterFree (some router) n.world)

/-! ## `resolve_nif` -/

inductive ResolveReply (τ : Type) where
  | badarg
  | error (reason : String)
  | notFound
  | ok (term : τ) (params : List (Bytes × Bytes))
  deriving DecidableEq, Repr

/-- `enif_make_map_put`; a map keeps its last value for a key. -/
def mapPut (map : List (Bytes × Bytes)) (key value : Bytes) : List (Bytes × Bytes) :=
  map.filter (fun e => e.1 ≠ key) ++ [(key, value)]

/-- A binary for the name, a binary for the value, and the map with both. -/
def makeParams : List Param → List (Bytes × Bytes) → Nif τ → Option (List (Bytes × Bytes)) × Nif τ
  | [], map, n => (some map, n)
  | p :: ps, map, n =>
    match n.alloc with
    | (false, n) => (none, n)
    | (true, n) =>
      match n.alloc with
      | (false, n) => (none, n)
      | (true, n) => makeParams ps (mapPut map p.nameText p.valueText) n

/-- A match: copy the term, then make the map of the parameters. -/
def resolved (ctx : Nat) (params : Params) (n : Nif τ) : Except Fault (ResolveReply τ × Nif τ) :=
  match n.contexts[ctx - 1]? with
  | none => .error .deadContext
  | some c =>
    if c.freed then .error .deadContext
    else
      let r := makeParams params.list [] n
      .ok (r.1.elim .badarg (.ok c.term), r.2)

/-- The path is given as bytes where it is an iolist. -/
def resolveNif (L : Libc) (router : Router) (path : Option Bytes) (n : Nif τ) :
    Except Fault (ResolveReply τ × Nif τ) :=
  match path with
  | none => .ok (.badarg, n)
  | some path =>
    match n.alloc with
    | (false, n) => .ok (.badarg, n)
    | (true, n) =>
      match heapDispatcherCreate router n.world with
      | (none, w) =>
        .ok (makeError .badarg .error (wrouterStrerror .noMemory) { n with world := w })
      | (some d, w) =>
        match wrouterNresolve L d.data path with
        | none => .error .undefined
        | some (ctx, data) =>
          let n := { n with world := w }
          let free (n : Nif τ) :=
            { n with world := wrouterDispatcherFree (some ⟨d.block, data⟩) n.world }
          if ctx = 0 then .ok (.notFound, free n)
          else (resolved ctx data.params n).map fun r => (r.1, free r.2)

def resolveAll (L : Libc) (router : Router) : List (Option Bytes) → Nif τ →
    Except Fault (List (ResolveReply τ) × Nif τ)
  | [], n => .ok ([], n)
  | path :: rest, n => do
    let r ← resolveNif L router path n
    let rs ← resolveAll L router rest r.2
    pure (r.1 :: rs.1, rs.2)

/-! ## Contexts and their holders -/

theorem alloc_keeps {n n' : Nif τ} {granted : Bool} (h : n.alloc = (granted, n')) :
    n'.contexts = n.contexts ∧ n'.world = n.world := by
  unfold Nif.alloc at h
  split at h <;> obtain ⟨-, rfl⟩ := Prod.mk.inj h <;> exact ⟨rfl, rfl⟩

theorem makeError_keeps {ρ : Type} (badarg : ρ) (error : String → ρ) (reason : String) (n : Nif τ) :
    (makeError badarg error reason n).2.contexts = n.contexts := by
  rw [makeError]
  rcases halloc : n.alloc with ⟨_ | _, n'⟩ <;> exact (alloc_keeps halloc).1

theorem routeContextCreate_none {term : τ} {n n' : Nif τ}
    (h : routeContextCreate term n = (none, n')) : n'.contexts = n.contexts := by
  unfold routeContextCreate at h
  rcases hfirst : n.alloc with ⟨_ | _, n₁⟩ <;> rw [hfirst] at h
  · obtain ⟨-, rfl⟩ := Prod.mk.inj h
    exact (alloc_keeps hfirst).1
  dsimp only at h
  rcases hsecond : n₁.alloc with ⟨_ | _, n₂⟩ <;> rw [hsecond] at h
  · obtain ⟨-, rfl⟩ := Prod.mk.inj h
    exact (alloc_keeps hsecond).1.trans (alloc_keeps hfirst).1
  · simp at h

theorem routeContextCreate_some {term : τ} {n n' : Nif τ} {ctx : Nat}
    (h : routeContextCreate term n = (some ctx, n')) : ctx = n.contexts.length + 1 ∧
      n'.contexts = n.contexts ++ [⟨term, 0, false⟩] ∧ n'.world = n.world := by
  unfold routeContextCreate at h
  rcases hfirst : n.alloc with ⟨_ | _, n₁⟩ <;> rw [hfirst] at h
  · simp at h
  dsimp only at h
  rcases hsecond : n₁.alloc with ⟨_ | _, n₂⟩ <;> rw [hsecond] at h
  · simp at h
  · obtain ⟨hcontexts, hworld⟩ := alloc_keeps hsecond
    rw [(alloc_keeps hfirst).1] at hcontexts
    rw [(alloc_keeps hfirst).2] at hworld
    simp only [Prod.mk.injEq, Option.some.injEq, hcontexts] at h
    obtain ⟨rfl, rfl⟩ := h
    exact ⟨rfl, rfl, hworld⟩

/-- Three allocations make a context of a pair. -/
theorem pair_granted {n n₁ n₂ : Nif τ} {term : τ} {granted : Bool} {ctx : Option Nat}
    (halloc : n.alloc = (granted, n₁)) (hcreate : routeContextCreate term n₁ = (ctx, n₂)) :
    (n.grants.take 3).all id = (granted && ctx.isSome) ∧
      (granted = true → ctx.isSome → n₂.grants = n.grants.drop 3) := by
  obtain ⟨contexts, grants, w⟩ := n
  rcases grants with _ | ⟨_ | _, _ | ⟨_ | _, _ | ⟨_ | _, rest⟩⟩⟩ <;>
    obtain ⟨rfl, rfl⟩ := Prod.mk.inj halloc <;> obtain ⟨rfl, rfl⟩ := Prod.mk.inj hcreate <;>
    simp

/-- To listen is to carry out the callbacks that were made since. -/
theorem listen_eq {n : Nif τ} {w : World} {events : List Event}
    (h : w.callbacks = n.world.callbacks ++ events) :
    n.listen w = (events.foldlM onCallback n.contexts).map fun contexts =>
      { n with contexts := contexts, world := w } := by
  rw [Nif.listen, h, List.drop_left]

theorem listen_quiet {n : Nif τ} {w : World} (h : w.callbacks = n.world.callbacks) :
    n.listen w = .ok { n with world := w } := by
  rw [listen_eq (h.trans (List.append_nil _).symm)]
  rfl

/-- Retains of contexts are accesses to them, one after the other. -/
theorem foldlM_retain (ctxs : List Nat) (cs : List (RouteContext τ)) :
    (ctxs.map Event.retain).foldlM onCallback cs =
      ctxs.foldlM (touch .deadContext RouteContext.freed .retain) cs := List.foldlM_map

theorem foldlM_release (ctxs : List Nat) (cs : List (RouteContext τ)) :
    (ctxs.map Event.release).foldlM onCallback cs =
      ctxs.foldlM (touch .deadContext RouteContext.freed .release) cs := List.foldlM_map

theorem retain_fresh (term : τ) : RouteContext.retain ⟨term, 0, false⟩ = ⟨term, 1, false⟩ := by
  simp [RouteContext.retain, addWord]

theorem retain_held (term : τ) : RouteContext.retain ⟨term, 1, false⟩ = ⟨term, 2, false⟩ := by
  simp [RouteContext.retain, addWord]

theorem release_held (term : τ) : RouteContext.release ⟨term, 2, false⟩ = ⟨term, 1, false⟩ := rfl

theorem release_last (term : τ) : RouteContext.release ⟨term, 1, false⟩ = ⟨term, 0, true⟩ := rfl

structure Backed (ctxs : List Nat) (n : Nif τ) : Prop where
  distinct : (ctxs.filter (· ≠ 0)).Nodup
  live : ∀ i, i + 1 ∈ ctxs → ∃ term, n.contexts[i]? = some ⟨term, 1, false⟩
  gone : ∀ i c, n.contexts[i]? = some c → i + 1 ∉ ctxs → c.freed = true

def Nif.Retired (n : Nif τ) : Prop := ∀ c ∈ n.contexts, c.freed = true

section Backed

variable {ctxs : List Nat} {n : Nif τ} (h : Backed ctxs n)

include h

theorem Backed.perm {ctxs' : List Nat} (hperm : ctxs.Perm ctxs') : Backed ctxs' n :=
  ⟨(hperm.filter _).nodup_iff.mp h.distinct, fun i hi => h.live i (hperm.mem_iff.mpr hi),
    fun i c hc hi => h.gone i c hc (mt hperm.mem_iff.mp hi)⟩

theorem Backed.congr {n' : Nif τ} (hcontexts : n'.contexts = n.contexts) : Backed ctxs n' := by
  refine ⟨h.distinct, ?_, ?_⟩ <;> rw [hcontexts]
  · exact h.live
  · exact h.gone

theorem Backed.bound {i : Nat} (hi : i + 1 ∈ ctxs) : i < n.contexts.length := by
  obtain ⟨term, hterm⟩ := h.live i hi
  exact (List.getElem?_eq_some_iff.mp hterm).1

/-- Contexts that have a holder are there to be accessed. -/
theorem Backed.calls (f : RouteContext τ → RouteContext τ) : ctxs.foldlM
    (touch Fault.deadContext RouteContext.freed f) n.contexts = .ok (touched f ctxs n.contexts) := by
  refine foldlM_touch _ _ _ h.distinct fun i hi => ?_
  obtain ⟨term, hterm⟩ := h.live i hi
  exact ⟨_, hterm, rfl⟩

/-- The last release of each, after calls that come to nothing. -/
theorem Backed.dropped {w : World} (events : List Event)
    (hidle : events.foldlM onCallback n.contexts = .ok n.contexts)
    (hw : w.callbacks = n.world.callbacks ++ (events ++ ctxs.map .release)) :
    ∃ n', n.listen w = .ok n' ∧ n'.Retired := by
  have hlisten : n.listen w = .ok { n with
      contexts := touched .release ctxs n.contexts, world := w } := by
    rw [listen_eq hw, List.foldlM_append, hidle]
    change ((ctxs.map Event.release).foldlM onCallback n.contexts).map _ = _
    rw [foldlM_release, h.calls]
    rfl
  refine ⟨_, hlisten, fun c hc => ?_⟩
  obtain ⟨i, hi⟩ := List.mem_iff_getElem?.mp hc
  rw [getElem?_touched, Option.map_eq_some_iff] at hi
  obtain ⟨c', hc', rfl⟩ := hi
  by_cases hheld : i + 1 ∈ ctxs
  · rw [if_pos hheld]
    obtain ⟨term, hterm⟩ := h.live i hheld
    obtain rfl := Option.some.inj (hc'.symm.trans hterm)
    rw [release_last]
  · rw [if_neg hheld]
    exact h.gone i c' hc' hheld

/-- A second holder comes, and the first one goes. -/
theorem Backed.handed {ctxs' : List Nat} (hperm : ctxs.Perm ctxs') {w : World}
    (hw : w.callbacks = n.world.callbacks ++ (ctxs.map .retain ++ ctxs'.map .release)) :
    n.listen w = .ok { n with world := w } := by
  have hback : (touched RouteContext.release ctxs' (touched .retain ctxs n.contexts)) =
      n.contexts := by
    refine List.ext_getElem? fun i => ?_
    rw [getElem?_touched, getElem?_touched, Option.map_map]
    by_cases hheld : i + 1 ∈ ctxs
    · obtain ⟨term, hterm⟩ := h.live i hheld
      have hheld' := hperm.mem_iff.mp hheld
      rw [hterm, Option.map_some, Function.comp_apply, if_pos hheld, if_pos hheld', retain_held,
        release_held]
    · have hheld' := mt hperm.mem_iff.mpr hheld
      simp only [Function.comp_def, if_neg hheld, if_neg hheld', Option.map_id']
  have hlive : Live RouteContext.freed (touched .retain ctxs n.contexts) ctxs' := by
    intro i hi
    have hheld := hperm.mem_iff.mpr hi
    obtain ⟨term, hterm⟩ := h.live i hheld
    refine ⟨⟨term, 2, false⟩, ?_, rfl⟩
    rw [getElem?_touched, hterm, Option.map_some, if_pos hheld, retain_held]
  have hdistinct := (hperm.filter (· ≠ 0)).nodup_iff.mp h.distinct
  rw [listen_eq hw, List.foldlM_append, foldlM_retain, h.calls]
  change ((ctxs'.map Event.release).foldlM onCallback (touched .retain ctxs n.contexts)).map _ = _
  rw [foldlM_release, foldlM_touch _ _ _ hdistinct hlive, hback]
  rfl

/-- One more context, held or freed. -/
theorem Backed.extend {ctxs' : List Nat} {n' : Nif τ} (freed : Bool) {term : τ}
    (hperm : ctxs'.Perm ((if freed then [] else [n.contexts.length + 1]) ++ ctxs))
    (hcontexts : n'.contexts = n.contexts ++ [⟨term, if freed then 0 else 1, freed⟩]) :
    Backed ctxs' n' := by
  have hfresh : n.contexts.length + 1 ∉ ctxs := fun hmem => absurd (h.bound hmem) (by omega)
  refine Backed.perm ?_ hperm.symm
  refine ⟨?_, fun i hi => ?_, fun i c hc hi => ?_⟩
  · cases freed with
    | true => exact h.distinct
    | false => simpa [hfresh] using h.distinct
  · rw [hcontexts]
    rcases List.mem_append.mp hi with hnew | hold
    · cases freed with
      | true => simp at hnew
      | false =>
        obtain rfl : i = n.contexts.length := by simpa using hnew
        exact ⟨term, by simp⟩
    · obtain ⟨term', hterm'⟩ := h.live i hold
      exact ⟨term', by rw [List.getElem?_append_left (h.bound hold), hterm']⟩
  · rw [hcontexts, List.getElem?_append] at hc
    split at hc
    · exact h.gone i c hc fun hold => hi (List.mem_append_right _ hold)
    · rename_i hle
      obtain rfl : i = n.contexts.length := by
        have hlt := (List.getElem?_eq_some_iff.mp hc).1
        simp only [List.length_cons, List.length_nil] at hlt
        omega
      rw [Nat.sub_self, List.getElem?_cons_zero, Option.some.injEq] at hc
      subst hc
      cases freed with
      | true => rfl
      | false => simp at hi

end Backed

structure Owns (b : HeapBuilder) (n : Nif τ) : Prop where
  usable : b.erase.Usable
  retain : b.erase.retain = true
  release : b.erase.release = true
  fallback : b.erase.fallback.ctx = 0
  backed : Backed b.erase.drops n

/-- A reply with a router leaves it its contexts, any other reply leaves none. -/
def Ended (reply : NewReply Router) (n : Nif τ) : Prop :=
  match reply with
  | .ok router => router.release = true ∧ Backed router.holders n
  | _ => n.Retired

/-- The call comes to a reply; a fault has its reason. -/
def Ends (lost twice : Prop) (r : Except Fault (NewReply Router × Nif τ)) : Prop :=
  (r = .error .nullPointer ∧ lost) ∨ (r = .error .doubleFree ∧ twice) ∨
    ∃ reply n, r = .ok (reply, n) ∧ Ended reply n

theorem Ends.imp {lost lost' twice twice' : Prop} {r : Except Fault (NewReply Router × Nif τ)}
    (h : Ends lost twice r) (hlost : lost → lost') (htwice : twice → twice') : Ends lost' twice' r :=
  Or.imp (And.imp_right hlost) (Or.imp_left (And.imp_right htwice)) h

/-- A reply without a router, which leaves the contexts alone. -/
def Refuses (reply : Nif τ → NewReply Router × Nif τ) : Prop :=
  ∀ n, (∀ router, (reply n).1 ≠ .ok router) ∧ (reply n).2.contexts = n.contexts

theorem refuses_badarg : Refuses (τ := τ) (.badarg, ·) := fun _ => ⟨by simp, rfl⟩

theorem refuses_makeError (reason : String) :
    Refuses (τ := τ) (makeError .badarg .error reason) := by
  intro n
  refine ⟨fun router => ?_, makeError_keeps _ _ _ n⟩
  rw [makeError]
  split <;> simp

theorem Refuses.ended {reply : Nif τ → NewReply Router × Nif τ} (h : Refuses reply) {n : Nif τ}
    (hretired : n.Retired) : Ended (reply n).1 (reply n).2 := by
  obtain ⟨hnone, hcontexts⟩ := h n
  have hstill : (reply n).2.Retired := by rwa [Nif.Retired, hcontexts]
  cases hreply : (reply n).1 with
  | ok router => exact absurd hreply (hnone router)
  | badarg => exact hstill
  | error e => exact hstill

/-- A refusal after all contexts were freed is an end. -/
theorem Refuses.ends {reply : Nif τ → NewReply Router × Nif τ} (h : Refuses reply) {n : Nif τ}
    (hretired : n.Retired) {lost twice : Prop} : Ends lost twice (.ok (reply n)) :=
  Or.inr (Or.inr ⟨_, _, rfl, h.ended hretired⟩)

theorem routerFree_calls {router : Router} (hrelease : router.release = true) (w : World) :
    (wrouterFree (some router) w).callbacks = w.callbacks ++ router.holders.map .release := by
  have hcalls := wrouterFree_calls router w
  rw [hrelease] at hcalls
  exact hcalls

section Owns

variable {b : HeapBuilder} {n : Nif τ} (h : Owns b n)

include h

theorem Owns.congr {n' : Nif τ} (hcontexts : n'.contexts = n.contexts) : Owns b n' :=
  { h with backed := h.backed.congr hcontexts }

/-- Freeing the builder releases the contexts it owns. -/
theorem Owns.free_calls {w w' : World} (hfree : heapBuilderFree b w = some w') :
    w'.callbacks = w.callbacks ++ b.erase.drops.map .release := by
  have hcalls := heapBuilderFree_calls hfree
  rw [h.release] at hcalls
  exact hcalls

/-- Giving up frees every context of the builder, unless it lost an edge. -/
theorem Owns.giveUp {reply : Nif τ → NewReply Router × Nif τ} (hreply : Refuses reply) :
    Ends (b.erase.root.whole = false) False (Wrouter.giveUp reply b n) := by
  unfold Wrouter.giveUp
  cases hfree : heapBuilderFree b n.world with
  | none => exact Or.inl ⟨rfl, heapBuilderFree_eq_none h.release hfree⟩
  | some w =>
    obtain ⟨n', hlisten, hretired⟩ :=
      h.backed.dropped [] rfl (h.free_calls hfree)
    dsimp only
    rw [hlisten]
    exact hreply.ends hretired

/-- Compiled and freed: the contexts are the router's now, or nobody's. -/
theorem Owns.consume (L : Libc) {made : Option Router} {e : WrouterError} {w : World}
    (hconsume : wrouterConsume L (some b) n.world = some (made, e, w)) :
    (e ≠ .ok ∧ ∃ n', n.listen w = .ok n' ∧ n'.Retired) ∨
      ∃ router, made = some router ∧ e = .ok ∧ router.release = true ∧
        Backed router.holders n ∧ n.listen w = .ok { n with world := w } := by
  obtain ⟨w', hfree, hmade⟩ := Option.map_eq_some_iff.mp hconsume
  have hdrops := h.free_calls hfree
  have hcompile := wrouterCompile_calls L h.usable (h.retain.trans h.release.symm) n.world
  rw [h.release] at hcompile
  dsimp only at hcompile hmade
  simp only [retained, released, if_pos, List.map_cons, List.map_nil, List.singleton_append]
    at hcompile
  obtain ⟨rfl, rfl, rfl⟩ := by simpa only [Prod.mk.injEq] using hmade
  obtain ⟨-, hfail, hcalls⟩ | ⟨router, hsome, hok, hrelease, hholders, hcalls⟩ := hcompile
  · -- no router; the compilation at most called for the fallback, which is no context
    refine Or.inl ⟨hfail, ?_⟩
    obtain hcalls | hcalls := hcalls
    · exact h.backed.dropped [] rfl (by rw [hdrops, hcalls, List.nil_append])
    · rw [h.fallback] at hcalls
      exact h.backed.dropped [.retain 0, .release 0] rfl
        (by rw [hdrops, hcalls, List.append_assoc])
  · have hperm := drops_perm b.erase
    have hback := h.backed.perm hperm
    exact Or.inr ⟨router, hsome, hok, hrelease, hholders ▸ hback,
      hback.handed hperm.symm (by rw [hdrops, hcalls, List.append_assoc])⟩

/-- At the end of the list the contexts go to the router, or are freed with the builder. -/
theorem Owns.newRouter (L : Libc) :
    Ends (b.erase.root.whole = false) (FreesAgain b.erase n.world.answers)
      (Wrouter.newRouter L b n) := by
  unfold Wrouter.newRouter
  split
  · rename_i htwice
    exact Or.inr (Or.inl ⟨rfl, (wrouterCompile_freesTwice L b.erase n.world).mp htwice⟩)
  rcases hconsume : wrouterConsume L (some b) n.world with _ | ⟨made, e, w⟩
  · exact Or.inl ⟨rfl, heapBuilderFree_eq_none h.release (Option.map_eq_none_iff.mp hconsume)⟩
  obtain ⟨hfail, n', hlisten, hretired⟩ | ⟨router, rfl, rfl, hrelease, hback, hlisten⟩ :=
    h.consume L hconsume
  · simp only [hlisten, bind, Except.bind]
    rw [if_pos hfail]
    exact (refuses_makeError _).ends hretired
  · simp only [hlisten, bind, Except.bind]
    rw [if_neg (by simp)]
    rcases halloc : Nif.alloc { n with world := w } with ⟨_ | _, n'⟩
    · obtain ⟨n'', hlisten', hretired⟩ := (hback.congr (alloc_keeps halloc).1).dropped
        [] rfl (routerFree_calls hrelease n'.world)
      dsimp only
      rw [hlisten']
      exact (refuses_makeError _).ends hretired
    · exact Or.inr (Or.inr ⟨.ok router, n', rfl, hrelease, hback.congr (alloc_keeps halloc).1⟩)

/-- A call with a new context: the builder takes it, or it is freed again. -/
theorem Owns.add (pattern : Option Bytes) {term : τ} (n₁ : Nif τ)
    (hnew : n₁.contexts = n.contexts ++ [⟨term, 0, false⟩]) :
    let r := heapAddRoute b pattern ⟨0, n.contexts.length + 1⟩ n₁.world
    (r.1 = .ok ∧ ∃ n', n₁.listen r.2.2 = .ok n' ∧ Owns r.2.1 n' ∧
      n' = { n₁ with contexts := n.contexts ++ [⟨term, 1, false⟩], world := r.2.2 }) ∨
    (r.1 ≠ .ok ∧ ∃ n' n'', n₁.listen r.2.2 = .ok n' ∧
      routeContextFree (n.contexts.length + 1) n' = .ok n'' ∧ Owns r.2.1 n'') := by
  intro r
  have heffect := wrouterAddRoute_effect h.usable pattern ⟨0, n.contexts.length + 1⟩ n₁.world
  rw [heapAddRoute_erase] at heffect
  have hcalls := heffect.callbacks
  have hfallback : r.2.1.erase.fallback.ctx = b.erase.fallback.ctx :=
    congrArg Route.ctx heffect.fallback
  have hdrops : r.2.1.erase.drops.Perm
      (gained ⟨0, n.contexts.length + 1⟩ r.1 ++ b.erase.drops) := by
    rw [Builder.drops, Builder.drops, hfallback, ← List.append_assoc]
    exact heffect.held.append_right _
  dsimp only at hcalls
  rw [h.retain] at hcalls
  have howns {n' : Nif τ} (hbacked : Backed r.2.1.erase.drops n') : Owns r.2.1 n' :=
    ⟨heffect.usable, heffect.retain.trans h.retain, heffect.release.trans h.release,
      hfallback.trans h.fallback, hbacked⟩
  have hlast : n₁.contexts[n.contexts.length]? = some ⟨term, 0, false⟩ := by simp [hnew]
  have hset (c : RouteContext τ) :
      n₁.contexts.set n.contexts.length c = n.contexts ++ [c] := by simp [hnew]
  by_cases hok : r.1 = .ok
  · have hgained : gained ⟨0, n.contexts.length + 1⟩ r.1 = [n.contexts.length + 1] := if_pos hok
    rw [hgained] at hcalls hdrops
    have hlisten : n₁.listen r.2.2 =
        .ok { n₁ with contexts := n.contexts ++ [⟨term, 1, false⟩], world := r.2.2 } := by
      rw [listen_eq hcalls]
      change (([n.contexts.length + 1].map Event.retain).foldlM onCallback n₁.contexts).map _ = _
      rw [foldlM_retain, List.foldlM_cons, touch_live _ _ _ hlast rfl, hset, retain_fresh]
      rfl
    exact Or.inl ⟨hok, _, hlisten, howns (h.backed.extend false hdrops rfl), rfl⟩
  · have hgained : gained ⟨0, n.contexts.length + 1⟩ r.1 = [] := if_neg hok
    rw [hgained] at hcalls hdrops
    have hbacked : Backed r.2.1.erase.drops
        ({ n₁ with contexts := n.contexts ++ [⟨term, 0, true⟩], world := r.2.2 } : Nif τ) :=
      h.backed.extend true hdrops rfl
    refine Or.inr ⟨hok, _, _, listen_quiet (hcalls.trans (List.append_nil _)), ?_, howns hbacked⟩
    rw [routeContextFree, onContext, touch_live _ _ _ hlast rfl, hset]
    rfl

end Owns

/-- The loop, by induction on the list: what can go wrong is in the builder that the calls make. -/
theorem newRoutes_ends (L : Libc) (list : List (Element τ)) {b : HeapBuilder} {n : Nif τ}
    (h : Owns b n) :
    let r := addAll b.erase n.world (newAdds list n.grants n.contexts.length)
    Ends (r.1.root.whole = false) (FreesAgain r.1 r.2.answers) (newRoutes L list b n) := by
  induction list generalizing b n with
  | nil => exact h.newRouter L
  | cons element rest ih =>
    match element with
    | .other => exact (h.giveUp refuses_badarg).imp id False.elim
    | .pair none _ => exact (h.giveUp refuses_badarg).imp id False.elim
    | .pair (some pattern) term =>
      rw [newRoutes, newAdds]
      rcases halloc : n.alloc with ⟨granted, n₁⟩
      rcases hcreate : routeContextCreate term n₁ with ⟨made, n₂⟩
      obtain ⟨hgranted, hgrants⟩ := pair_granted halloc hcreate
      have howns := h.congr (alloc_keeps halloc).1
      rw [hgranted]
      cases granted with
      | false => exact (howns.giveUp refuses_badarg).imp id False.elim
      | true =>
        dsimp only
        rw [hcreate]
        cases made with
        | none =>
          have hkept := howns.congr (routeContextCreate_none hcreate)
          exact (hkept.giveUp (refuses_makeError _)).imp id False.elim
        | some ctx =>
          obtain ⟨rfl, hnew, hworld⟩ := routeContextCreate_some hcreate
          rw [(alloc_keeps halloc).1] at hnew
          rw [(alloc_keeps halloc).2] at hworld
          rw [(alloc_keeps halloc).1, Option.isSome_some, Bool.and_true, if_pos rfl, addAll,
            ← hworld, heapAddRoute_erase]
          dsimp only
          obtain ⟨hok, n', hlisten, hnext, rfl⟩ | ⟨hfail, n', n'', hlisten, hfree, hnext⟩ :=
            h.add (some pattern) n₂ hnew
          · simp only [hlisten, bind, Except.bind, if_pos hok]
            have hrest := ih hnext
            rw [List.length_append] at hrest
            rw [← hgrants rfl rfl]
            exact hrest
          · simp only [hlisten, bind, Except.bind, if_neg hfail, hfree]
            refine (hnext.giveUp (refuses_makeError _)).imp (fun hlost => ?_) False.elim
            rw [addAll_whole hnext.usable, hlost, Bool.false_and]

/-- A new builder holds the fallback, which is no context. -/
theorem heapBuilderCreate_owns (grants : List Bool) {w w' : World} {b : HeapBuilder}
    (h : heapBuilderCreate nifOptions w = some (some b, w')) :
    Nif.listen (⟨[], grants, w⟩ : Nif τ) w' = .ok ⟨[], grants, w'⟩ ∧
      Owns b (⟨[], grants, w'⟩ : Nif τ) := by
  have hcreate := heapBuilderCreate_erase h
  obtain ⟨hfresh, hcalls, -⟩ := wrouterBuilderCreate_fresh hcreate
  refine ⟨by rw [listen_eq hcalls]; rfl, ?_⟩
  have hdrops : b.erase.drops = [0] := by rw [hfresh]; rfl
  refine ⟨fun _ => ⟨[], (wrouterBuilderCreate_holds hcreate).1⟩, ?_, ?_, ?_, ?_⟩
  · rw [hfresh]
    rfl
  · rw [hfresh]
    rfl
  · rw [hfresh]
    rfl
  · rw [hdrops]
    exact ⟨by simp, by simp, by simp⟩

theorem newNif_ends (L : Libc) (list : List (Element τ)) (grants : List Bool) (w : World) :
    Ends
      (rootRefused w.answers ∨ ∃ b w', heapBuilderCreate nifOptions w = some (some b, w') ∧
        keepsEdges b.erase w' (newAdds list grants 0) = false)
      (∃ b w', heapBuilderCreate nifOptions w = some (some b, w') ∧
        FreesAgain (addAll b.erase w' (newAdds list grants 0)).1
          (addAll b.erase w' (newAdds list grants 0)).2.answers)
      (newNif L list ⟨[], grants, w⟩) := by
  unfold newNif
  rcases hcreate : heapBuilderCreate nifOptions w with _ | ⟨_ | b, w'⟩
  · exact Or.inl ⟨rfl, Or.inl (heapBuilderCreate_eq_none.mp hcreate).2⟩
  · have hlisten := listen_quiet (n := (⟨[], grants, w⟩ : Nif τ)) (heapBuilderCreate_none rfl hcreate)
    dsimp only
    rw [hlisten]
    exact (refuses_makeError _).ends fun c hc => by simp at hc
  · obtain ⟨hlisten, howns⟩ := heapBuilderCreate_owns (τ := τ) grants hcreate
    simp only [hlisten, bind, Except.bind]
    refine (newRoutes_ends L list howns).imp (fun hlost => Or.inr ⟨b, w', rfl, ?_⟩)
      fun hagain => ⟨b, w', rfl, hagain⟩
    have hfresh : b.erase.root.whole = true := by
      rw [(wrouterBuilderCreate_fresh (heapBuilderCreate_erase hcreate)).1]
      rfl
    rwa [addAll_whole howns.usable, hfresh, Bool.true_and] at hlost

/-! ## Requests -/

theorem makeParams_keeps (ps : List Param) (map : List (Bytes × Bytes)) (n : Nif τ) :
    (makeParams ps map n).2.contexts = n.contexts ∧ (makeParams ps map n).2.world = n.world := by
  induction ps generalizing map n with
  | nil => exact ⟨rfl, rfl⟩
  | cons p ps ih =>
    rw [makeParams]
    rcases hfirst : n.alloc with ⟨_ | _, n₁⟩
    · exact alloc_keeps hfirst
    have hkeep := alloc_keeps hfirst
    dsimp only
    rcases hsecond : n₁.alloc with ⟨_ | _, n₂⟩
    · exact ⟨(alloc_keeps hsecond).1.trans hkeep.1, (alloc_keeps hsecond).2.trans hkeep.2⟩
    · obtain ⟨hcontexts, hworld⟩ := ih (mapPut map p.nameText p.valueText) n₂
      exact ⟨hcontexts.trans ((alloc_keeps hsecond).1.trans hkeep.1),
        hworld.trans ((alloc_keeps hsecond).2.trans hkeep.2)⟩

/-- A request meets live contexts only, and leaves them alone. -/
theorem resolveNif_keeps (L : Libc) {router : Router} {n : Nif τ} (h : Backed router.holders n)
    (path : Option Bytes) :
    (resolveNif L router path n = .error .undefined ∧ ∃ p, path = some p ∧ router.overruns L p) ∨
      ∃ reply n', resolveNif L router path n = .ok (reply, n') ∧ n'.contexts = n.contexts := by
  unfold resolveNif
  cases path with
  | none => exact Or.inr ⟨_, n, rfl, rfl⟩
  | some path =>
    dsimp only
    rcases halloc : n.alloc with ⟨_ | _, n₁⟩
    · exact Or.inr ⟨_, n₁, rfl, (alloc_keeps halloc).1⟩
    have hkeep := (alloc_keeps halloc).1
    dsimp only
    rcases hcreate : heapDispatcherCreate router n₁.world with ⟨_ | d, w⟩
    · exact Or.inr ⟨_, _, rfl, (makeError_keeps _ _ _ _).trans hkeep⟩
    have hfits := heapDispatcherCreate_fits hcreate
    dsimp only
    rcases hresolve : wrouterNresolve L d.data path with _ | ⟨ctx, data⟩
    · exact Or.inl ⟨rfl, path, rfl, wrouterNresolve_none hfits hresolve⟩
    dsimp only
    split
    · exact Or.inr ⟨_, _, rfl, hkeep⟩
    rename_i hctx
    have hholds := wrouterNresolve_holders hresolve
    rw [hfits.1] at hholds
    obtain ⟨i, rfl⟩ := Nat.exists_eq_succ_of_ne_zero hctx
    obtain ⟨term, hterm⟩ := h.live i hholds
    have hread : n₁.contexts[i + 1 - 1]? = some ⟨term, 1, false⟩ := by rw [hkeep]; exact hterm
    have hparams := (makeParams_keeps data.params.list [] { n₁ with world := w }).1
    rw [resolved]
    dsimp only
    rw [hread]
    exact Or.inr ⟨_, _, rfl, hparams.trans hkeep⟩

/-- Requests leave the contexts alone; they stop where one leaves its buffer. -/
theorem resolveAll_keeps (L : Libc) {router : Router} {n : Nif τ} (h : Backed router.holders n)
    (paths : List (Option Bytes)) :
    (resolveAll L router paths n = .error .undefined ∧
        ∃ path, some path ∈ paths ∧ router.overruns L path) ∨
      ∃ replies n', resolveAll L router paths n = .ok (replies, n') ∧ n'.contexts = n.contexts := by
  induction paths generalizing n with
  | nil => exact Or.inr ⟨[], n, rfl, rfl⟩
  | cons path rest ih =>
    rw [resolveAll]
    obtain ⟨hlost, p, rfl, hover⟩ | ⟨reply, n₁, hreply, hcontexts⟩ := resolveNif_keeps L h path
    · exact Or.inl ⟨by rw [hlost]; rfl, p, List.mem_cons_self, hover⟩
    obtain ⟨hlost, p, hp, hover⟩ | ⟨replies, n₂, hreplies, hcontexts'⟩ := ih (h.congr hcontexts)
    · exact Or.inl ⟨by simp only [hreply, hlost, bind, Except.bind], p, List.mem_cons_of_mem _ hp,
        hover⟩
    · exact Or.inr ⟨reply :: replies, n₂, by simp only [hreply, hreplies, bind, Except.bind]; rfl,
        hcontexts'.trans hcontexts⟩

/-- The contexts of a router over its life, whatever is refused meanwhile. No freed context is used
or freed again: without a router all are freed, and with one they live through all requests and are
freed with it. Where the call comes to nothing, its builder got no root, or an addition lost an edge,
or compiling frees a block again. -/
theorem contexts_freed_once (L : Libc) (list : List (Element τ)) (grants : List Bool) (w : World) :
    (newNif L list ⟨[], grants, w⟩ = .error .nullPointer ∧
      (rootRefused w.answers ∨ ∃ b w', heapBuilderCreate nifOptions w = some (some b, w') ∧
        keepsEdges b.erase w' (newAdds list grants 0) = false)) ∨
    (newNif L list ⟨[], grants, w⟩ = .error .doubleFree ∧
      ∃ b w', heapBuilderCreate nifOptions w = some (some b, w') ∧
        FreesAgain (addAll b.erase w' (newAdds list grants 0)).1
          (addAll b.erase w' (newAdds list grants 0)).2.answers) ∨
    ∃ reply n, newNif L list ⟨[], grants, w⟩ = .ok (reply, n) ∧
      ((∀ router, reply ≠ .ok router) → n.Retired) ∧
      ∀ router, reply = .ok router → ∀ paths,
        (resolveAll L router paths n = .error .undefined ∧
            ∃ path, some path ∈ paths ∧ router.overruns L path) ∨
          ∃ replies n' n'', resolveAll L router paths n = .ok (replies, n') ∧
            n'.contexts = n.contexts ∧ routerResourceDtor router n' = .ok n'' ∧ n''.Retired := by
  obtain hnull | htwice | ⟨reply, n, hnew, hended⟩ := newNif_ends L list grants w
  · exact Or.inl hnull
  · exact Or.inr (Or.inl htwice)
  refine Or.inr (Or.inr ⟨reply, n, hnew, fun hnone => ?_, ?_⟩)
  · cases reply with
    | ok router => exact absurd rfl (hnone router)
    | badarg => exact hended
    | error e => exact hended
  · rintro router rfl paths
    obtain ⟨hrelease, hbacked⟩ := hended
    obtain hlost | ⟨replies, n', hreplies, hcontexts⟩ := resolveAll_keeps L hbacked paths
    · exact Or.inl hlost
    obtain ⟨n'', hfree, hretired⟩ := (hbacked.congr hcontexts).dropped [] rfl
      (routerFree_calls hrelease n'.world)
    exact Or.inr ⟨replies, n', n'', hreplies, hcontexts, hfree, hretired⟩

end Wrouter
