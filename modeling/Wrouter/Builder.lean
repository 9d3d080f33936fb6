import Wrouter.Segment
import Wrouter.Prelexer

/-!
# Builder

A route is added by walking its tokens down the tree, creating the nodes that are
missing, and hanging the route on the last one. A failed call may have created
nodes already; the builder is then marked corrupted and takes no more routes.
-/
namespace Wrouter

open CLib

structure Builder where
  root : Segment
  literals : SymbolTable
  params : SymbolTable
  fallback : Route
  retain : Bool
  release : Bool
  paramSyntax : ParamSyntax
  corrupted : Bool
  deriving Repr

structure AddState where
  literals : SymbolTable
  params : SymbolTable
  world : World
  deriving Repr

/-- A heap copy of the route; its context is retained. -/
def builderTerminate (retain : Bool) (route : Route) (st : AddState) : Option Route × AddState :=
  match st.world.malloc 1 with
  | (none, w) => (none, { st with world := w })
  | (some _, w) => (some route, { st with world := w.retain retain route.ctx })

/-- The error of a terminating step: the route is hung on the node, or memory ran out. -/
def terminateError (terminal : Option Route) : WrouterError :=
  if terminal.isSome then .ok else .noMemory

/-- `cur` moves down the tree with the tokens; on return the nodes above are put
back around it. -/
def builderWalk (retain : Bool) (route : Route) :
    List Token → Segment → AddState → WrouterError × Segment × AddState
  | [], cur, st => (.illegalPattern, cur, st)
  | tok :: toks, cur, st =>
    match tok.type with
    | .end_ =>
      if cur.terminal.isSome then (.duplicateRoute, cur, st)
      else
        let r := builderTerminate retain route st
        (terminateError r.1, { cur with terminal := r.1 }, r.2)
    | .literal =>
      let descend (i : Nat) (cur : Segment) (st : AddState) :=
        let r := builderWalk retain route toks (cur.children.getD i .zero) st
        (r.1, { cur with children := cur.children.set i r.2.1 }, r.2.2)
      let missing (cur : Segment) :=
        match segmentFindChildByToken cur tok with
        | some i => descend i cur st
        | none =>
          match segmentCreate st.literals tok st.world with
          | (.error e, tbl, w) => (e, cur, { st with literals := tbl, world := w })
          | (.ok (child, block), tbl, w) =>
            let st := { st with literals := tbl, world := w }
            match segmentAppendChild cur child with
            | .error e => (e, cur, { st with world := w.free (some block) })
            | .ok cur => descend (cur.tail.getD 0) cur st
      match cur.special with
      | .param _ => (.literalConflictsWithParam, cur, st)
      | .paramNull => (.literalConflictsWithParam, cur, st)
      | _ => missing cur
    | .param =>
      match cur.special with
      | .wildcard _ => (.paramConflictsWithWildcard, cur, st)
      | .wildcardNull => (.paramConflictsWithWildcard, cur, st)
      | .none =>
        if cur.childCount ≠ 0 then (.paramConflictsWithLiteral, cur, st)
        else
          match segmentCreate st.params tok st.world with
          | (.error e, tbl, w) =>
            (e, { cur with special := .paramNull }, { st with params := tbl, world := w })
          | (.ok (p, _), tbl, w) =>
            let r := builderWalk retain route toks p { st with params := tbl, world := w }
            (r.1, { cur with special := .param r.2.1 }, r.2.2)
      | .param p =>
        if cur.childCount ≠ 0 then (.paramConflictsWithLiteral, cur, st)
        else if ¬ tokenMatchesSegment tok p then (.paramNameMismatch, cur, st)
        else
          let r := builderWalk retain route toks p st
          (r.1, { cur with special := .param r.2.1 }, r.2.2)
      -- a builder left this way is corrupted, so no later call comes here
      | .paramNull => (.paramNameMismatch, cur, st)
    | .wildcard =>
      match cur.special with
      | .wildcard _ => (.duplicateRoute, cur, st)
      | .wildcardNull => (.duplicateRoute, cur, st)
      | .param _ => (.wildcardConflictsWithParam, cur, st)
      | .paramNull => (.wildcardConflictsWithParam, cur, st)
      | .none =>
        if (toks.headD (.bare .illegal)).type ≠ .end_ then (.wildcardNotFinal, cur, st)
        else
          let r := builderTerminate retain route st
          let special : Special Segment :=
            match r.1 with
            | some route => .wildcard route
            | none => .wildcardNull
          (terminateError r.1, { cur with special := special }, r.2)
    | .trailing =>
      if cur.trailing.isSome then (.duplicateRoute, cur, st)
      else
        let r := builderTerminate retain route st
        (terminateError r.1, { cur with trailing := r.1 }, r.2)
    | .illegal => (.illegalPattern, cur, st)

def builderAddRoute (b : Builder) (pattern : Option Bytes) (route : Route) (w : World) :
    WrouterError × Builder × World :=
  if b.corrupted then (.builderCorrupted, b, w)
  else
    let r := builderWalk b.retain route (patternTokens b.paramSyntax pattern) b.root
      ⟨b.literals, b.params, w⟩
    (r.1, { b with root := r.2.1, literals := r.2.2.literals, params := r.2.2.params }, r.2.2.world)

def wrouterAddRoute (b : Builder) (pattern : Option Bytes) (route : Route) (w : World) :
    WrouterError × Builder × World :=
  let r := builderAddRoute b pattern route w
  if r.1 ≠ .ok then (r.1, { r.2.1 with corrupted := true }, r.2.2) else r

def Builder.fresh (options : Options) : Builder :=
  ⟨.zero, .empty, .empty, ⟨options.fallbackHandler, options.fallbackCtx⟩, options.retain,
    options.release, options.paramSyntax, false⟩

def wrouterBuilderCreate (options : Options) (w : World) : Option Builder × World :=
  match w.malloc 1 with
  | (none, w) => (none, w)
  | (some _, w) =>
    let builder := Builder.fresh options
    let w := w.retain builder.retain builder.fallback.ctx
    match w.malloc 1 with
    -- the clean-up is left out: it follows the null root where a release callback is installed
    | (none, w) => (none, w)
    | (some _, w) => (some builder, w)

def wrouterAddRoutes (b : Builder) (w : World) : List (Bytes × Route) →
    List WrouterError × Builder × World
  | [] => ([], b, w)
  | (pattern, route) :: rest =>
    let r := wrouterAddRoute b (some pattern) route w
    let s := wrouterAddRoutes r.2.1 r.2.2 rest
    (r.1 :: s.1, s.2)

/-- No call of a run met the end of memory or of a range. -/
def Clean (errors : List WrouterError) : Prop := ∀ e ∈ errors, e ≠ .noMemory ∧ e ≠ .outOfRange

def AllOk (errors : List WrouterError) : Prop := ∀ e ∈ errors, e = .ok

instance (errors : List WrouterError) : Decidable (Clean errors) :=
  inferInstanceAs (Decidable (∀ e ∈ errors, e ≠ .noMemory ∧ e ≠ .outOfRange))

instance (errors : List WrouterError) : Decidable (AllOk errors) :=
  inferInstanceAs (Decidable (∀ e ∈ errors, e = .ok))

/-- A builder reached by creation and successful calls only, with the routes added
in order. Every call meets its own allocator. -/
inductive Built (options : Options) : List (Bytes × Route) → Builder → Prop where
  | create {b : Builder} {w w' : World} :
      wrouterBuilderCreate options w = (some b, w') → Built options [] b
  | add {routes : List (Bytes × Route)} {b b' : Builder} {pattern : Bytes} {route : Route}
      {w w' : World} : Built options routes b →
      wrouterAddRoute b (some pattern) route w = (.ok, b', w') →
      Built options (routes ++ [(pattern, route)]) b'

/-- Before the first call no route was added. -/
theorem built_fresh (options : Options) : Built options [] (.fresh options) := by
  refine .create (w := ⟨[], 0, []⟩) (Prod.ext ?_ rfl)
  cases h : options.retain <;>
    simp [wrouterBuilderCreate, World.malloc, World.retain, Builder.fresh, h]

theorem allOk_cons {e : WrouterError} {errors : List WrouterError} :
    AllOk (e :: errors) ↔ e = .ok ∧ AllOk errors := List.forall_mem_cons

/-- A run whose calls all succeed extends what was built. -/
theorem Built.addRoutes {options : Options} {routes new : List (Bytes × Route)} {b : Builder}
    {w : World} (hb : Built options routes b) (h : AllOk (wrouterAddRoutes b w new).1) :
    Built options (routes ++ new) (wrouterAddRoutes b w new).2.1 := by
  induction new generalizing routes b w with
  | nil => simpa [wrouterAddRoutes] using hb
  | cons r new ih =>
    obtain ⟨hok, hrest⟩ := allOk_cons.mp h
    have hadd : wrouterAddRoute b (some r.1) r.2 w =
        (.ok, (wrouterAddRoute b (some r.1) r.2 w).2) := Prod.ext hok rfl
    have hb' : Built options (routes ++ [r]) (wrouterAddRoute b (some r.1) r.2 w).2.1 := .add hb hadd
    simpa [wrouterAddRoutes] using ih hb' hrest

/-- Create a builder and add the routes; none unless every call succeeds. -/
def buildRoutes (options : Options) (routes : List (Bytes × Route)) (w : World) :
    Option (Builder × World) :=
  match wrouterBuilderCreate options w with
  | (none, _) => none
  | (some b, w) =>
    let r := wrouterAddRoutes b w routes
    if AllOk r.1 then some r.2 else none

/-- What the executable run builds is built in the sense of the relation. -/
theorem buildRoutes_built {options : Options} {routes : List (Bytes × Route)} {w : World}
    {r : Builder × World} (h : buildRoutes options routes w = some r) : Built options routes r.1 := by
  unfold buildRoutes at h
  split at h
  · simp at h
  rename_i b w' hcreate
  dsimp only at h
  split at h
  · rename_i hok
    obtain rfl := Option.some.inj h
    exact (Built.create hcreate).addRoutes hok
  · simp at h

/-- What evaluation shows of the builder holds of a builder that was built. -/
theorem buildRoutes_any {options : Options} {routes : List (Bytes × Route)} {w : World}
    {P : Builder → Prop} [∀ b, Decidable (P b)]
    (h : (buildRoutes options routes w).any fun r => P r.1) : ∃ b, Built options routes b ∧ P b := by
  obtain ⟨r, hr, hp⟩ := (Option.any_eq_true _ _).mp h
  exact ⟨r.1, buildRoutes_built hr, of_decide_eq_true hp⟩

end Wrouter
