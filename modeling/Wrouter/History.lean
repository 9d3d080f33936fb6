import Mathlib.Logic.Function.Basic
import Wrouter.Stability

/-!
# Requests leave no trace

Lexer, parameter count and parameter slots stay in the dispatcher between requests.
Two runs that differ only in slots that are not counted go in lockstep: what a request
resolves to is a function of the router and the path. Only a request that overruns its
buffer reaches what other dispatchers have.
-/
namespace Wrouter

open CLib

structure SameParams (p p' : Params) : Prop where
  count : p'.count = p.count
  slots : ∀ i < p.count, p'.slots i = p.slots i

theorem sameParams_zero (p p' : Params) :
    SameParams { p with count := 0 } { p' with count := 0 } :=
  ⟨rfl, fun i hi => absurd hi (Nat.not_lt_zero i)⟩

/-- States that differ in their buffers only, and there in nothing a caller can read. -/
structure SameView (m m' : MatchState) : Prop where
  rest : m' = { m with params := m'.params }
  params : SameParams m.params m'.params

inductive SameStep : MatchStep → MatchStep → Prop where
  | next {m m' : MatchState} : SameView m m' → SameStep (.next m) (.next m')
  | done {route : Option Route} {m m' : MatchState} :
      SameView m m' → SameStep (.done route m) (.done route m')

section Lockstep

variable {m m' : MatchState}

theorem record_count (m : MatchState) (param : Param) :
    (m.record param).params.count = m.params.count + 1 := rfl

theorem record_slots (m : MatchState) (param : Param) (i : Nat) :
    (m.record param).params.slots i = if i = m.params.count then param else m.params.slots i := rfl

/-- The same parameter goes to the same slot, whatever the slots above hold. -/
theorem SameView.record (h : SameView m m') (param : Param) :
    SameView (m.record param) (m'.record param) := by
  refine ⟨?_, ?_, fun i hi => ?_⟩
  · rw [h.rest, MatchState.record, MatchState.record, paramNext, paramNext, h.params.count]
  · rw [record_count, record_count, h.params.count]
  · rw [record_count] at hi
    rw [record_slots, record_slots, h.params.count]
    split
    · rfl
    · exact h.params.slots i (by omega)

theorem SameView.cursor (h : SameView m m') (c : Nat) :
    SameView { m with cursor := c } { m' with cursor := c } := by
  refine ⟨?_, h.params⟩
  rw [h.rest]

/-- Entering a node looks at nothing a request before it left. -/
theorem SameView.enter (h : SameView m m') (lx : Lexer) (word : Nat) (tok : Token) :
    SameView (MatchState.enter { m with lx := lx } word tok)
      (MatchState.enter { m' with lx := lx } word tok) := by
  have hp := h.params
  rw [h.rest]
  generalize m'.params = p at hp
  unfold MatchState.enter
  split <;> split <;> split <;> exact ⟨rfl, hp⟩

/-- Not found is the same outcome from states that look the same. -/
theorem SameView.notFound (h : SameView m m') : SameStep m.notFound m'.notFound := by
  refine .done ⟨?_, sameParams_zero _ _⟩
  rw [h.rest]

/-- One pass does the same from both states. -/
theorem matchStep_sameView (L : Libc) (router : Router) (g : List Nat) (h : SameView m m') :
    SameStep (matchStep L router g m) (matchStep L router g m') := by
  have hrest := h.rest
  generalize m'.params = p at hrest
  subst hrest
  have he := h.enter (lexerNext m.lx).2 (cell g m.cursor) (lexerNext m.lx).1
  rw [matchStep, matchStep]
  dsimp only at he ⊢
  generalize MatchState.enter { m with lx := (lexerNext m.lx).2 } (cell g m.cursor)
    (lexerNext m.lx).1 = n at he
  generalize MatchState.enter { m with lx := (lexerNext m.lx).2, params := p }
    (cell g m.cursor) (lexerNext m.lx).1 = n' at he
  have hrest := he.rest
  generalize n'.params = p at hrest
  subst hrest
  obtain ⟨cursor, pSym, pEdge, wEdge, tEdge, wParam, lx, params, touched⟩ := n
  dsimp only at he ⊢
  cases (lexerNext m.lx).1.type with
  | literal =>
    dsimp only
    cases literalEdge L router g cursor (cell g m.cursor &&& nodeLiteralsMask) (lexerNext m.lx).1 with
    | some offset => exact .next (he.cursor offset)
    | none =>
      dsimp only
      split
      · exact .next ((he.record _).cursor (cell g (pEdge.getD 0)))
      · cases wEdge with
        | some wEdge => exact .done (he.record _)
        | none => exact he.notFound
  | trailing =>
    dsimp only
    split
    · exact .done he
    · exact he.notFound
  | end_ =>
    dsimp only
    split
    · exact .done he
    · exact he.notFound
  | illegal => exact he.notFound
  | param => exact he.notFound
  | wildcard => exact he.notFound

/-- So do all of them: both runs end together, with the same route. -/
theorem matchLoop_sameView (L : Libc) (router : Router) (g : List Nat) (fuel : Nat)
    (h : SameView m m') {route : Option Route} {n : MatchState}
    (hrun : matchLoop L router g fuel m = some (route, n)) :
    ∃ n', matchLoop L router g fuel m' = some (route, n') ∧ SameView n n' := by
  induction fuel generalizing m m' with
  | zero => simp [matchLoop] at hrun
  | succ fuel ih =>
    have hstep := matchStep_sameView L router g h
    rw [matchLoop] at hrun ⊢
    cases hm : matchStep L router g m with
    | next m₁ =>
      rw [hm] at hstep hrun
      generalize matchStep L router g m' = step at hstep
      cases hstep with
      | next h₁ => exact ih h₁ hrun
    | done route₁ m₁ =>
      rw [hm] at hstep hrun
      generalize matchStep L router g m' = step at hstep
      obtain ⟨rfl, rfl⟩ := Prod.mk.inj (Option.some.inj hrun)
      cases hstep with
      | done h₁ => exact ⟨_, rfl, h₁⟩

end Lockstep

/-- Any router whatever: what one dispatcher answers, every other answers too. -/
theorem resolveRequest_history (L : Libc) {d d' : Dispatcher} (hd : d'.router = d.router)
    {path : Bytes} {r : MatchResult} (h : resolveRequest L d path = some r) :
    ∃ r', resolveRequest L d' path = some r' ∧ r'.route = r.route ∧ r'.touched = r.touched ∧
      SameParams r.dispatcher.params r'.dispatcher.params := by
  simp only [resolveRequest, routeMatch, hd] at h ⊢
  cases hg : d.router.graph with
  | none =>
    simp only [hg, Option.some.injEq] at h ⊢
    subst h
    exact ⟨_, rfl, rfl, rfl, sameParams_zero _ _⟩
  | some g =>
    simp only [hg, Option.map_eq_some_iff] at h ⊢
    obtain ⟨⟨route, n⟩, hrun, rfl⟩ := h
    have hstart : SameView
        ⟨0, none, none, none, none, none, lexerLoad (some path), { d.params with count := 0 }, []⟩
        ⟨0, none, none, none, none, none, lexerLoad (some path), { d'.params with count := 0 }, []⟩ :=
      ⟨rfl, sameParams_zero _ _⟩
    obtain ⟨n', hrun', hsame⟩ := matchLoop_sameView L d.router g.data _ hstart hrun
    exact ⟨_, ⟨_, hrun', rfl⟩, rfl, by rw [hsame.rest], hsame.params⟩

/-- With buffers of one size, both stay in the buffer or neither does. -/
theorem request_history (L : Libc) {d d' : Dispatcher} (hd : d'.router = d.router)
    (hsize : d'.params.allocated = d.params.allocated) {path : Bytes} {r : MatchResult}
    (h : d.request L path = some r) :
    ∃ r', d'.request L path = some r' ∧ r'.route = r.route ∧
      SameParams r.dispatcher.params r'.dispatcher.params := by
  obtain ⟨hr, hin⟩ := Dispatcher.request_some.mp h
  obtain ⟨r', hr', hroute, htouched, hsame⟩ := resolveRequest_history L hd hr
  refine ⟨r', Dispatcher.request_some.mpr ⟨hr', ?_⟩, hroute, hsame⟩
  rw [Dispatcher.overruns, hr, Option.any_some, ← htouched, ← hsize] at hin
  rw [Dispatcher.overruns, hr', Option.any_some, hin]

section Program

variable {ι : Type} [DecidableEq ι]

/-- The requests that a program has made so far, each to one of its dispatchers. A request
that overruns its buffer may have changed any other of them. -/
def serveAll (L : Libc) (ds : ι → Dispatcher) : List (ι × Bytes) → Option (ι → Dispatcher)
  | [] => some ds
  | (i, path) :: history =>
    match (ds i).request L path with
    | none => none
    | some r => serveAll L (Function.update ds i r.dispatcher) history

variable {L : Libc} {options : ι → Options} {routes : ι → List (Bytes × Route)}
  {ds : ι → Dispatcher}

/-- A request changes its own dispatcher, and there not the router. -/
theorem Serves.step (h : ∀ i, Serves L (options i) (routes i) (ds i)) {i : ι} {path : Bytes}
    {r : MatchResult} (hr : (ds i).request L path = some r) (j : ι) :
    Serves L (options j) (routes j) (Function.update ds i r.dispatcher j) ∧
      (Function.update ds i r.dispatcher j).router = (ds j).router := by
  by_cases hj : j = i
  · subst hj
    obtain ⟨b, hb, hc, -⟩ := (h j).compiled
    obtain ⟨r', hr', hanswer⟩ := resolveRequest_answers hb.holds.1 hc path
    obtain rfl : r' = r := Option.some.inj (hr'.symm.trans (Dispatcher.request_some.mp hr).1)
    rw [Function.update_self]
    exact ⟨.resolve (h j) hr, hanswer.router⟩
  · rw [Function.update_of_ne hj]
    exact ⟨h j, rfl⟩

/-- A program comes through its requests exactly when none of them overruns. -/
theorem serveAll_cases (h : ∀ i, Serves L (options i) (routes i) (ds i))
    (history : List (ι × Bytes)) :
    (serveAll L ds history = none ∧ ∃ call ∈ history,
        Overrun (entries (options call.1).paramSyntax (routes call.1))
          (parseRequest call.2).segments) ∨
      (∀ call ∈ history, ¬ Overrun (entries (options call.1).paramSyntax (routes call.1))
          (parseRequest call.2).segments) ∧
        ∃ ds', serveAll L ds history = some ds' ∧
          ∀ i, Serves L (options i) (routes i) (ds' i) ∧ (ds' i).router = (ds i).router := by
  induction history generalizing ds with
  | nil => exact Or.inr ⟨by simp, ds, rfl, fun i => ⟨h i, rfl⟩⟩
  | cons call history ih =>
    obtain ⟨i, path⟩ := call
    rw [serveAll]
    obtain ⟨hnone, hover⟩ | ⟨hin, r, q, walk, hr, -⟩ := (h i).request path
    · rw [hnone]
      exact Or.inl ⟨rfl, (i, path), List.mem_cons_self, hover⟩
    · rw [hr]
      have hstep := Serves.step h hr
      obtain ⟨hnone, call, hmem, hover⟩ | ⟨hall, ds', hrun, hserves⟩ := ih fun j => (hstep j).1
      · exact Or.inl ⟨hnone, call, List.mem_cons_of_mem _ hmem, hover⟩
      · refine Or.inr ⟨List.forall_mem_cons.mpr ⟨hin, hall⟩, ds', hrun, fun j => ?_⟩
        exact ⟨(hserves j).1, (hserves j).2.trans (hstep j).2⟩

/-- What the dispatchers of a program served before does not show, unless one of those
requests, or this one, overruns its buffer. -/
theorem history_independent (h : ∀ i, Serves L (options i) (routes i) (ds i))
    (history : List (ι × Bytes)) {i j : ι} (hij : (ds j).router = (ds i).router) (path : Bytes) :
    (∃ ds' r r' ctx, serveAll L ds history = some ds' ∧
      (ds' i).request L path = some r ∧ (ds' j).request L path = some r' ∧
      wrouterNresolve L (ds' i) path = some (ctx, r.dispatcher) ∧
      wrouterNresolve L (ds' j) path = some (ctx, r'.dispatcher) ∧
      r'.dispatcher.params.count = r.dispatcher.params.count ∧
      (∀ k < r.dispatcher.params.count,
        r'.dispatcher.params.slots k = r.dispatcher.params.slots k) ∧
      (r.route = none → r.dispatcher.params.count = 0 ∧ r'.dispatcher.params.count = 0)) ↔
      (∀ call ∈ history, ¬ Overrun (entries (options call.1).paramSyntax (routes call.1))
        (parseRequest call.2).segments) ∧
      ¬ Overrun (entries (options i).paramSyntax (routes i)) (parseRequest path).segments := by
  obtain ⟨hnone, call, hmem, hover⟩ | ⟨hall, ds', hrun, hserves⟩ := serveAll_cases h history
  · refine iff_of_false ?_ fun hcond => hcond.1 call hmem hover
    rintro ⟨ds', r, r', ctx, hrun, -⟩
    rw [hnone] at hrun
    cases hrun
  obtain ⟨hnone, hover⟩ | ⟨hin, r, q, walk, hr, hresp⟩ := (hserves i).1.request path
  · refine iff_of_false ?_ fun hcond => hcond.2 hover
    rintro ⟨ds₁, r, r', ctx, hrun₁, hr, -⟩
    obtain rfl := Option.some.inj (hrun.symm.trans hrun₁)
    rw [hnone] at hr
    cases hr
  · refine iff_of_true ?_ ⟨hall, hin⟩
    have hrouter : (ds' j).router = (ds' i).router := by
      rw [(hserves j).2, (hserves i).2, hij]
    obtain ⟨-, -, -, hsize⟩ := (hserves i).1.compiled
    obtain ⟨-, -, -, hsize'⟩ := (hserves j).1.compiled
    obtain ⟨r', hr', hroute, hsame⟩ :=
      request_history L hrouter (by rw [hsize, hsize', hrouter]) hr
    have hempty (hnone : r.route = none) : r.dispatcher.params.count = 0 := by
      have hlist := hresp.params
      rw [params_of_none (hresp.route.symm.trans hnone)] at hlist
      rw [← params_list_length, hlist, List.length_nil]
    refine ⟨ds', r, r', (r.route.getD (ds' i).router.fallback).ctx, hrun, hr, hr', ?_, ?_,
      hsame.count, hsame.slots, fun hnone => ⟨hempty hnone, hsame.count.trans (hempty hnone)⟩⟩
    · rw [wrouterNresolve, hr, Option.map_some]
    · rw [wrouterNresolve, hr', Option.map_some, hroute, hrouter]

end Program

def deployTwo (L : Libc) (options : Options) (routes : List (Bytes × Route)) (w : World) :
    Option (Bool → Dispatcher) :=
  match buildRoutes options routes w with
  | none => none
  | some (b, w) =>
    match wrouterCompile L (some b) w with
    | (none, _, _) => none
    | (some router, _, w) =>
      match wrouterDispatcherCreate router w with
      | (none, _) => none
      | (some d, w) =>
        (wrouterDispatcherCreate router w).1.map fun d' => fun second => if second then d' else d

theorem deployTwo_serves {L : Libc} {options : Options} {routes : List (Bytes × Route)} {w : World}
    {ds : Bool → Dispatcher} (h : deployTwo L options routes w = some ds) :
    (∀ i, Serves L options routes (ds i)) ∧ (ds true).router = (ds false).router := by
  unfold deployTwo at h
  split at h
  · simp at h
  rename_i b w' hb
  split at h
  · simp at h
  rename_i router err w'' hc
  split at h
  · simp at h
  rename_i d w₁ hd
  obtain ⟨d', hd', rfl⟩ := Option.map_eq_some_iff.mp h
  have hd : (wrouterDispatcherCreate router w'').1 = some d := by rw [hd]
  have hbuilt := buildRoutes_built hb
  have hc : (wrouterCompile L (some b) w').1 = some router := by rw [hc]
  refine ⟨fun i => ?_, ?_⟩
  · cases i with
    | true => exact .create hbuilt hc hd'
    | false => exact .create hbuilt hc hd
  · exact (wrouterDispatcherCreate_ok hd').1.trans (wrouterDispatcherCreate_ok hd).1.symm

/-- Two dispatchers for one router, by running the program that makes them. -/
theorem exists_two {routes : List (Bytes × Route)} {P : (Bool → Dispatcher) → Prop}
    [∀ ds, Decidable (P ds)]
    (h : (deployTwo .reference plainOptions routes .empty).any fun ds => P ds) :
    ∃ ds, (∀ i, Serves .reference plainOptions routes (ds i)) ∧
      (ds true).router = (ds false).router ∧ P ds := by
  obtain ⟨ds, hds, hp⟩ := (Option.any_eq_true _ _).mp h
  obtain ⟨hserves, hrouter⟩ := deployTwo_serves hds
  exact ⟨ds, hserves, hrouter, of_decide_eq_true hp⟩

/-- One dispatcher has served a match and the other a miss and a malformed path. -/
theorem history_independent_dirty : ∃ (ds ds' : Bool → Dispatcher) (r r' : MatchResult) (ctx : Nat),
    (∀ i, Serves .reference plainOptions
      [(ascii "/*", ⟨0, 1⟩), (ascii "/a/:x/:y/b", ⟨0, 2⟩)] (ds i)) ∧
      serveAll .reference ds [(false, ascii "/a/1/2/b"), (true, ascii "/"), (true, ascii "a?")] =
        some ds' ∧
      wrouterNresolve .reference (ds' false) (ascii "/a/3/4/b") = some (ctx, r.dispatcher) ∧
      wrouterNresolve .reference (ds' true) (ascii "/a/3/4/b") = some (ctx, r'.dispatcher) ∧
      r'.dispatcher.params.list = r.dispatcher.params.list := by
  obtain ⟨ds, hserves, hrouter, -⟩ : ∃ ds : Bool → Dispatcher, (∀ i, Serves .reference plainOptions
      [(ascii "/*", ⟨0, 1⟩), (ascii "/a/:x/:y/b", ⟨0, 2⟩)] (ds i)) ∧
        (ds true).router = (ds false).router ∧ True := exists_two (by decide +kernel)
  obtain ⟨ds', r, r', ctx, hrun, -, -, h, h', hcount, hslots, -⟩ :=
    (history_independent hserves
      [(false, ascii "/a/1/2/b"), (true, ascii "/"), (true, ascii "a?")] hrouter
      (ascii "/a/3/4/b")).mpr (by decide +kernel)
  refine ⟨ds, ds', r, r', ctx, hserves, hrun, h, h', ?_⟩
  rw [Params.list, Params.list, hcount]
  exact List.map_congr_left fun k hk => hslots k (List.mem_range.mp hk)

/-- Slot 1 of a buffer of one is no longer the dispatcher's own: what follows, for the
other dispatcher too, is not defined. -/
theorem history_corrupted : ∃ ds : Bool → Dispatcher,
    (∀ i, Serves .reference plainOptions
      [(ascii "/*", ⟨0, 1⟩), (ascii "/a/:x/b", ⟨0, 2⟩)] (ds i)) ∧
      (ds true).router = (ds false).router ∧
      (ds true).params.base ≠ (ds false).params.base ∧ (ds false).params.allocated = 1 ∧
      (resolveRequest .reference (ds false) (ascii "/a/1/c")).map MatchResult.touched =
        some [0, 1] ∧
      (serveAll .reference ds [(true, ascii "/b/2")]).isSome ∧
      serveAll .reference ds [(false, ascii "/a/1/c"), (true, ascii "/b/2")] = none :=
  exists_two (by decide +kernel)

end Wrouter
