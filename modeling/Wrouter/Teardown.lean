import Mathlib.Data.List.Count
import Wrouter.Tree
import Wrouter.Trace

/-!
# Tearing a builder down

A failed call leaves the tree as far as the walk came. The release of the tree follows the
special edges without looking at their pointers, so it comes through exactly where no call
broke off between setting the type of a special edge and filling in its pointer.
-/
namespace Wrouter

open CLib

/-- `if (route) release(route->ctx)`. -/
def releaseRoute (route : Option Route) (w : World) : World :=
  match route with
  | some r => w.release true r.ctx
  | none => w

mutual
/-- None where a null pointer is followed. -/
def segmentRelease : Segment → World → Option World
  | ⟨_, children, _, terminal, trailing, special, _, _⟩, w =>
    match segmentReleaseChildren children w with
    | none => none
    | some w =>
      match segmentReleaseSpecial special w with
      | none => none
      | some w => some (releaseRoute terminal (releaseRoute trailing w))

def segmentReleaseSpecial : Special Segment → World → Option World
  | .param p, w => segmentRelease p w
  | .wildcard route, w => some (w.release true route.ctx)
  -- `segment->head` of a null segment, `->ctx` of a null route
  | .paramNull, _ => none
  | .wildcardNull, _ => none
  | .none, w => some w

def segmentReleaseChildren : List Segment → World → Option World
  | [], w => some w
  | child :: rest, w =>
    match segmentRelease child w with
    | none => none
    | some w => segmentReleaseChildren rest w
end

def builderRelease (builder : Builder) (w : World) : Option World :=
  if ¬ builder.release then some w
  else (segmentRelease builder.root w).map fun w => w.release true builder.fallback.ctx

/-- The callbacks of `wrouter_builder_free`. The frees that follow them test every pointer,
and the tree carries no blocks to free. -/
def wrouterBuilderFree (builder : Option Builder) (w : World) : Option World :=
  match builder with
  | none => some w
  | some builder => builderRelease builder w

/-- The walk of a call breaks off at a special edge: its type is set, and what it should
point to cannot be had. -/
def losesEdge : List Token → Segment → AddState → Bool
  | [], _, _ => false
  | tok :: toks, cur, st =>
    match tok.type with
    | .literal =>
      match cur.special with
      | .param _ => false
      | .paramNull => false
      | _ =>
        match segmentFindChildByToken cur tok with
        | some i => losesEdge toks (cur.children.getD i .zero) st
        | none =>
          match segmentCreate st.literals tok st.world with
          | (.error _, _) => false
          | (.ok (child, _), tbl, w) =>
            match segmentAppendChild cur child with
            | .error _ => false
            | .ok _ => losesEdge toks child { st with literals := tbl, world := w }
    | .param =>
      match cur.special with
      | .none =>
        if cur.childCount ≠ 0 then false
        else
          match segmentCreate st.params tok st.world with
          | (.error _, _) => true
          | (.ok (p, _), tbl, w) => losesEdge toks p { st with params := tbl, world := w }
      | .param p =>
        if cur.childCount ≠ 0 then false
        else if ¬ tokenMatchesSegment tok p then false
        else losesEdge toks p st
      | _ => false
    | .wildcard =>
      match cur.special with
      | .none =>
        (toks.headD (.bare .illegal)).type = .end_ && (st.world.malloc 1).1.isNone
      | _ => false
    | _ => false

def Builder.losesEdge (b : Builder) (pattern : Option Bytes) (w : World) : Bool :=
  !b.corrupted && Wrouter.losesEdge (patternTokens b.paramSyntax pattern) b.root
    ⟨b.literals, b.params, w⟩

def addAll (b : Builder) (w : World) : List (Option Bytes × Route) → Builder × World
  | [] => (b, w)
  | (pattern, route) :: rest =>
    let r := wrouterAddRoute b pattern route w
    addAll r.2.1 r.2.2 rest

/-- No call of the run breaks off at a special edge. -/
def keepsEdges (b : Builder) (w : World) : List (Option Bytes × Route) → Bool
  | [] => true
  | (pattern, route) :: rest =>
    let r := wrouterAddRoute b pattern route w
    !b.losesEdge pattern w && keepsEdges r.2.1 r.2.2 rest

/-! ## Whole trees -/

mutual
/-- No special edge lacks its pointer. -/
def Segment.whole : Segment → Bool
  | ⟨_, children, _, _, _, special, _, _⟩ => wholeChildren children && wholeSpecial special

def wholeSpecial : Special Segment → Bool
  | .param p => p.whole
  | .wildcard _ => true
  | .paramNull => false
  | .wildcardNull => false
  | .none => true

def wholeChildren : List Segment → Bool
  | [] => true
  | c :: cs => c.whole && wholeChildren cs
end

mutual
/-- The contexts of the routes, in the order the release comes to them. -/
def Segment.held : Segment → List Nat
  | ⟨_, children, _, terminal, trailing, special, _, _⟩ =>
    heldChildren children ++ heldSpecial special ++ trailing.toList.map Route.ctx ++
      terminal.toList.map Route.ctx

def heldSpecial : Special Segment → List Nat
  | .param p => p.held
  | .wildcard route => [route.ctx]
  | _ => []

def heldChildren : List Segment → List Nat
  | [] => []
  | c :: cs => c.held ++ heldChildren cs
end

theorem whole_eq (s : Segment) : s.whole = (wholeChildren s.children && wholeSpecial s.special) := by
  cases s
  rw [Segment.whole]

theorem whole_iff {s : Segment} : s.whole ↔ wholeChildren s.children ∧ wholeSpecial s.special := by
  rw [whole_eq, Bool.and_eq_true]

theorem held_eq (s : Segment) : s.held = heldChildren s.children ++ heldSpecial s.special ++
    s.trailing.toList.map Route.ctx ++ s.terminal.toList.map Route.ctx := by
  cases s
  rw [Segment.held]

theorem wholeChildren_iff {l : List Segment} : wholeChildren l ↔ ∀ c ∈ l, c.whole := by
  induction l with
  | nil => simp [wholeChildren]
  | cons c l ih => simp [wholeChildren, ih]

theorem heldChildren_append (l m : List Segment) :
    heldChildren (l ++ m) = heldChildren l ++ heldChildren m := by
  induction l with
  | nil => rfl
  | cons c l ih => simp [heldChildren, ih]

/-- Every tree can be taken apart node by node. -/
theorem Segment.everywhere (s : Segment) : s.Everywhere fun _ => True := by
  obtain ⟨str, children, tail, terminal, trailing, special, n, len⟩ := s
  refine .node _ trivial (fun c hc => c.everywhere) (fun p hp => p.everywhere)
termination_by sizeOf s
decreasing_by
  · have := List.sizeOf_lt_of_mem hc
    simp only [Segment.mk.sizeOf_spec] at this ⊢
    omega
  · obtain rfl : special = .param p := hp
    simp only [Segment.mk.sizeOf_spec, Special.param.sizeOf_spec]
    omega

def World.releaseAll (w : World) (installed : Bool) (ctxs : List Nat) : World :=
  ctxs.foldl (fun w ctx => w.release installed ctx) w

theorem releaseAll_append (w : World) (installed : Bool) (l m : List Nat) :
    w.releaseAll installed (l ++ m) = (w.releaseAll installed l).releaseAll installed m :=
  List.foldl_append

theorem releaseRoute_eq (route : Option Route) (w : World) :
    releaseRoute route w = w.releaseAll true (route.toList.map Route.ctx) := by
  cases route <;> rfl

theorem segmentReleaseChildren_eq {l : List Segment}
    (h : ∀ c ∈ l, ∀ w, segmentRelease c w =
      if c.whole then some (w.releaseAll true c.held) else none) (w : World) :
    segmentReleaseChildren l w =
      if wholeChildren l then some (w.releaseAll true (heldChildren l)) else none := by
  induction l generalizing w with
  | nil => rfl
  | cons c l ih =>
    obtain ⟨hc, hl⟩ := List.forall_mem_cons.mp h
    rw [segmentReleaseChildren, hc, wholeChildren, heldChildren, releaseAll_append]
    cases hwhole : c.whole with
    | false => rfl
    | true => exact ih hl _

/-- The release comes through exactly on a whole tree, and then it releases every context
that the tree holds. -/
theorem segmentRelease_eq (s : Segment) (w : World) :
    segmentRelease s w = if s.whole then some (w.releaseAll true s.held) else none := by
  induction s.everywhere generalizing w with
  | node s _ _ _ ihc ihp =>
    obtain ⟨str, children, tail, terminal, trailing, special, n, len⟩ := s
    have hspecial (w : World) : segmentReleaseSpecial special w =
        if wholeSpecial special then some (w.releaseAll true (heldSpecial special)) else none := by
      cases special with
      | param p => exact ihp p rfl w
      | _ => rfl
    rw [segmentRelease, segmentReleaseChildren_eq ihc, Segment.whole, Segment.held]
    cases hwhole : wholeChildren children with
    | false => rfl
    | true =>
      rw [if_pos rfl]
      dsimp only
      rw [hspecial]
      cases hsp : wholeSpecial special with
      | false => rfl
      | true => simp [releaseRoute_eq, releaseAll_append]

theorem Segment.Sound.whole {s : Segment} (h : s.Sound) : s.whole := by
  induction h with
  | node s hn _ _ ihc ihp =>
    have hspecial : wholeSpecial s.special := by
      have hok := hn.special
      cases hp : s.special with
      | param p => exact ihp p hp
      | paramNull => exact (hp ▸ hok : SpecialOk s.children .paramNull).elim
      | wildcardNull => exact (hp ▸ hok : SpecialOk s.children .wildcardNull).elim
      | _ => rfl
    exact whole_iff.mpr ⟨wholeChildren_iff.mpr ihc, hspecial⟩

theorem wholeChildren_set {l : List Segment} (hl : wholeChildren l) {i : Nat} {c : Segment}
    (hi : l[i]? = some c) (c' : Segment) : wholeChildren (l.set i c') = c'.whole := by
  induction l generalizing i with
  | nil => simp at hi
  | cons d l ih =>
    simp only [wholeChildren, Bool.and_eq_true] at hl
    cases i with
    | zero => simp [wholeChildren, hl.2]
    | succ i => simp [wholeChildren, hl.1, ih hl.2 (by simpa using hi)]

theorem heldChildren_set {l : List Segment} {i : Nat} {c c' : Segment} (hi : l[i]? = some c)
    {gained : List Nat} (h : c'.held.Perm (gained ++ c.held)) :
    (heldChildren (l.set i c')).Perm (gained ++ heldChildren l) := by
  induction l generalizing i with
  | nil => simp at hi
  | cons d l ih =>
    cases i with
    | zero =>
      obtain rfl : d = c := by simpa using hi
      rw [List.set_cons_zero, heldChildren, heldChildren, ← List.append_assoc]
      exact h.append_right _
    | succ i =>
      rw [List.set_cons_succ, heldChildren, heldChildren]
      refine ((ih (by simpa using hi)).append_left _).trans ?_
      rw [← List.append_assoc, ← List.append_assoc]
      exact List.perm_append_comm.append_right _

/-! ## What any walk does -/

/-- The retains of contexts, if the callback is installed. -/
def retained (installed : Bool) (ctxs : List Nat) : List Event :=
  if installed then ctxs.map .retain else []

/-- The context that a call with this outcome adds. -/
def gained (route : Route) (e : WrouterError) : List Nat := if e = .ok then [route.ctx] else []

/-- The effect of a walk on the tree and the callbacks, whether it adds its route or fails:
it retains what it adds, and the tree stays whole unless an edge is lost. -/
structure Effect (retain : Bool) (route : Route) (cur : Segment) (st : AddState)
    (r : WrouterError × Segment × AddState) (lost : Bool) : Prop where
  whole : r.2.1.whole = !lost
  failed : lost = true → r.1 ≠ .ok
  held : r.2.1.held.Perm (gained route r.1 ++ cur.held)
  callbacks : r.2.2.world.callbacks =
    st.world.callbacks ++ retained retain (gained route r.1)
  answers : r.2.2.world.answers <:+ st.world.answers
  params : Grown st.params r.2.2.params
  full : st.world.NoFail → st.params.arena.Ok → lost = true → 65535 ≤ r.2.2.params.count

section Effect

variable {retain : Bool} {route : Route} {cur : Segment} {st : AddState}

/-- A step that gives up, with the tree as it was. -/
theorem effect_stop (hw : cur.whole) {e : WrouterError} (he : e ≠ .ok) {st' : AddState}
    (hq : Quiet st.world st'.world) (hp : st'.params = st.params) :
    Effect retain route cur st (e, cur, st') false := by
  have hgained : gained route e = [] := if_neg he
  refine ⟨hw, by simp, ?_, ?_, hq.answers, hp ▸ .refl _, by simp⟩
  · rw [hgained]
    exact .refl _
  · rw [hgained, hq.callbacks]
    cases retain <;> simp [retained]

/-- A route hung on a node, or the edge for it without the route. -/
theorem effect_hang {cur' : Segment} {lost : Bool} (hw : cur'.whole = !lost)
    (hlost : lost = true → (builderTerminate retain route st).1 = none)
    (hheld : cur'.held.Perm
      ((builderTerminate retain route st).1.toList.map Route.ctx ++ cur.held)) :
    Effect retain route cur st (terminateError (builderTerminate retain route st).1, cur',
      (builderTerminate retain route st).2) lost := by
  rcases hm : st.world.malloc 1 with ⟨_ | b, w⟩
  · have hterm : builderTerminate retain route st = (none, { st with world := w }) := by
      simp [builderTerminate, hm]
    rw [hterm] at hheld ⊢
    have hq := quiet_of_malloc hm
    refine ⟨hw, by simp [terminateError], hheld, ?_, hq.answers, .refl _,
      fun hnofail => absurd hm (malloc_ne_none hnofail)⟩
    rw [hq.callbacks]
    cases retain <;> simp [retained, gained, terminateError]
  · have hterm : builderTerminate retain route st =
        (some route, { st with world := w.retain retain route.ctx }) := by
      simp [builderTerminate, hm]
    rw [hterm] at hheld hlost ⊢
    have hq := quiet_of_malloc hm
    refine ⟨hw, fun hl => absurd (hlost hl) (by simp), hheld, ?_, ?_, .refl _,
      fun _ _ hl => absurd (hlost hl) (by simp)⟩
    · rw [retain_callbacks, hq.callbacks]
      cases retain <;> simp [retained, gained, terminateError]
    · rw [retain_answers]
      exact hq.answers

variable {r : WrouterError × Segment × AddState} {lost : Bool}

/-- The walk through a child. -/
theorem Effect.child {c : Segment} {i : Nat} (hw : cur.whole) (hi : cur.children[i]? = some c)
    (h : Effect retain route c st r lost) : Effect retain route cur st
      (r.1, { cur with children := cur.children.set i r.2.1 }, r.2.2) lost := by
  obtain ⟨hchildren, hspecial⟩ := whole_iff.mp hw
  refine ⟨?_, h.failed, ?_, h.callbacks, h.answers, h.params, h.full⟩
  · rw [whole_eq]
    dsimp only
    rw [wholeChildren_set hchildren hi, hspecial, h.whole, Bool.and_true]
  · rw [held_eq, held_eq cur]
    dsimp only
    have hset := heldChildren_set hi h.held
    simp only [← List.append_assoc]
    exact ((hset.append_right _).append_right _).append_right _

/-- The walk through the parameter. -/
theorem Effect.param {p : Segment} (hw : cur.whole) (hp : cur.special = .param p)
    (h : Effect retain route p st r lost) : Effect retain route cur st
      (r.1, { cur with special := .param r.2.1 }, r.2.2) lost := by
  refine ⟨?_, h.failed, ?_, h.callbacks, h.answers, h.params, h.full⟩
  · rw [whole_eq]
    dsimp only
    rw [(whole_iff.mp hw).1, wholeSpecial, h.whole, Bool.true_and]
  · rw [held_eq, held_eq cur, hp]
    dsimp only [heldSpecial]
    refine (((h.held.append_left _).append_right _).append_right _).trans ?_
    simp only [← List.append_assoc]
    exact ((List.perm_append_comm.append_right _).append_right _).append_right _

/-- A step before the walk that makes a node without routes. -/
theorem Effect.after {cur₁ : Segment} {st₁ : AddState} (h : Effect retain route cur₁ st₁ r lost)
    (hheld : cur₁.held = cur.held) (hq : Quiet st.world st₁.world)
    (hp : Grown st.params st₁.params) : Effect retain route cur st r lost :=
  ⟨h.whole, h.failed, hheld ▸ h.held, by rw [h.callbacks, hq.callbacks],
    h.answers.trans hq.answers, hp.trans h.params,
    fun hw ha => h.full (noFail_of_suffix hw hq.answers) (hp.arena ha)⟩

end Effect

/-- A created segment is a bare node. -/
theorem segmentCreate_bare {tbl tbl' : SymbolTable} {tok : Token} {w w' : World} {seg : Segment}
    {block : Block} (h : segmentCreate tbl tok w = (.ok (seg, block), tbl', w')) :
    seg.Sound ∧ seg.held = [] := by
  unfold segmentCreate at h
  split at h
  · simp at h
  split at h
  · simp at h
  · simp only [Prod.mk.injEq, Except.ok.injEq] at h
    obtain ⟨⟨rfl, -⟩, -⟩ := h
    exact ⟨sound_leaf _ _ _ _, rfl⟩

theorem losesEdge_literal {tok : Token} {toks : List Token} {cur : Segment} {st : AddState}
    (htype : tok.type = .literal) (hparam : ∀ p, cur.special ≠ .param p)
    (hnull : cur.special ≠ .paramNull) :
    losesEdge (tok :: toks) cur st =
      match segmentFindChildByToken cur tok with
      | some i => losesEdge toks (cur.children.getD i .zero) st
      | none =>
        match segmentCreate st.literals tok st.world with
        | (.error _, _) => false
        | (.ok (child, _), tbl, w) =>
          match segmentAppendChild cur child with
          | .error _ => false
          | .ok _ => losesEdge toks child { st with literals := tbl, world := w } := by
  cases hspecial : cur.special with
  | param p => exact absurd hspecial (hparam p)
  | paramNull => exact absurd hspecial hnull
  | _ => simp only [losesEdge, htype, hspecial]

section Walk

variable {retain : Bool} {route : Route} {tok : Token} {toks : List Token} {cur : Segment}
  {st : AddState} (hs : cur.Sound)

include hs

/-- The end of a pattern hangs its route on the node. -/
theorem effect_end (htype : tok.type = .end_) : Effect retain route cur st
    (builderWalk retain route (tok :: toks) cur st) (losesEdge (tok :: toks) cur st) := by
  simp only [builderWalk, losesEdge, htype]
  split
  · exact effect_stop hs.whole (by simp) (.refl _) rfl
  · rename_i hnone
    refine effect_hang (sound_terminal hs _).whole (by simp) ?_
    rw [held_eq, held_eq cur, Option.not_isSome_iff_eq_none.mp hnone, List.perm_iff_count]
    intro ctx
    simp only [List.count_append, Option.toList_none, List.map_nil, List.count_nil]
    omega

theorem effect_trailing (htype : tok.type = .trailing) : Effect retain route cur st
    (builderWalk retain route (tok :: toks) cur st) (losesEdge (tok :: toks) cur st) := by
  simp only [builderWalk, losesEdge, htype]
  split
  · exact effect_stop hs.whole (by simp) (.refl _) rfl
  · rename_i hnone
    refine effect_hang (sound_trailing hs _).whole (by simp) ?_
    rw [held_eq, held_eq cur, Option.not_isSome_iff_eq_none.mp hnone, List.perm_iff_count]
    intro ctx
    simp only [List.count_append, Option.toList_none, List.map_nil, List.count_nil]
    omega

/-- A wildcard whose route cannot be copied loses its edge. -/
theorem effect_wildcard (htype : tok.type = .wildcard) : Effect retain route cur st
    (builderWalk retain route (tok :: toks) cur st) (losesEdge (tok :: toks) cur st) := by
  cases hspecial : cur.special with
  | none =>
    simp only [builderWalk, losesEdge, htype, hspecial]
    split
    · rename_i hnext
      rw [decide_eq_false hnext, Bool.false_and]
      exact effect_stop hs.whole (by simp) (.refl _) rfl
    · rename_i hnext
      rw [decide_eq_true (not_not.mp hnext), Bool.true_and]
      have hchildren := (whole_iff.mp hs.whole).1
      rcases hm : st.world.malloc 1 with ⟨_ | b, w⟩
      · have hterm : (builderTerminate retain route st).1 = none := by simp [builderTerminate, hm]
        refine effect_hang ?_ (fun _ => hterm) ?_
        · rw [whole_eq, hterm, hchildren]
          rfl
        · rw [held_eq, held_eq cur, hterm, hspecial]
          exact .refl _
      · have hterm : (builderTerminate retain route st).1 = some route := by
          simp [builderTerminate, hm]
        refine effect_hang ?_ (by simp) ?_
        · rw [whole_eq, hterm, hchildren]
          rfl
        · rw [held_eq, held_eq cur, hterm, hspecial, List.perm_iff_count]
          intro ctx
          simp only [List.count_append, heldSpecial, Option.toList_some, List.map_cons,
            List.map_nil, List.count_nil]
          omega
  | _ =>
    simp only [builderWalk, losesEdge, htype, hspecial]
    exact effect_stop hs.whole (by simp) (.refl _) rfl

variable (ih : ∀ {cur : Segment} {st : AddState}, cur.Sound →
  Effect retain route cur st (builderWalk retain route toks cur st) (losesEdge toks cur st))

include ih

/-- A parameter whose node cannot be made loses its edge. -/
theorem effect_param (htype : tok.type = .param) : Effect retain route cur st
    (builderWalk retain route (tok :: toks) cur st) (losesEdge (tok :: toks) cur st) := by
  cases hspecial : cur.special with
  | none =>
    simp only [builderWalk, losesEdge, htype, hspecial]
    split
    · exact effect_stop hs.whole (by simp) (.refl _) rfl
    have hchildren := (whole_iff.mp hs.whole).1
    rcases hcreate : segmentCreate st.params tok st.world with ⟨e | ⟨p, block⟩, tbl, w⟩
    · have hq := quiet_of_segmentCreate hcreate
      have he : e ≠ .ok := by rcases segmentCreate_error hcreate with rfl | rfl <;> simp
      have hgained : gained route e = [] := if_neg he
      have hgrown := grown_of_segmentCreate hcreate
      refine ⟨?_, fun _ => he, ?_, ?_, hq.answers, hgrown,
        fun hnofail ha _ => (segmentCreate_full hnofail ha hcreate).trans hgrown.count⟩
      · rw [whole_eq, hchildren]
        rfl
      · rw [held_eq, held_eq cur, hspecial, hgained]
        exact .refl _
      · rw [hq.callbacks, hgained]
        cases retain <;> simp [retained]
    · obtain ⟨hsound, hbare⟩ := segmentCreate_bare hcreate
      have hwhole : Segment.whole { cur with special := .param p } :=
        whole_iff.mpr ⟨hchildren, hsound.whole⟩
      have hq := quiet_of_segmentCreate hcreate
      refine ((ih hsound).param hwhole rfl).after ?_ hq (grown_of_segmentCreate hcreate)
      rw [held_eq, held_eq cur, hspecial]
      simp [heldSpecial, hbare]
  | param p =>
    simp only [builderWalk, losesEdge, htype, hspecial]
    by_cases hcount : cur.childCount ≠ 0
    · rw [if_pos hcount, if_pos hcount]
      exact effect_stop hs.whole (by simp) (.refl _) rfl
    by_cases hmatch : ¬ tokenMatchesSegment tok p
    · rw [if_neg hcount, if_neg hcount, if_pos hmatch, if_pos hmatch]
      exact effect_stop hs.whole (by simp) (.refl _) rfl
    · rw [if_neg hcount, if_neg hcount, if_neg hmatch, if_neg hmatch]
      exact (ih (hs.param hspecial)).param hs.whole hspecial
  | _ =>
    simp only [builderWalk, losesEdge, htype, hspecial]
    exact effect_stop hs.whole (by simp) (.refl _) rfl

/-- A literal that cannot be made leaves its node as it was. -/
theorem effect_literal (htype : tok.type = .literal) : Effect retain route cur st
    (builderWalk retain route (tok :: toks) cur st) (losesEdge (tok :: toks) cur st) := by
  by_cases hspecial : (∃ p, cur.special = .param p) ∨ cur.special = .paramNull
  · rcases hspecial with ⟨p, hp⟩ | hp
    · simp only [builderWalk, losesEdge, htype, hp]
      exact effect_stop hs.whole (by simp) (.refl _) rfl
    · simp only [builderWalk, losesEdge, htype, hp]
      exact effect_stop hs.whole (by simp) (.refl _) rfl
  obtain ⟨hparam, hnull⟩ := not_or.mp hspecial
  rw [builderWalk_literal htype (not_exists.mp hparam) hnull,
    losesEdge_literal htype (not_exists.mp hparam) hnull]
  cases hfind : segmentFindChildByToken cur tok with
  | some i =>
    obtain ⟨c, hc, -⟩ := segmentFindChildByToken_some hfind
    dsimp only
    rw [List.getD_eq_getElem?_getD, hc, Option.getD_some]
    exact (ih (hs.child (List.mem_of_getElem? hc))).child hs.whole hc
  | none =>
    dsimp only
    rcases hcreate : segmentCreate st.literals tok st.world with ⟨e | ⟨child, block⟩, tbl, w⟩
    · refine effect_stop hs.whole ?_ (quiet_of_segmentCreate hcreate) rfl
      rcases segmentCreate_error hcreate with rfl | rfl <;> simp
    dsimp only
    have hq := quiet_of_segmentCreate hcreate
    obtain ⟨hsound, hbare⟩ := segmentCreate_bare hcreate
    rcases happend : segmentAppendChild cur child with e | cur₁
    · refine effect_stop hs.whole ?_ (hq.free (some block)) rfl
      rw [segmentAppendChild_error happend]
      simp
    · obtain ⟨-, rfl⟩ := segmentAppendChild_ok hs.node.count_eq hs.node.tail_eq happend
      have hchild : (cur.children ++ [child])[cur.children.length]? = some child := by simp
      obtain ⟨hchildren, hspecial⟩ := whole_iff.mp hs.whole
      dsimp only
      rw [List.getD_eq_getElem?_getD, Option.getD_some, hchild, Option.getD_some]
      have hwhole : Segment.whole { cur with
          children := cur.children ++ [child]
          tail := some cur.children.length
          childCount := cur.children.length + 1 } := by
        refine whole_iff.mpr ⟨wholeChildren_iff.mpr fun c hc => ?_, hspecial⟩
        rcases List.mem_append.mp hc with hc | hc
        · exact wholeChildren_iff.mp hchildren c hc
        · rw [List.mem_singleton.mp hc]
          exact hsound.whole
      have hstep : Effect retain route _ { st with literals := tbl, world := w } _ _ :=
        (ih hsound).child hwhole hchild
      refine hstep.after ?_ hq (.refl _)
      rw [held_eq, held_eq cur]
      simp [heldChildren_append, heldChildren, hbare]

end Walk

/-- The walk, by induction on the tokens. -/
theorem builderWalk_effect {retain : Bool} {route : Route} {toks : List Token} {cur : Segment}
    {st : AddState} (hs : cur.Sound) : Effect retain route cur st
      (builderWalk retain route toks cur st) (losesEdge toks cur st) := by
  induction toks generalizing cur st with
  | nil => exact effect_stop hs.whole (by simp) (.refl _) rfl
  | cons tok toks ih =>
    cases htype : tok.type with
    | illegal =>
      simp only [builderWalk, losesEdge, htype]
      exact effect_stop hs.whole (by simp) (.refl _) rfl
    | end_ => exact effect_end hs htype
    | trailing => exact effect_trailing hs htype
    | wildcard => exact effect_wildcard hs htype
    | param => exact effect_param hs ih htype
    | literal => exact effect_literal hs ih htype

/-! ## Calls -/

/-- A builder that is not corrupted holds the routes of its successful calls. -/
def Builder.Usable (b : Builder) : Prop := b.corrupted = false → ∃ es, b.Holds es

structure CallEffect (b : Builder) (route : Route) (w : World)
    (r : WrouterError × Builder × World) (lost : Bool) : Prop where
  whole : r.2.1.root.whole = (b.root.whole && !lost)
  held : r.2.1.root.held.Perm (gained route r.1 ++ b.root.held)
  callbacks : r.2.2.callbacks = w.callbacks ++ retained b.retain (gained route r.1)
  answers : r.2.2.answers <:+ w.answers
  fallback : r.2.1.fallback = b.fallback
  retain : r.2.1.retain = b.retain
  release : r.2.1.release = b.release
  usable : r.2.1.Usable
  params : Grown b.params r.2.1.params
  full : w.NoFail → b.params.arena.Ok → lost = true → 65535 ≤ r.2.1.params.count

theorem patternTokens_null (σ : ParamSyntax) : patternTokens σ none = [.bare .illegal] := by
  cases σ <;> decide

theorem wrouterAddRoute_usable {b : Builder} (hb : b.Usable) (pattern : Option Bytes)
    (route : Route) (w : World) : (wrouterAddRoute b pattern route w).2.1.Usable := by
  intro hintact
  by_cases hok : (wrouterAddRoute b pattern route w).1 = .ok
  · cases hcorrupted : b.corrupted with
    | true => simp [wrouterAddRoute, builderAddRoute, hcorrupted] at hok
    | false =>
      cases pattern with
      | none =>
        simp [wrouterAddRoute, builderAddRoute, hcorrupted, patternTokens_null, builderWalk,
          Token.bare] at hok
      | some p =>
        obtain ⟨es, hes⟩ := hb hcorrupted
        exact ⟨_, (wrouterAddRoute_holds hes (Prod.ext hok rfl)).1⟩
  · unfold wrouterAddRoute at hok hintact
    dsimp only at hok hintact
    split at hintact
    · simp at hintact
    · rename_i hne
      rw [if_neg hne] at hok
      exact absurd hok hne

/-- A call on a builder that is not corrupted is a walk; afterwards it may be corrupted. -/
theorem wrouterAddRoute_walk {b : Builder} (hcorrupted : b.corrupted = false)
    (pattern : Option Bytes) (route : Route) (w : World) :
    ∃ corrupted, wrouterAddRoute b pattern route w =
      let r := builderWalk b.retain route (patternTokens b.paramSyntax pattern) b.root
        ⟨b.literals, b.params, w⟩
      (r.1, { b with
        root := r.2.1
        literals := r.2.2.literals
        params := r.2.2.params
        corrupted := corrupted }, r.2.2.world) := by
  unfold wrouterAddRoute builderAddRoute
  simp only [hcorrupted, Bool.false_eq_true, if_false]
  split
  · exact ⟨true, rfl⟩
  · exact ⟨false, rfl⟩

theorem wrouterAddRoute_effect {b : Builder} (hb : b.Usable) (pattern : Option Bytes)
    (route : Route) (w : World) :
    CallEffect b route w (wrouterAddRoute b pattern route w) (b.losesEdge pattern w) := by
  have husable := wrouterAddRoute_usable hb pattern route w
  cases hcorrupted : b.corrupted with
  | true =>
    have hcall : wrouterAddRoute b pattern route w = (.builderCorrupted, b, w) := by
      have hsame : { b with corrupted := true } = b := by rw [← hcorrupted]
      simp [wrouterAddRoute, builderAddRoute, hcorrupted, hsame]
    rw [hcall] at husable ⊢
    have hlost : b.losesEdge pattern w = false := by simp [Builder.losesEdge, hcorrupted]
    rw [hlost]
    refine ⟨by simp, .refl _, ?_, List.suffix_rfl, rfl, rfl, rfl, husable, .refl _, by simp⟩
    cases b.retain <;> simp [retained, gained]
  | false =>
    obtain ⟨es, hes⟩ := hb hcorrupted
    have hwalk : Effect b.retain route b.root ⟨b.literals, b.params, w⟩ _ _ :=
      @builderWalk_effect _ _ (patternTokens b.paramSyntax pattern) _ _ hes.sound
    have hlost : b.losesEdge pattern w = Wrouter.losesEdge (patternTokens b.paramSyntax pattern)
        b.root ⟨b.literals, b.params, w⟩ := by simp [Builder.losesEdge, hcorrupted]
    obtain ⟨corrupted, hcall⟩ := wrouterAddRoute_walk hcorrupted pattern route w
    rw [hcall] at husable ⊢
    rw [hlost]
    refine ⟨?_, hwalk.held, hwalk.callbacks, hwalk.answers, rfl, rfl, rfl, husable, hwalk.params,
      hwalk.full⟩
    rw [hes.sound.whole, Bool.true_and]
    exact hwalk.whole

/-! ## Runs -/

structure Booked (b : Builder) (w : World) : Prop where
  retains : ∀ ctx, w.retains ctx =
    if b.retain then (b.fallback.ctx :: b.root.held).count ctx else 0
  releases : ∀ ctx, w.releases ctx = 0

theorem count_retained (installed : Bool) (ctxs : List Nat) (ctx : Nat) :
    (retained installed ctxs).count (.retain ctx) = (if installed then ctxs.count ctx else 0) ∧
      (retained installed ctxs).count (.release ctx) = 0 := by
  cases installed with
  | false => exact ⟨rfl, rfl⟩
  | true =>
    refine ⟨?_, ?_⟩
    · exact List.count_map_of_injective _ _ (fun a b h => by simpa using h) _
    · rw [List.count_eq_zero]
      simp [retained]

/-- The step lemma: a call keeps the books. -/
theorem CallEffect.booked {b : Builder} {route : Route} {w : World}
    {r : WrouterError × Builder × World} {lost : Bool} (h : CallEffect b route w r lost)
    (hb : Booked b w) : Booked r.2.1 r.2.2 := by
  constructor
  · intro ctx
    have hcount := (count_retained b.retain (gained route r.1) ctx).1
    have hheld := h.held.count_eq ctx
    have hold := hb.retains ctx
    rw [List.count_append] at hheld
    rw [World.retains, h.callbacks, List.count_append, hcount, ← World.retains, hold, h.retain,
      h.fallback, List.count_cons, List.count_cons, hheld]
    split <;> omega
  · intro ctx
    rw [World.releases, h.callbacks, List.count_append, (count_retained _ _ ctx).2,
      ← World.releases, hb.releases]

theorem wrouterBuilderCreate_fresh {options : Options} {b : Builder} {w w' : World}
    (h : wrouterBuilderCreate options w = (some b, w')) : b = .fresh options ∧
      w'.callbacks = w.callbacks ++ retained options.retain [options.fallbackCtx] ∧
      w'.answers <:+ w.answers := by
  unfold wrouterBuilderCreate at h
  split at h
  · simp at h
  rename_i block w₁ hm
  dsimp only at h
  split at h
  · simp at h
  rename_i block' w₂ hm'
  simp only [Prod.mk.injEq, Option.some.injEq] at h
  obtain ⟨rfl, rfl⟩ := h
  have hq := quiet_of_malloc hm
  have hq' := quiet_of_malloc hm'
  refine ⟨rfl, ?_, ?_⟩
  · rw [hq'.callbacks, retain_callbacks, hq.callbacks]
    rfl
  · have hanswers := hq'.answers
    rw [retain_answers] at hanswers
    exact hanswers.trans hq.answers

/-- After a run of calls the builder is whole if no call lost an edge. -/
theorem addAll_whole {b : Builder} (hb : b.Usable) (w : World) (adds : List (Option Bytes × Route)) :
    (addAll b w adds).1.root.whole = (b.root.whole && keepsEdges b w adds) := by
  induction adds generalizing b w with
  | nil => simp [addAll, keepsEdges]
  | cons call rest ih =>
    have hcall := wrouterAddRoute_effect hb call.1 call.2 w
    rw [addAll, ih hcall.usable, hcall.whole, keepsEdges, Bool.and_assoc]

/-- The run lemma: the books after any calls. -/
theorem addAll_effect {b : Builder} {w : World} (hb : b.Usable) (hbooked : Booked b w)
    (adds : List (Option Bytes × Route)) :
    (addAll b w adds).1.release = b.release ∧ (addAll b w adds).1.retain = b.retain ∧
      (addAll b w adds).1.fallback = b.fallback ∧ Booked (addAll b w adds).1 (addAll b w adds).2 := by
  induction adds generalizing b w with
  | nil => exact ⟨rfl, rfl, rfl, hbooked⟩
  | cons call rest ih =>
    obtain ⟨pattern, route⟩ := call
    have hcall := wrouterAddRoute_effect hb pattern route w
    obtain ⟨hrelease, hretain, hfallback, hend⟩ := ih hcall.usable (hcall.booked hbooked)
    exact ⟨hrelease.trans hcall.release, hretain.trans hcall.retain,
      hfallback.trans hcall.fallback, hend⟩

theorem releaseAll_callbacks (w : World) (ctxs : List Nat) :
    (w.releaseAll true ctxs).callbacks = w.callbacks ++ ctxs.map .release := by
  induction ctxs generalizing w with
  | nil => simp [World.releaseAll]
  | cons ctx ctxs ih =>
    have := ih (w.release true ctx)
    rw [release_callbacks] at this
    simpa [World.releaseAll] using this

theorem releaseAll_answers (w : World) (installed : Bool) (ctxs : List Nat) :
    (w.releaseAll installed ctxs).answers = w.answers := by
  induction ctxs generalizing w with
  | nil => rfl
  | cons ctx ctxs ih =>
    have hstep := ih (w.release installed ctx)
    rwa [release_answers] at hstep

theorem releaseAll_moves (w : World) (ctxs : List Nat) :
    Moves [] ctxs w (w.releaseAll true ctxs) := by
  refine ⟨fun ctx => ?_, fun ctx => ?_, ?_⟩
  · rw [World.retains, releaseAll_callbacks, List.count_append,
      List.count_eq_zero.mpr (show Event.retain ctx ∉ ctxs.map .release by simp)]
    rfl
  · rw [World.releases, releaseAll_callbacks, List.count_append,
      List.count_map_of_injective _ _ (fun a b h => by simpa using h)]
    rfl
  · exact ⟨[], by rw [List.nil_append, releaseAll_answers]⟩

/-- Freeing a builder with a release callback. -/
theorem wrouterBuilderFree_eq {b : Builder} (hrelease : b.release = true) (w : World) :
    wrouterBuilderFree (some b) w =
      if b.root.whole then some (w.releaseAll true (b.root.held ++ [b.fallback.ctx])) else none := by
  rw [wrouterBuilderFree, builderRelease, if_neg (by simp [hrelease]), segmentRelease_eq,
    releaseAll_append]
  split <;> rfl

/-- After any calls, tearing the builder down releases every retained context once, exactly
where no call broke off at a special edge. -/
theorem teardown_iff {options : Options} (hrelease : options.release = true)
    {answers : List (Option Nat)} {b : Builder} {w : World}
    (hcreate : wrouterBuilderCreate options ⟨answers, 0, []⟩ = (some b, w))
    (adds : List (Option Bytes × Route)) :
    (∃ w', wrouterBuilderFree (some (addAll b w adds).1) (addAll b w adds).2 = some w' ∧
      ∀ ctx, w'.retains ctx = (addAll b w adds).2.retains ctx ∧
        (options.retain = true → w'.releases ctx = (addAll b w adds).2.retains ctx)) ↔
      keepsEdges b w adds := by
  obtain ⟨rfl, hcallbacks, -⟩ := wrouterBuilderCreate_fresh hcreate
  have hbooked : Booked (.fresh options) w := by
    refine ⟨fun ctx => ?_, fun ctx => ?_⟩
    · rw [World.retains, hcallbacks, List.count_append, (count_retained _ _ ctx).1]
      exact Nat.zero_add _
    · rw [World.releases, hcallbacks, List.count_append, (count_retained _ _ ctx).2]
      rfl
  have husable : (Builder.fresh options).Usable := fun _ => ⟨[], (wrouterBuilderCreate_holds hcreate).1⟩
  have hwhole := addAll_whole husable w adds
  obtain ⟨hrel, hret, -, hend⟩ := addAll_effect husable hbooked adds
  generalize addAll (.fresh options) w adds = r at hwhole hrel hret hend ⊢
  have hroot : (Builder.fresh options).root.whole = true := rfl
  rw [wrouterBuilderFree_eq (hrel.trans hrelease), hwhole, hroot, Bool.true_and]
  constructor
  · rintro ⟨w', hfree, -⟩
    by_contra hlost
    rw [if_neg hlost] at hfree
    simp at hfree
  · intro hkeeps
    have hmoves := releaseAll_moves r.2 (r.1.root.held ++ [r.1.fallback.ctx])
    refine ⟨_, if_pos hkeeps, fun ctx => ⟨hmoves.retains ctx, fun hretain => ?_⟩⟩
    have hinstalled : r.1.retain = true := hret.trans hretain
    rw [hmoves.releases, hend.releases, hend.retains, if_pos hinstalled, Nat.zero_add]
    exact (List.perm_append_singleton _ _).count_eq ctx

def countingOptions : Options := ⟨0, 7, .colon, true, true⟩

/-- A conflict corrupts the builder and loses no edge: it can be freed. -/
theorem teardown_iff_conflict : ∃ b w w',
    wrouterBuilderCreate countingOptions ⟨[], 0, []⟩ = (some b, w) ∧
      wrouterBuilderFree
        (some (addAll b w [(some (ascii "/a"), ⟨0, 1⟩), (some (ascii "/:x"), ⟨0, 2⟩)]).1)
        (addAll b w [(some (ascii "/a"), ⟨0, 1⟩), (some (ascii "/:x"), ⟨0, 2⟩)]).2 = some w' := by
  have hcreate : wrouterBuilderCreate countingOptions ⟨[], 0, []⟩ =
      (some (.fresh countingOptions), (wrouterBuilderCreate countingOptions ⟨[], 0, []⟩).2) := rfl
  obtain ⟨w', hfree, -⟩ := (teardown_iff rfl hcreate
    [(some (ascii "/a"), ⟨0, 1⟩), (some (ascii "/:x"), ⟨0, 2⟩)]).mpr (by decide +kernel)
  exact ⟨_, _, w', hcreate, hfree⟩

/-- The allocation of the parameter's segment fails: the edge is left null, and the release
follows it. -/
theorem teardown_follows_null : ∃ b w,
    wrouterBuilderCreate countingOptions ⟨[some 0, some 0, none], 0, []⟩ = (some b, w) ∧
      (wrouterAddRoute b (some (ascii "/:x")) ⟨0, 1⟩ w).1 = .noMemory ∧
      wrouterBuilderFree (some (addAll b w [(some (ascii "/:x"), ⟨0, 1⟩)]).1)
        (addAll b w [(some (ascii "/:x"), ⟨0, 1⟩)]).2 = none := by
  refine ⟨.fresh countingOptions, _, rfl, ?_, ?_⟩
  · decide +kernel
  · decide +kernel

end Wrouter
