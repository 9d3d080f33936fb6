import Mathlib.Data.List.Pairwise
import Wrouter.Lib.Words
import Wrouter.Walk

/-!
# Resolution by the set of patterns

What a request resolves to, said of the set of words alone: the trail is the
longest prefix of a pattern that matches the leading segments; an exact match
ends on the trail, and a request that leaves every pattern falls back to the
deepest wildcard on the trail. The walk over a sound tree computes just that.
-/
namespace Wrouter

open CLib Words

/-- A pattern letter against a segment of the request. -/
def MatchesSegment : Tok → Bytes → Prop
  | .literal s, x => x = s
  | .param _, _ => True
  | _, _ => False

instance : ∀ a x, Decidable (MatchesSegment a x)
  | .literal s, x => inferInstanceAs (Decidable (x = s))
  | .param _, _ => isTrue trivial
  | .wildcard, _ | .trailing, _ | .end_, _ | .illegal, _ => isFalse id

/-- The same, for the token the lexer makes of the segment. -/
def Matches (a : Tok) (t : Token) : Prop := MatchesSegment a t.text

def wildcardEnd : List Tok := [.wildcard, .end_]

def dictionary (es : List Entry) : Set Entry := {e | e ∈ es}

@[simp] theorem mem_dictionary {es : List Entry} {e : Entry} : e ∈ dictionary es ↔ e ∈ es := Iff.rfl

/-- The parameters of a prefix, each with its segment. -/
def captures : List Tok → List Token → List Param
  | .param name :: q, t :: xs => ⟨some name, t.ptr, t.length⟩ :: captures q xs
  | _ :: q, _ :: xs => captures q xs
  | _, _ => []

/-- The wildcard's parameter: the request from segment `k` on. -/
def wildcardCapture (xs : List Token) (k : Nat) : Param :=
  let value := xs[k]?.bind Token.ptr
  ⟨some wildcardParam, value, (value.getD []).length⟩

/-- How a request with segments `xs` and last token `fin` ends on its trail. -/
inductive Outcome (S : Set Entry) (xs : List Token) (fin : Tok) (q : List Tok) : Walk → Prop where
  | found {r : Route} : q.length = xs.length → (q ++ [fin], r) ∈ S →
      Outcome S xs fin q ⟨some r, captures q xs⟩
  | missing : q.length = xs.length → (∀ r, (q ++ [fin], r) ∉ S) →
      Outcome S xs fin q ⟨none, captures q xs⟩
  | fallback {k : Nat} {r : Route} : q.length < xs.length → Deepest S wildcardEnd q k r →
      Outcome S xs fin q ⟨some r, captures q xs ++ [wildcardCapture xs k]⟩
  | lost : q.length < xs.length →
      (∀ k r, k ≤ q.length → (q.take k ++ wildcardEnd, r) ∉ S) →
      Outcome S xs fin q ⟨none, captures q xs⟩

/-- The end of a walk that left the patterns with this fallback. -/
def fallbackWalk (fallback : Fallback) (recorded : List Param) : Walk :=
  match fallback with
  | some (r, value) => ⟨some r, recorded ++ [⟨some wildcardParam, value, (value.getD []).length⟩]⟩
  | none => ⟨none, recorded⟩

structure WalksFrom (s : Segment) (xs : List Token) (fin : Token) (fallback : Fallback)
    (recorded : List Param) (q : List Tok) : Prop where
  trail : IsTrail Matches (dictionary s.routes) xs q
  found : q.length = xs.length → ∀ r, (q ++ [fin.tok], r) ∈ s.routes →
    treeWalk (xs ++ [fin]) s fallback recorded = ⟨some r, recorded ++ captures q xs⟩
  missing : q.length = xs.length → (∀ r, (q ++ [fin.tok], r) ∉ s.routes) →
    treeWalk (xs ++ [fin]) s fallback recorded = ⟨none, recorded ++ captures q xs⟩
  deepest : q.length < xs.length → ∀ k r, Deepest (dictionary s.routes) wildcardEnd q k r →
    treeWalk (xs ++ [fin]) s fallback recorded =
      ⟨some r, recorded ++ captures q xs ++ [wildcardCapture xs k]⟩
  lost : q.length < xs.length → (∀ k r, k ≤ q.length → (q.take k ++ wildcardEnd, r) ∉ s.routes) →
    treeWalk (xs ++ [fin]) s fallback recorded = fallbackWalk fallback (recorded ++ captures q xs)

structure Leads (s : Segment) (a : Tok) (c : Segment) : Prop where
  mem : ∀ w r, (a :: w, r) ∈ s.routes ↔ (w, r) ∈ c.routes
  live : c.routes ≠ []

/-- Words that begin with a child's string are those of the child. -/
theorem leads_literal {s c : Segment} (hs : s.Sound) (hc : c ∈ s.children) :
    Leads s (.literal c.label) c := by
  refine ⟨fun w r => ?_, hs.node.live c hc⟩
  rw [literal_mem_routes]
  constructor
  · rintro ⟨d, hd, hl, hmem⟩
    rwa [List.inj_on_of_nodup_map hs.node.distinct hd hc hl] at hmem
  · exact fun hmem => ⟨c, hc, rfl, hmem⟩

/-- Words that begin with the parameter are those of its node. -/
theorem leads_param {s p : Segment} (hs : s.Sound) (hp : s.special = .param p) :
    Leads s (.param p.label) p := by
  obtain ⟨-, -, hlive⟩ : SpecialOk s.children (.param p) := hp ▸ hs.node.special
  refine ⟨fun w r => ?_, hlive⟩
  rw [param_mem_routes]
  constructor
  · rintro ⟨d, hd, -, hmem⟩
    obtain rfl : p = d := by simpa [hp] using hd
    exact hmem
  · exact fun hmem => ⟨p, hp, rfl, hmem⟩

theorem Leads.live_cons {s c : Segment} {a : Tok} (h : Leads s a c) (q : List Tok) :
    Live (dictionary s.routes) (a :: q) ↔ Live (dictionary c.routes) q := by
  rw [live_cons_iff]
  constructor
  · rintro ⟨⟨w, r⟩, he, v, rfl⟩
    exact Or.inr ⟨(q ++ v, r), (h.mem _ _).mp he, v, rfl⟩
  · rintro (rfl | ⟨⟨w, r⟩, he, v, rfl⟩)
    · obtain ⟨⟨w, r⟩, he⟩ := List.exists_mem_of_ne_nil _ h.live
      exact ⟨(a :: w, r), (h.mem _ _).mpr he, w, rfl⟩
    · exact ⟨(a :: (q ++ v), r), (h.mem _ _).mpr he, v, rfl⟩

/-- A trail below a matching letter is a trail with the letter in front. -/
theorem Leads.trail {s c : Segment} {a : Tok} {t : Token} {xs : List Token} {q : List Tok}
    (h : Leads s a c) (ha : Matches a t) (hq : IsTrail Matches (dictionary c.routes) xs q) :
    IsTrail Matches (dictionary s.routes) (t :: xs) (a :: q) := by
  refine ⟨(h.live_cons q).mpr hq.live, ⟨ha, hq.fit⟩, fun b hb hfit => ?_⟩
  exact hq.maximal b ((h.live_cons _).mp hb) hfit.2

theorem Leads.deepest_succ {s c : Segment} {a : Tok} {q : List Tok} (h : Leads s a c) {k : Nat}
    {r : Route} (hd : Deepest (dictionary s.routes) wildcardEnd (a :: q) (k + 1) r) :
    Deepest (dictionary c.routes) wildcardEnd q k r := by
  refine ⟨by simpa using hd.le, (h.mem _ _).mp hd.mem, fun k' r' hlt hle hmem => ?_⟩
  exact hd.last (k' + 1) r' (by omega) (by simpa using hle) ((h.mem _ _).mpr hmem)

/-- The walk through one segment, from the walk at the node it leads to. -/
theorem WalksFrom.step {s c : Segment} {a : Tok} {t : Token} {xs : List Token} {fin : Token}
    {fallback : Fallback} {recorded recorded' : List Param} {q : List Tok} (h : Leads s a c)
    (ha : Matches a t) (hw : ∀ r, ([.wildcard, .end_], r) ∈ s.routes ↔ s.special = .wildcard r)
    (hcap : recorded' ++ captures q xs = recorded ++ captures (a :: q) (t :: xs))
    (hstep : treeWalk (t :: (xs ++ [fin])) s fallback recorded =
      treeWalk (xs ++ [fin]) c (remember s t fallback) recorded')
    (hc : WalksFrom c xs fin (remember s t fallback) recorded' q) :
    WalksFrom s (t :: xs) fin fallback recorded (a :: q) := by
  refine ⟨h.trail ha hc.trail, ?_, ?_, ?_, ?_⟩
  · intro hlen r hmem
    rw [List.cons_append, hstep, ← hcap]
    exact hc.found (by simpa using hlen) r ((h.mem _ _).mp hmem)
  · intro hlen hno
    rw [List.cons_append, hstep, ← hcap]
    exact hc.missing (by simpa using hlen) (fun r hmem => hno r ((h.mem _ _).mpr hmem))
  · intro hlen k r hd
    rw [List.cons_append, hstep, ← hcap]
    cases k with
    | succ k => exact hc.deepest (by simpa using hlen) k r (h.deepest_succ hd)
    | zero =>
      have hspecial := (hw r).mp hd.mem
      rw [hc.lost (by simpa using hlen) (fun k r' hk hmem =>
        hd.last (k + 1) r' (by omega) (by simpa using hk) ((h.mem _ _).mpr hmem))]
      rw [remember_wildcard hspecial]
      simp [fallbackWalk, wildcardCapture]
  · intro hlen hno
    have hspecial : ∀ r, s.special ≠ .wildcard r :=
      fun r hr => hno 0 r (Nat.zero_le _) ((hw r).mpr hr)
    rw [List.cons_append, hstep, ← hcap, hc.lost (by simpa using hlen) (fun k r hk hmem =>
      hno (k + 1) r (by simpa using hk) ((h.mem _ _).mpr hmem)), remember_other hspecial]

/-- The walk from any node, by induction on the segments left. -/
theorem walksFrom {s : Segment} (hs : s.Sound) {xs : List Token}
    (hxs : ∀ t ∈ xs, t.type = .literal) {fin : Token}
    (hfin : fin.type = .end_ ∨ fin.type = .trailing ∨ fin.type = .illegal) (fallback : Fallback)
    (recorded : List Param) : ∃ q, WalksFrom s xs fin fallback recorded q := by
  induction xs generalizing s fallback recorded with
  | nil =>
    refine ⟨[], ⟨live_nil, trivial, fun a _ hf => hf⟩, ?_, ?_, by simp, by simp⟩
    · intro _ r hmem
      rcases hfin with hf | hf | hf <;> simp only [Token.tok, hf, List.nil_append] at hmem
      · simp [treeWalk, hf, (end_mem_routes.mp hmem).2, captures]
      · simp [treeWalk, hf, (trailing_mem_routes.mp hmem).2, captures]
      · exact absurd hmem illegal_mem_routes
    · intro _ hno
      rcases hfin with hf | hf | hf <;> simp only [Token.tok, hf, List.nil_append] at hno
      · have hnone : s.terminal = none :=
          Option.eq_none_iff_forall_ne_some.mpr (fun r hr => hno r (end_mem_routes.mpr ⟨rfl, hr⟩))
        simp [treeWalk, hf, hnone, captures]
      · have hnone : s.trailing = none :=
          Option.eq_none_iff_forall_ne_some.mpr
            (fun r hr => hno r (trailing_mem_routes.mpr ⟨rfl, hr⟩))
        simp [treeWalk, hf, hnone, captures]
      · simp [treeWalk, hf, captures]
  | cons t xs ih =>
    obtain ⟨ht, hxs⟩ := List.forall_mem_cons.mp hxs
    have hw : ∀ r, ([.wildcard, .end_], r) ∈ s.routes ↔ s.special = .wildcard r :=
      fun r => wildcard_mem_routes.trans (and_iff_right rfl)
    cases hfind : s.children.find? (fun c => c.label = t.text) with
    | some c =>
      have hc := List.mem_of_find?_eq_some hfind
      have hlabel : c.label = t.text := by simpa using List.find?_some hfind
      obtain ⟨q, hq⟩ := ih (hs.child hc) hxs (remember s t fallback) recorded
      exact ⟨.literal c.label :: q, .step (leads_literal hs hc) hlabel.symm hw rfl
        (by rw [treeWalk, ht]; simp only [hfind]) hq⟩
    | none =>
      have hno : ∀ c ∈ s.children, c.label ≠ t.text := by
        simpa using List.find?_eq_none.mp hfind
      by_cases hparam : ∃ p, s.special = .param p
      · obtain ⟨p, hp⟩ := hparam
        obtain ⟨q, hq⟩ := ih (hs.param hp) hxs (remember s t fallback)
          (recorded ++ [⟨some p.label, t.ptr, t.length⟩])
        exact ⟨.param p.label :: q, .step (leads_param hs hp) trivial hw (by simp [captures])
          (by rw [treeWalk, ht]; simp only [hfind, hp]) hq⟩
      · -- no edge fits the segment: the trail ends here
        have hstop : treeWalk (t :: xs ++ [fin]) s fallback recorded =
            fallbackWalk (remember s t fallback) recorded := by
          rw [List.cons_append, treeWalk, ht]
          simp only [hfind]
          cases hc : s.special with
          | param p => exact absurd ⟨p, hc⟩ hparam
          | _ => cases remember s t fallback <;> rfl
        refine ⟨[], ⟨live_nil, trivial, ?_⟩, by simp, by simp, ?_, ?_⟩
        · intro a hlive hfit
          obtain ⟨e, he, hpre⟩ := (live_cons_iff a).mp hlive
          cases a with
          | literal x =>
            obtain ⟨c, hc, hl, -⟩ := literal_prefix_routes.mp ⟨e, he, hpre⟩
            exact hno c hc (hl.trans hfit.1.symm)
          | param x =>
            obtain ⟨p, hp, -⟩ := param_prefix_routes.mp ⟨e, he, hpre⟩
            exact hparam ⟨p, hp⟩
          | _ => exact hfit.1
        · intro _ k r hd
          obtain rfl : k = 0 := Nat.le_zero.mp hd.le
          have hspecial := (hw r).mp hd.mem
          rw [hstop, remember_wildcard hspecial]
          simp [fallbackWalk, captures, wildcardCapture]
        · intro _ hno'
          rw [hstop]
          have hspecial : ∀ r, s.special ≠ .wildcard r :=
            fun r hr => hno' 0 r (Nat.le_refl _) ((hw r).mpr hr)
          rw [remember_other hspecial]
          simp [captures]

/-- From the root, the walk ends as the dictionary says. -/
theorem treeWalk_outcome {s : Segment} (hs : s.Sound) {xs : List Token}
    (hxs : ∀ t ∈ xs, t.type = .literal) {fin : Token}
    (hfin : fin.type = .end_ ∨ fin.type = .trailing ∨ fin.type = .illegal) :
    ∃ q, IsTrail Matches (dictionary s.routes) xs q ∧
      Outcome (dictionary s.routes) xs fin.tok q (treeWalk (xs ++ [fin]) s none []) := by
  obtain ⟨q, h⟩ := walksFrom hs hxs hfin none []
  refine ⟨q, h.trail, ?_⟩
  rcases Nat.lt_or_eq_of_le (fits_length h.trail.fit) with hlt | heq
  · by_cases hex : ∃ k r, k ≤ q.length ∧ (q.take k ++ wildcardEnd, r) ∈ dictionary s.routes
    · obtain ⟨k, r, hk, hmem⟩ := hex
      obtain ⟨k', r', -, hd⟩ := deepest_exists hk hmem
      rw [h.deepest hlt k' r' hd]
      exact .fallback hlt hd
    · have hno : ∀ k r, k ≤ q.length → (q.take k ++ wildcardEnd, r) ∉ s.routes :=
        fun k r hk hmem => hex ⟨k, r, hk, hmem⟩
      rw [h.lost hlt hno]
      exact .lost hlt hno
  · by_cases hex : ∃ r, (q ++ [fin.tok], r) ∈ s.routes
    · obtain ⟨r, hmem⟩ := hex
      rw [h.found heq r hmem]
      exact .found heq hmem
    · have hno : ∀ r, (q ++ [fin.tok], r) ∉ s.routes := fun r hmem => hex ⟨r, hmem⟩
      rw [h.missing heq hno]
      exact .missing heq hno

/-! ## Compatible patterns -/

structure Compatible (es : List Entry) : Prop where
  legal : ∀ e ∈ es, Legal e.1
  pairwise : es.Pairwise fun e f => ¬ Conflict e.1 f.1

theorem Built.isCompatible {options : Options} {routes : List (Bytes × Route)} {b : Builder}
    (h : Built options routes b) : Compatible (entries options.paramSyntax routes) :=
  ⟨h.compatible.1, h.compatible.2⟩

section Compatible

variable {es : List Entry} {e f : Entry}

/-- Patterns of one builder that conflict are one. -/
theorem Compatible.eq_of_conflict (h : Compatible es) (he : e ∈ es) (hf : f ∈ es)
    (hc : Conflict e.1 f.1) : e = f := by
  by_contra hne
  have : Std.Symm (fun e f : Entry => ¬ Conflict e.1 f.1) := ⟨fun e f hno hc => hno hc.symm⟩
  exact h.pairwise.forall he hf hne hc

/-- A pattern stands for one route. -/
theorem Compatible.functional (h : Compatible es) {w : List Tok} {r r' : Route}
    (hr : (w, r) ∈ dictionary es) (hr' : (w, r') ∈ dictionary es) : r = r' :=
  congrArg Prod.snd (h.eq_of_conflict hr hr' (Or.inl rfl))

/-- Two letters that continue a prefix and match one segment are the same letter. -/
theorem Compatible.deterministic (h : Compatible es) :
    Deterministic MatchesSegment (dictionary es) := by
  intro q a b x ha hb hma hmb
  by_contra hne
  obtain ⟨e, he, u, hu⟩ := ha.resolve_left (by simp)
  obtain ⟨f, hf, v, hv⟩ := hb.resolve_left (by simp)
  have hclash : Clash a b := by
    cases a <;> cases b <;> simp_all [MatchesSegment, Clash]
  rw [List.append_assoc, List.singleton_append] at hu hv
  have hef := h.eq_of_conflict he hf (Or.inr ⟨q, a, b, u, v, hu.symm, hv.symm, hclash⟩)
  subst hef
  have := hu.trans hv.symm
  simp at this
  exact hne this.1

end Compatible

theorem isTrail_text {S : Set Entry} {xs : List Token} {q : List Tok} :
    IsTrail Matches S xs q ↔ IsTrail MatchesSegment S (xs.map Token.text) q := by
  have hfits (p : List Tok) : Fits Matches p xs ↔ Fits MatchesSegment p (xs.map Token.text) :=
    fits_map MatchesSegment Token.text
  constructor
  · exact fun h => ⟨h.live, (hfits q).mp h.fit, fun a ha hf => h.maximal a ha ((hfits _).mpr hf)⟩
  · exact fun h => ⟨h.live, (hfits q).mpr h.fit, fun a ha hf => h.maximal a ha ((hfits _).mp hf)⟩

/-! ## Responses -/

def requestEnd (path : Bytes) : Tok := (Token.bare (parseRequest path).fin).tok

/-- A response as the patterns determine it: a trail, the way it ends, and what the
caller and the buffer see of that. -/
structure Response (es : List Entry) (path : Bytes) (r : MatchResult) (q : List Tok)
    (walk : Walk) : Prop where
  trail : IsTrail MatchesSegment (dictionary es) (parseRequest path).segments q
  outcome : Outcome (dictionary es) (requestTokens path) (requestEnd path) q walk
  route : r.route = walk.route
  params : r.dispatcher.params.list = walk.params
  touched : r.touched = List.range walk.recorded.length

theorem length_requestTokens (path : Bytes) :
    (requestTokens path).length = (parseRequest path).segments.length := by
  rw [← requestTokens_text, List.length_map]

/-- The answer of a compiled router is the response of its patterns. -/
theorem answers_response {L : Libc} {b : Builder} {es : List Entry} {d : Dispatcher}
    (hb : b.Holds es) (hc : CompiledFrom L b d.router) (path : Bytes) :
    ∃ r q walk, resolveRequest L d path = some r ∧ Response es path r q walk := by
  obtain ⟨r, hr, ha⟩ := resolveRequest_answers hb hc path
  have hxs : ∀ t ∈ requestTokens path, t.type = .literal :=
    fun t ht => (requestTokens_literal ht).1
  have hfin : (Token.bare (parseRequest path).fin).type = .end_ ∨
      (Token.bare (parseRequest path).fin).type = .trailing ∨
      (Token.bare (parseRequest path).fin).type = .illegal := parse_fin path
  obtain ⟨q, htrail, hout⟩ := treeWalk_outcome hb.sound hxs hfin
  have hdict : dictionary b.root.routes = dictionary es :=
    Set.ext (fun e => hb.routes.mem_iff)
  rw [hdict] at htrail hout
  have hwalk : treeWalk (requestTokens path ++ [Token.bare (parseRequest path).fin]) b.root none [] =
      b.walk path := by rw [Builder.walk, lexerTokens_eq]; rfl
  rw [hwalk] at hout
  refine ⟨r, q, b.walk path, hr, ?_, hout, ha.route, ha.params, ha.touched⟩
  rw [← requestTokens_text]
  exact isTrail_text.mp htrail

/-- A dispatcher in service belongs to a compiled router, with a buffer of its size. -/
theorem Serves.compiled {L : Libc} {options : Options} {routes : List (Bytes × Route)}
    {d : Dispatcher} (h : Serves L options routes d) :
    ∃ b, Built options routes b ∧ CompiledFrom L b d.router ∧
      d.params.allocated = d.router.maxParams := by
  induction h with
  | create hb hc hd =>
    obtain ⟨rfl, halloc⟩ := wrouterDispatcherCreate_ok hd
    exact ⟨_, hb, wrouterCompile_ok hc, halloc⟩
  | @resolve d path r _ hr ih =>
    obtain ⟨b, hb, hc, halloc⟩ := ih
    have hr := (Dispatcher.request_some.mp hr).1
    obtain ⟨r', hr', ha⟩ := resolveRequest_answers hb.holds.1 hc path
    obtain rfl : r = r' := Option.some.inj (hr.symm.trans hr')
    exact ⟨b, hb, ha.router ▸ hc, by rw [ha.router, ha.allocated, halloc]⟩

theorem Serves.compatible {L : Libc} {options : Options} {routes : List (Bytes × Route)}
    {d : Dispatcher} (h : Serves L options routes d) :
    Compatible (entries options.paramSyntax routes) := by
  obtain ⟨b, hb, -⟩ := h.compiled
  exact hb.isCompatible

/-- Every request to a dispatcher in service has its response. -/
theorem Serves.responds {L : Libc} {options : Options} {routes : List (Bytes × Route)}
    {d : Dispatcher} (h : Serves L options routes d) (path : Bytes) :
    ∃ r q walk, resolveRequest L d path = some r ∧
      Response (entries options.paramSyntax routes) path r q walk := by
  obtain ⟨b, hb, hc, -⟩ := h.compiled
  exact answers_response hb.holds.1 hc path

/-- The buffer has a slot for every parameter of the pattern that records most. -/
theorem Serves.maxParams {L : Libc} {options : Options} {routes : List (Bytes × Route)}
    {d : Dispatcher} (h : Serves L options routes d) :
    d.router.maxParams = maxSlots (entries options.paramSyntax routes) := by
  obtain ⟨b, hb, hc, -⟩ := h.compiled
  have hholds := hb.holds.1
  rw [hc.maxParams, graphStats_zero hholds.sound]
  exact maxSlots_congr (fun e => hholds.routes.mem_iff)

end Wrouter
