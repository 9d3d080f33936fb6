import Wrouter.Lib.Runs
import Wrouter.Refusal
import Wrouter.Verdict

/-!
# The builder as a set of routes

What a builder answers depends on the routes it took and on nothing else: not on the order
they came in, nor on the tree they were put in.
-/
namespace Wrouter

open Answers CLib Runs

/-! ## Runs -/

/-- What is left of a builder when the tree is forgotten: the routes it took, and whether a
call failed. -/
structure RouteSet where
  accepted : List Entry
  refused : Bool

def RouteSet.empty : RouteSet := ⟨[], false⟩

def RouteSet.words (s : RouteSet) : List (List Tok) := s.accepted.map Prod.fst

def RouteSet.vocabulary (s : RouteSet) : Vocabulary :=
  ⟨(s.words.flatMap fun w => w.filterMap literalText).toFinset,
    (s.words.flatMap fun w => w.filterMap paramText).toFinset⟩

def RouteSet.add (e : Entry) (s : RouteSet) : WrouterError × RouteSet :=
  if s.refused then (.builderCorrupted, s)
  else
    let code := verdict s.vocabulary s.words e.1
    (code, if code = .ok then ⟨s.accepted ++ [e], false⟩ else ⟨s.accepted, true⟩)

/-- Adding the route leaves an edge without its end. -/
def RouteSet.losesEdge (e : Entry) (s : RouteSet) : Bool :=
  !s.refused && namesFull s.vocabulary s.words e.1

/-- `wrouter_add_route` as a step of the builder and the world. -/
def addStep (call : Option Bytes × Route) (s : Builder × World) :
    WrouterError × Builder × World :=
  wrouterAddRoute s.1 call.1 call.2 s.2

def callEntry (paramSyntax : ParamSyntax) (call : Option Bytes × Route) : Entry :=
  ((patternTokens paramSyntax call.1).map Token.tok, call.2)

theorem mem_literals {s : RouteSet} {t : Bytes} :
    t ∈ s.vocabulary.literals ↔ ∃ e ∈ s.accepted, Tok.literal t ∈ e.1 := by
  have hletter : ∀ a, literalText a = some t ↔ a = .literal t := by
    intro a
    cases a <;> simp [literalText]
  simp [RouteSet.vocabulary, RouteSet.words, List.mem_filterMap, hletter]

theorem mem_params {s : RouteSet} {t : Bytes} :
    t ∈ s.vocabulary.params ↔ ∃ e ∈ s.accepted, Tok.param t ∈ e.1 := by
  have hletter : ∀ a, paramText a = some t ↔ a = .param t := by
    intro a
    cases a <;> simp [paramText]
  simp [RouteSet.vocabulary, RouteSet.words, List.mem_filterMap, hletter]

theorem Grows.grown {route : Route} {toks : List Token} {cur cur' : Segment} {st st' : AddState}
    (h : Grows route toks cur st cur' st') :
    Grown st.literals st'.literals ∧ Grown st.params st'.params := by
  induction h with
  | end_ _ _ hl hp => exact ⟨hl ▸ .refl _, hp ▸ .refl _⟩
  | trailing _ _ hl hp => exact ⟨hl ▸ .refl _, hp ▸ .refl _⟩
  | wildcard _ _ _ hl hp => exact ⟨hl ▸ .refl _, hp ▸ .refl _⟩
  | oldLiteral _ _ _ _ ih => exact ih
  | newLiteral _ _ _ hcreate hp _ _ ih =>
    exact ⟨(grown_of_segmentCreate hcreate).trans ih.1, hp ▸ ih.2⟩
  | oldParam _ _ _ _ ih => exact ih
  | newParam _ _ _ hcreate hl _ ih =>
    exact ⟨hl ▸ ih.1, (grown_of_segmentCreate hcreate).trans ih.2⟩

theorem addStep_corrupted {b : Builder} (hcorrupted : b.corrupted = true) (w : World)
    (call : Option Bytes × Route) : addStep call (b, w) = (.builderCorrupted, b, w) := by
  have hsame : { b with corrupted := true } = b := by rw [← hcorrupted]
  simp [addStep, wrouterAddRoute, builderAddRoute, hcorrupted, hsame]

/-- A call fails and marks the builder, or succeeds and leaves it open. -/
theorem addStep_marks (call : Option Bytes × Route) (b : Builder) (w : World)
    (hlive : b.corrupted = false) :
    ((addStep call (b, w)).1 = .ok ∧ (addStep call (b, w)).2.1.corrupted = false) ∨
      (addStep call (b, w)).1 ≠ .ok ∧ (addStep call (b, w)).2.1.corrupted = true := by
  unfold addStep wrouterAddRoute
  dsimp only
  split
  · rename_i hne
    exact Or.inr ⟨hne, rfl⟩
  · rename_i heq
    refine Or.inl ⟨not_not.mp heq, ?_⟩
    unfold builderAddRoute
    rw [if_neg (by simp [hlive])]
    exact hlive

theorem addStep_noMemory {call : Option Bytes × Route} {b : Builder} {w : World}
    (h : (addStep call (b, w)).1 = .noMemory) : (addStep call (b, w)).2.1.corrupted = true := by
  cases hcorrupted : b.corrupted with
  | true => rw [addStep_corrupted hcorrupted, hcorrupted]
  | false =>
    obtain ⟨hok, -⟩ | ⟨-, hmarked⟩ := addStep_marks call b w hcorrupted
    · exact absurd (hok.symm.trans h) (by simp)
    · exact hmarked

structure Stands (paramSyntax : ParamSyntax) (s : Builder × World) (t : RouteSet) : Prop where
  paramSyntax : s.1.paramSyntax = paramSyntax
  refused : s.1.corrupted = t.refused
  holds : t.refused = false → s.1.Holds t.accepted
  literalArena : t.refused = false → s.1.literals.arena.Ok
  paramArena : t.refused = false → s.1.params.arena.Ok

/-- A created builder stands for no routes. -/
theorem stands_create {options : Options} {b : Builder} {w w' : World}
    (h : wrouterBuilderCreate options w = (some b, w')) :
    Stands options.paramSyntax (b, w') .empty := by
  obtain ⟨hholds, hstyle⟩ := wrouterBuilderCreate_holds h
  obtain ⟨rfl, -⟩ := wrouterBuilderCreate_fresh h
  exact ⟨hstyle, rfl, fun _ => hholds, fun _ h => absurd rfl h, fun _ h => absurd rfl h⟩

/-- The set judges the walk of the next call. -/
theorem Stands.judged {paramSyntax : ParamSyntax} {b : Builder} {w : World} {t : RouteSet}
    (h : Stands paramSyntax (b, w) t) (hopen : t.refused = false) (call : Option Bytes × Route) :
    Judged b.retain call.2 (patternTokens b.paramSyntax call.1) b.root ⟨b.literals, b.params, w⟩
      t.vocabulary t.words := by
  have hb := h.holds hopen
  have hreads : Reads t.words b.root := by
    intro u
    rw [RouteSet.words, List.mem_map]
    simp [hb.routes.mem_iff]
  have hspeaks : AddState.Speaks ⟨b.literals, b.params, w⟩ t.vocabulary :=
    ⟨fun _ => mem_literals.trans (hb.literals _).symm, fun _ => mem_params.trans (hb.params _).symm⟩
  exact builderWalk_judges (patternTokens_terminated _ _) (patternTokens_named _ _) b.root _ _ _
    hb.sound (hb.covers w) hreads hspeaks

/-- A call gets the verdict of the set, or meets the end of memory. -/
theorem Stands.step {paramSyntax : ParamSyntax} {s : Builder × World} {t : RouteSet}
    (h : Stands paramSyntax s t) (call : Option Bytes × Route)
    (hmemory : (addStep call s).1 ≠ .noMemory) :
    (addStep call s).1 = (RouteSet.add (callEntry paramSyntax call) t).1 ∧
      Stands paramSyntax (addStep call s).2 (RouteSet.add (callEntry paramSyntax call) t).2 := by
  obtain ⟨b, w⟩ := s
  have hjudged := fun hopen => h.judged hopen call
  obtain ⟨hstyle, hrefused, hholds, hliterals, hparams⟩ := h
  obtain rfl : b.paramSyntax = paramSyntax := hstyle
  dsimp only at hrefused hliterals hparams
  cases hopen : t.refused with
  | true =>
    rw [addStep_corrupted (hrefused.trans hopen), RouteSet.add, if_pos hopen]
    exact ⟨rfl, rfl, hrefused, hholds, hliterals, hparams⟩
  | false =>
    have hb := hholds hopen
    obtain ⟨corrupted, hcall⟩ := wrouterAddRoute_walk hb.intact call.1 call.2 w
    have hcode : (addStep call (b, w)).1 =
        verdict t.vocabulary t.words (callEntry b.paramSyntax call).1 := by
      refine Or.resolve_right ?_ hmemory
      rw [addStep, hcall]
      exact (hjudged hopen).imp_left And.left
    rw [RouteSet.add, hopen]
    dsimp only
    rw [if_neg Bool.false_ne_true, ← hcode]
    refine ⟨rfl, ?_⟩
    have hstyle : (addStep call (b, w)).2.1.paramSyntax = b.paramSyntax := by rw [addStep, hcall]
    obtain ⟨hok, hlive⟩ | ⟨hfail, hmarked⟩ := addStep_marks call b w hb.intact
    · rw [if_pos hok]
      have hadd : wrouterAddRoute b call.1 call.2 w = (.ok, (addStep call (b, w)).2) :=
        Prod.ext hok rfl
      have hgrown := (builderWalk_grows (Prod.ext ((congrArg Prod.fst hcall).symm.trans hok) rfl)).grown
      have htables : (addStep call (b, w)).2.1.literals.arena.Ok ∧
          (addStep call (b, w)).2.1.params.arena.Ok := by
        rw [addStep, hcall]
        exact ⟨hgrown.1.arena (hliterals hopen), hgrown.2.arena (hparams hopen)⟩
      obtain ⟨p, hp⟩ : ∃ p, call.1 = some p := by
        refine Option.ne_none_iff_exists'.mp fun hnone => ?_
        rw [hcode, callEntry, hnone, patternTokens_null] at hok
        simp [Token.tok, Token.bare, verdict] at hok
      rw [hp] at hadd
      obtain ⟨hb', -⟩ := wrouterAddRoute_holds hb hadd
      have hentry : (patternWord b.paramSyntax p, call.2) = callEntry b.paramSyntax call := by
        rw [callEntry, hp, patternWord]
      rw [hentry] at hb'
      exact ⟨hstyle, hlive, fun _ => hb', fun _ => htables.1, fun _ => htables.2⟩
    · rw [if_neg hfail]
      exact ⟨hstyle, hmarked, fun h => absurd h (by simp), fun h => absurd h (by simp),
        fun h => absurd h (by simp)⟩

/-- With memory left an edge is lost where the set says so. -/
theorem Stands.losesEdge {paramSyntax : ParamSyntax} {b : Builder} {w : World} {t : RouteSet}
    (h : Stands paramSyntax (b, w) t) (call : Option Bytes × Route)
    (hmemory : (addStep call (b, w)).1 ≠ .noMemory) :
    b.losesEdge call.1 w = t.losesEdge (callEntry paramSyntax call) := by
  obtain rfl : b.paramSyntax = paramSyntax := h.paramSyntax
  have hrefused : b.corrupted = t.refused := h.refused
  rw [Builder.losesEdge, RouteSet.losesEdge, hrefused]
  cases hopen : t.refused with
  | true => rfl
  | false =>
    obtain ⟨corrupted, hcall⟩ := wrouterAddRoute_walk (h.holds hopen).intact call.1 call.2 w
    rw [addStep, hcall] at hmemory
    exact congrArg (true && ·) ((h.judged hopen call).resolve_right hmemory).2

/-- Memory runs out at the first refusal, and only there. -/
theorem Stands.asks {paramSyntax : ParamSyntax} {s : Builder × World} {t : RouteSet}
    (h : Stands paramSyntax s t) (call : Option Bytes × Route) :
    Used s.2.answers (addStep call s).2.2.answers (decide ((addStep call s).1 = .noMemory)) := by
  obtain ⟨b, w⟩ := s
  cases hopen : t.refused with
  | true =>
    rw [addStep_corrupted (h.refused.trans hopen)]
    exact .refl _
  | false =>
    obtain ⟨corrupted, hcall⟩ := wrouterAddRoute_walk (h.holds hopen).intact call.1 call.2 w
    rw [addStep, hcall]
    exact builderWalk_truthful _ _ _ b.root ⟨b.literals, b.params, w⟩ (h.literalArena hopen)
      (h.paramArena hopen)

structure Represents (paramSyntax : ParamSyntax) (s : Builder × World) (t : RouteSet) : Prop
    extends Stands paramSyntax s t where
  noFail : s.2.NoFail

theorem represents_create {options : Options} {b : Builder} {w w' : World} (hw : w.NoFail)
    (h : wrouterBuilderCreate options w = (some b, w')) :
    Represents options.paramSyntax (b, w') .empty :=
  ⟨stands_create h, noFail_of_suffix hw (wrouterBuilderCreate_fresh h).2.2⟩

/-- No call runs out of memory. -/
theorem Represents.memory {paramSyntax : ParamSyntax} {s : Builder × World} {t : RouteSet}
    (h : Represents paramSyntax s t) (call : Option Bytes × Route) :
    (addStep call s).1 ≠ .noMemory := by
  intro hcode
  obtain ⟨asked, hanswers, hiff, -⟩ := (h.toStands.asks call).asked
  exact h.noFail (hanswers ▸ List.mem_append_left _ (hiff.mp (decide_eq_true hcode)))

/-- A call and its verdict. -/
theorem Represents.step {paramSyntax : ParamSyntax} (call : Option Bytes × Route)
    (s : Builder × World) (t : RouteSet) (h : Represents paramSyntax s t) :
    (addStep call s).1 = (RouteSet.add (callEntry paramSyntax call) t).1 ∧
      Represents paramSyntax (addStep call s).2 (RouteSet.add (callEntry paramSyntax call) t).2 := by
  obtain ⟨asked, hanswers, -⟩ := (h.toStands.asks call).asked
  obtain ⟨hcode, hstands⟩ := h.toStands.step call (h.memory call)
  exact ⟨hcode, hstands, noFail_of_suffix h.noFail ⟨asked, hanswers.symm⟩⟩

/-- The run lemma: codes and sets agree after any calls. -/
theorem Represents.run {paramSyntax : ParamSyntax} {s : Builder × World} {t : RouteSet}
    (h : Represents paramSyntax s t) (calls : List (Option Bytes × Route)) :
    (run addStep calls s).1 = (run RouteSet.add (calls.map (callEntry paramSyntax)) t).1 ∧
      Represents paramSyntax (run addStep calls s).2
        (run RouteSet.add (calls.map (callEntry paramSyntax)) t).2 :=
  run_simulates _ (Represents paramSyntax) Represents.step h calls

/-- With memory left the builder is its set of routes: every call of a run returns the verdict
of the set, and the tree holds the routes that were taken. -/
theorem builder_is_route_set {options : Options} {w w' : World} (hw : w.NoFail) {b : Builder}
    (hcreate : wrouterBuilderCreate options w = (some b, w')) (calls : List (Option Bytes × Route)) :
    (run addStep calls (b, w')).1 =
      (run RouteSet.add (calls.map (callEntry options.paramSyntax)) .empty).1 ∧
    Represents options.paramSyntax (run addStep calls (b, w')).2
      (run RouteSet.add (calls.map (callEntry options.paramSyntax)) .empty).2 :=
  (represents_create hw hcreate).run calls

/-- After the first failure the builder refuses everything. -/
theorem builder_is_route_set_codes :
    (run addStep [(some (ascii "/a/:x"), ⟨0, 1⟩), (some (ascii "/a/:x/"), ⟨0, 2⟩),
        (some (ascii "/a/b"), ⟨0, 3⟩), (some (ascii "/c"), ⟨0, 4⟩)]
      (.fresh plainOptions, (wrouterBuilderCreate plainOptions .empty).2)).1 =
        [.ok, .ok, .literalConflictsWithParam, .builderCorrupted] := by
  have hcreate : wrouterBuilderCreate plainOptions .empty =
    (some (.fresh plainOptions), (wrouterBuilderCreate plainOptions .empty).2) := rfl
  have hnoFail : World.empty.NoFail := by simp [World.NoFail, World.empty]
  rw [(builder_is_route_set hnoFail hcreate _).1]
  decide +kernel

/-! ## The order does not matter -/

/-- A verdict depends on the set of words only. -/
theorem verdict_congr {voc : Vocabulary} {ws ws' : List (List Tok)} (h : ∀ w, w ∈ ws ↔ w ∈ ws')
    (u : List Tok) : verdict voc ws u = verdict voc ws' u := by
  have hafter (a : Tok) : ∀ w, w ∈ after a ws ↔ w ∈ after a ws' := fun w => by
    rw [mem_after, mem_after, h]
  have hnext (a : Tok) : after a ws ≠ [] ↔ after a ws' ≠ [] := by
    rw [after_ne_nil, after_ne_nil]
    exact exists_congr fun w => h _
  have hparam : ws.filterMap paramHead ≠ [] ↔ ws'.filterMap paramHead ≠ [] := by
    rw [ne_nil_iff_mem, ne_nil_iff_mem]
    exact exists_congr fun s => by rw [mem_paramHead, mem_paramHead, exists_congr fun w => h _]
  have hliteral : ∀ s, s ∈ ws.filterMap literalHead ↔ s ∈ ws'.filterMap literalHead := fun s => by
    rw [mem_literalHead, mem_literalHead, exists_congr fun w => h _]
  have hliterals : ws.filterMap literalHead ≠ [] ↔ ws'.filterMap literalHead ≠ [] := by
    rw [ne_nil_iff_mem, ne_nil_iff_mem]
    exact exists_congr hliteral
  have hdegree : (ws.filterMap literalHead).toFinset = (ws'.filterMap literalHead).toFinset := by
    ext s
    rw [List.mem_toFinset, List.mem_toFinset, hliteral]
  cases u with
  | nil => rfl
  | cons a rest =>
    cases a with
    | illegal => rfl
    | end_ => simp only [verdict, h]
    | trailing => simp only [verdict, h]
    | wildcard => simp only [verdict, hnext, hparam]
    | param s => simp only [verdict, hnext, hparam, hliterals, verdict_congr (hafter (.param s)) rest]
    | literal s =>
      simp only [verdict, hnext, hparam, hdegree, verdict_congr (hafter (.literal s)) rest]

structure Alike (s t : RouteSet) : Prop where
  accepted : s.accepted.Perm t.accepted
  refused : s.refused = t.refused

/-- Sets that are alike answer alike and stay alike. -/
theorem Alike.step (e : Entry) (s t : RouteSet) (h : Alike s t) :
    (RouteSet.add e s).1 = (RouteSet.add (id e) t).1 ∧
      Alike (RouteSet.add e s).2 (RouteSet.add (id e) t).2 := by
  have hvoc : s.vocabulary = t.vocabulary := by
    have hliterals : s.vocabulary.literals = t.vocabulary.literals := by
      ext x
      simp only [mem_literals, h.accepted.mem_iff]
    have hparams : s.vocabulary.params = t.vocabulary.params := by
      ext x
      simp only [mem_params, h.accepted.mem_iff]
    exact Vocabulary.mk.injEq .. ▸ ⟨hliterals, hparams⟩
  have hcode : verdict s.vocabulary s.words e.1 = verdict t.vocabulary t.words e.1 := by
    rw [hvoc]
    exact verdict_congr (fun w => (h.accepted.map Prod.fst).mem_iff) e.1
  unfold RouteSet.add
  rw [h.refused, id, hcode]
  split
  · exact ⟨rfl, h⟩
  · dsimp only
    split
    · exact ⟨rfl, h.accepted.append_right _, rfl⟩
    · exact ⟨rfl, h.accepted, rfl⟩

/-- A run without failures takes every route. -/
theorem run_add_ok (es : List Entry) (s : RouteSet) (hopen : s.refused = false)
    (hok : AllOk (run RouteSet.add es s).1) :
    (run RouteSet.add es s).2 = ⟨s.accepted ++ es, false⟩ := by
  induction es generalizing s with
  | nil =>
    obtain ⟨accepted, refused⟩ := s
    obtain rfl : refused = false := hopen
    rw [List.append_nil, run]
  | cons e es ih =>
    obtain ⟨hfirst, hrest⟩ := allOk_cons.mp hok
    have hadd : (RouteSet.add e s).2 = ⟨s.accepted ++ [e], false⟩ := by
      unfold RouteSet.add at hfirst ⊢
      rw [if_neg (by simp [hopen])] at hfirst ⊢
      exact if_pos hfirst
    rw [run, hadd]
    rw [hadd] at hrest
    have htail := ih ⟨s.accepted ++ [e], false⟩ rfl hrest
    rwa [List.append_assoc, List.singleton_append] at htail

/-- What two builders answer is the same once they took the same routes, in whatever order. -/
theorem codes_ignore_order {options : Options} {v v' w w' : World} (hv : v.NoFail) (hw : w.NoFail)
    {b c : Builder} (hb : wrouterBuilderCreate options v = (some b, v'))
    (hc : wrouterBuilderCreate options w = (some c, w')) {l m : List (Option Bytes × Route)}
    (hperm : l.Perm m) (hl : AllOk (run addStep l (b, v')).1) (hm : AllOk (run addStep m (c, w')).1)
    (calls : List (Option Bytes × Route)) :
    (run addStep calls (run addStep l (b, v')).2).1 =
      (run addStep calls (run addStep m (c, w')).2).1 := by
  obtain ⟨hcodes, hleft⟩ := (represents_create hv hb).run l
  obtain ⟨hcodes', hright⟩ := (represents_create hw hc).run m
  rw [hcodes] at hl
  rw [hcodes'] at hm
  rw [(hleft.run calls).1, (hright.run calls).1, run_add_ok _ _ rfl hl, run_add_ok _ _ rfl hm]
  have halike : Alike ⟨RouteSet.empty.accepted ++ l.map (callEntry options.paramSyntax), false⟩
      ⟨RouteSet.empty.accepted ++ m.map (callEntry options.paramSyntax), false⟩ :=
    ⟨(hperm.map _).append_left _, rfl⟩
  have hruns := run_simulates id Alike Alike.step halike (calls.map (callEntry options.paramSyntax))
  rw [hruns.1, List.map_id]

/-- Two orders of three routes, and then what is asked of both. -/
theorem codes_ignore_order_three :
    (run addStep [(some (ascii "/a/*"), ⟨0, 4⟩)] (run addStep
      [(some (ascii "/a/:x"), ⟨0, 1⟩), (some (ascii "/b"), ⟨0, 2⟩), (some (ascii "/*"), ⟨0, 3⟩)]
      (.fresh plainOptions, (wrouterBuilderCreate plainOptions .empty).2)).2).1 =
    (run addStep [(some (ascii "/a/*"), ⟨0, 4⟩)] (run addStep
      [(some (ascii "/*"), ⟨0, 3⟩), (some (ascii "/b"), ⟨0, 2⟩), (some (ascii "/a/:x"), ⟨0, 1⟩)]
      (.fresh plainOptions, (wrouterBuilderCreate plainOptions .empty).2)).2).1 := by
  have hcreate : wrouterBuilderCreate plainOptions .empty =
    (some (.fresh plainOptions), (wrouterBuilderCreate plainOptions .empty).2) := rfl
  have hnoFail : World.empty.NoFail := by simp [World.NoFail, World.empty]
  exact codes_ignore_order hnoFail hnoFail hcreate hcreate (by decide) (by decide +kernel)
    (by decide +kernel) _

/-! ## After a failure -/

/-- However memory behaves, the first failure of a run is the last thing that happens to a
builder: later calls are refused, change nothing and touch no memory, and no router comes of it. -/
theorem first_failure_is_last (L : Libc) {b : Builder} (hlive : b.corrupted = false) (w : World)
    (calls : List (Option Bytes × Route)) :
    (AllOk (run addStep calls (b, w)).1 ∧ (run addStep calls (b, w)).2.1.corrupted = false) ∨
      ∃ pre call post e, calls = pre ++ call :: post ∧ e ≠ .ok ∧
        (run addStep calls (b, w)).1 = List.replicate pre.length .ok ++
          e :: List.replicate post.length .builderCorrupted ∧
        (run addStep calls (b, w)).2 = (run addStep (pre ++ [call]) (b, w)).2 ∧
        ∀ v, wrouterCompile L (some (run addStep calls (b, w)).2.1) v =
          (none, .builderCorrupted, v) := by
  induction calls generalizing b w with
  | nil => exact Or.inl ⟨by simp [AllOk, run], hlive⟩
  | cons call calls ih =>
    rcases addStep_marks call b w hlive with ⟨hok, hopen⟩ | ⟨hfail, hmarked⟩
    · rcases ih hopen (addStep call (b, w)).2.2 with ⟨hall, hlast⟩ |
        ⟨pre, call', post, e, rfl, he, hcodes, hstate, hcompile⟩
      · exact Or.inl ⟨allOk_cons.mpr ⟨hok, hall⟩, hlast⟩
      · refine Or.inr ⟨call :: pre, call', post, e, rfl, he, ?_, hstate, hcompile⟩
        rw [run, hcodes, hok, List.length_cons, List.replicate_succ]
        rfl
    · have hrest := run_absorbed (addStep_corrupted hmarked (addStep call (b, w)).2.2) calls
      refine Or.inr ⟨[], call, calls, (addStep call (b, w)).1, rfl, hfail, ?_, ?_, fun v => ?_⟩
      · rw [run, hrest]
        rfl
      · rw [run, hrest]
        rfl
      · rw [run, hrest, wrouterCompile]
        dsimp only
        rw [if_pos hmarked]

def threeCalls : List (Option Bytes × Route) :=
  [(some (ascii "/a"), ⟨0, 1⟩), (some (ascii "/b"), ⟨0, 2⟩), (some (ascii "/c"), ⟨0, 3⟩)]

/-- The second call runs out of memory, and the third is refused. -/
theorem first_failure_is_last_memory :
    (run addStep threeCalls
      (.fresh plainOptions, ⟨List.replicate 5 (some 0) ++ [none], 0, []⟩)).1 =
        [.ok, .noMemory, .builderCorrupted] ∧
    ∀ v, wrouterCompile .reference (some (run addStep threeCalls
      (.fresh plainOptions, ⟨List.replicate 5 (some 0) ++ [none], 0, []⟩)).2.1) v =
        (none, .builderCorrupted, v) := by
  refine ⟨by decide +kernel, ?_⟩
  have hlive : (Builder.fresh plainOptions).corrupted = false := rfl
  rcases first_failure_is_last .reference hlive ⟨List.replicate 5 (some 0) ++ [none], 0, []⟩
    threeCalls with ⟨hall, -⟩ | ⟨-, -, -, -, -, -, -, -, hcompile⟩
  · exact absurd hall (by decide +kernel)
  · exact hcompile

/-! ## Any allocator -/

/-- The codes of calls that met the end of memory: the set takes the calls before, and after
that the builder takes none. -/
def CutShort (paramSyntax : ParamSyntax) (t : RouteSet) (calls : List (Option Bytes × Route))
    (codes : List WrouterError) : Prop :=
  ∃ pre call post, calls = pre ++ call :: post ∧
    AllOk (run RouteSet.add (pre.map (callEntry paramSyntax)) t).1 ∧
    codes = List.replicate pre.length .ok ++ .noMemory :: List.replicate post.length .builderCorrupted

theorem CutShort.cons {paramSyntax : ParamSyntax} {t : RouteSet} {call : Option Bytes × Route}
    {calls : List (Option Bytes × Route)} {codes : List WrouterError}
    (hok : (RouteSet.add (callEntry paramSyntax call) t).1 = .ok)
    (h : CutShort paramSyntax (RouteSet.add (callEntry paramSyntax call) t).2 calls codes) :
    CutShort paramSyntax t (call :: calls) (.ok :: codes) := by
  obtain ⟨pre, call', post, rfl, hpre, rfl⟩ := h
  exact ⟨call :: pre, call', post, rfl, allOk_cons.mpr ⟨hok, hpre⟩, rfl⟩

/-- A builder that is marked fails every call without memory. -/
theorem Stands.closed {paramSyntax : ParamSyntax} {s : Builder × World} {t : RouteSet}
    (h : Stands paramSyntax s t) (hrefused : t.refused = true)
    (calls : List (Option Bytes × Route)) :
    run addStep calls s = (List.replicate calls.length .builderCorrupted, s) ∧
      (run RouteSet.add (calls.map (callEntry paramSyntax)) t).1 =
        List.replicate calls.length .builderCorrupted := by
  have hset (e : Entry) : RouteSet.add e t = (.builderCorrupted, t) := if_pos hrefused
  rw [run_absorbed hset, List.length_map]
  exact ⟨run_absorbed (addStep_corrupted (h.refused.trans hrefused) s.2) calls, rfl⟩

theorem RouteSet.add_fails {e : Entry} {t : RouteSet} (h : (RouteSet.add e t).1 ≠ .ok) :
    (RouteSet.add e t).2.refused = true := by
  unfold RouteSet.add at h ⊢
  split at h
  · rename_i hrefused
    rwa [if_pos hrefused]
  · rename_i hopen
    rw [if_neg hopen]
    dsimp only at h ⊢
    rw [if_neg h]

/-- A run under any allocator, by induction on the calls. -/
theorem Stands.run_asks {paramSyntax : ParamSyntax} {s : Builder × World} {t : RouteSet}
    (h : Stands paramSyntax s t) (calls : List (Option Bytes × Route)) :
    (Used s.2.answers (run addStep calls s).2.2.answers false ∧
      (run addStep calls s).1 = (run RouteSet.add (calls.map (callEntry paramSyntax)) t).1) ∨
    (Used s.2.answers (run addStep calls s).2.2.answers true ∧
      CutShort paramSyntax t calls (run addStep calls s).1) := by
  induction calls generalizing s t with
  | nil => exact Or.inl ⟨.refl _, rfl⟩
  | cons call calls ih =>
    have hused := h.asks call
    rw [run, List.map_cons, run]
    dsimp only
    by_cases hmemory : (addStep call s).1 = .noMemory
    · have hrest := run_absorbed
        (addStep_corrupted (addStep_noMemory hmemory) (addStep call s).2.2) calls
      rw [decide_eq_true hmemory] at hused
      rw [hrest, hmemory]
      exact Or.inr ⟨hused, [], call, calls, rfl, by simp [run, AllOk], rfl⟩
    rw [decide_eq_false hmemory] at hused
    obtain ⟨hcode, hstands⟩ := h.step call hmemory
    rw [hcode]
    by_cases hok : (RouteSet.add (callEntry paramSyntax call) t).1 = .ok
    · obtain ⟨hrest, hcodes⟩ | ⟨hrest, hcut⟩ := ih hstands
      · exact Or.inl ⟨hused.trans hrest, by rw [hcodes]⟩
      · rw [hok]
        exact Or.inr ⟨hused.trans hrest, hcut.cons hok⟩
    · obtain ⟨hrun, hset⟩ := hstands.closed (RouteSet.add_fails hok) calls
      rw [hrun, hset]
      exact Or.inl ⟨hused, rfl⟩

/-- Whatever the allocator answers: as long as it grants, the codes are those of the set of
routes. At its first refusal the call in progress says so, and nothing is asked for after it. -/
theorem refusal_is_reported {options : Options} {b : Builder} {w w' : World}
    (hcreate : wrouterBuilderCreate options w = (some b, w')) (calls : List (Option Bytes × Route)) :
    ∃ asked, w'.answers = asked ++ (run addStep calls (b, w')).2.2.answers ∧
      none ∉ asked.dropLast ∧
      (none ∉ asked → (run addStep calls (b, w')).1 =
        (run RouteSet.add (calls.map (callEntry options.paramSyntax)) .empty).1) ∧
      (none ∈ asked → CutShort options.paramSyntax .empty calls (run addStep calls (b, w')).1) := by
  obtain ⟨hused, hcodes⟩ | ⟨hused, hcut⟩ := (stands_create hcreate).run_asks calls
  · obtain ⟨asked, hasked, hiff, hlast⟩ := hused.asked
    exact ⟨asked, hasked, hlast, fun _ => hcodes, fun hnone => absurd (hiff.mpr hnone) (by simp)⟩
  · obtain ⟨asked, hasked, hiff, hlast⟩ := hused.asked
    exact ⟨asked, hasked, hlast, fun hnone => absurd (hiff.mp rfl) hnone, fun _ => hcut⟩

/-- The sixth answer is a refusal, and the second call reports it; the seventh stays unasked. -/
theorem refusal_is_reported_second :
    let w := (wrouterBuilderCreate plainOptions ⟨List.replicate 7 (some 0) ++ [none, some 0], 0, []⟩).2
    let last := run addStep threeCalls (.fresh plainOptions, w)
    last.1 = [.ok, .noMemory, .builderCorrupted] ∧ last.2.2.answers = [some 0] ∧
      CutShort .colon .empty threeCalls last.1 := by
  intro w last
  have hcreate : wrouterBuilderCreate plainOptions
    ⟨List.replicate 7 (some 0) ++ [none, some 0], 0, []⟩ = (some (.fresh plainOptions), w) := rfl
  have hleft : last.2.2.answers = [some 0] := by decide +kernel
  obtain ⟨asked, hasked, -, -, hcut⟩ := refusal_is_reported hcreate threeCalls
  refine ⟨by decide +kernel, hleft, hcut ?_⟩
  have hsplit : w.answers = (List.replicate 5 (some 0) ++ [none]) ++ last.2.2.answers := by
    rw [hleft]
    rfl
  rw [← List.append_cancel_right (hsplit.symm.trans hasked)]
  simp

end Wrouter
