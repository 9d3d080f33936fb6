import Mathlib.Data.Finset.Card
import Wrouter.Conflict
import Wrouter.Teardown

/-!
# The verdict on one more pattern

The code for one more pattern is read off the words of the routes that were taken, letter by
letter; the walk down the tree gives the same, unless an allocation is refused on the way.
-/
namespace Wrouter

open CLib

/-! ## The verdict on a word -/

/-- The words that go on with a letter, without it. -/
def after (a : Tok) (ws : List (List Tok)) : List (List Tok) :=
  ws.filterMap fun w => if w.head? = some a then some w.tail else none

def literalText : Tok → Option Bytes
  | .literal s => some s
  | _ => none

def paramText : Tok → Option Bytes
  | .param s => some s
  | _ => none

/-- The string of a word's first letter, if it is a literal. -/
def literalHead (w : List Tok) : Option Bytes := w.head?.bind literalText

def paramHead (w : List Tok) : Option Bytes := w.head?.bind paramText

structure Vocabulary where
  literals : Finset Bytes
  params : Finset Bytes

/-- The code for one more word, where `ws` are the words of the set beyond the letters that
were read. The order of the tests is that of the token switch. -/
def verdict (voc : Vocabulary) (ws : List (List Tok)) : List Tok → WrouterError
  | [] => .illegalPattern
  | .illegal :: _ => .illegalPattern
  | .end_ :: _ => if [.end_] ∈ ws then .duplicateRoute else .ok
  | .trailing :: _ => if [.trailing] ∈ ws then .duplicateRoute else .ok
  | .wildcard :: rest =>
    if after .wildcard ws ≠ [] then .duplicateRoute
    else if ws.filterMap paramHead ≠ [] then .wildcardConflictsWithParam
    else if rest ≠ [.end_] then .wildcardNotFinal
    else .ok
  | .param s :: rest =>
    if after .wildcard ws ≠ [] then .paramConflictsWithWildcard
    else if ws.filterMap literalHead ≠ [] then .paramConflictsWithLiteral
    else if after (.param s) ws ≠ [] then verdict voc (after (.param s) ws) rest
    else if ws.filterMap paramHead ≠ [] then .paramNameMismatch
    else if 65535 ≤ voc.params.card then .outOfRange
    else verdict { voc with params := insert s voc.params } [] rest
  | .literal s :: rest =>
    if ws.filterMap paramHead ≠ [] then .literalConflictsWithParam
    else if after (.literal s) ws ≠ [] then verdict voc (after (.literal s) ws) rest
    else if 65535 ≤ voc.literals.card then .outOfRange
    else if nodeMaxChildCount ≤ (ws.filterMap literalHead).toFinset.card then .outOfRange
    else verdict { voc with literals := insert s voc.literals } [] rest

/-- The code is that of the table of the parameter names, which is full. The walk has set the
edge then and has nothing for it to point to. -/
def namesFull (voc : Vocabulary) (ws : List (List Tok)) : List Tok → Bool
  | .param s :: rest =>
    if after .wildcard ws ≠ [] then false
    else if ws.filterMap literalHead ≠ [] then false
    else if after (.param s) ws ≠ [] then namesFull voc (after (.param s) ws) rest
    else if ws.filterMap paramHead ≠ [] then false
    else if 65535 ≤ voc.params.card then true
    else namesFull { voc with params := insert s voc.params } [] rest
  | .literal s :: rest =>
    if ws.filterMap paramHead ≠ [] then false
    else if after (.literal s) ws ≠ [] then namesFull voc (after (.literal s) ws) rest
    else if 65535 ≤ voc.literals.card then false
    else if nodeMaxChildCount ≤ (ws.filterMap literalHead).toFinset.card then false
    else namesFull { voc with literals := insert s voc.literals } [] rest
  | _ => false

theorem mem_after {a : Tok} {w : List Tok} {ws : List (List Tok)} : w ∈ after a ws ↔ a :: w ∈ ws := by
  unfold after
  rw [List.mem_filterMap]
  constructor
  · rintro ⟨_ | ⟨b, v⟩, hv, h⟩
    · simp at h
    · simp only [List.head?_cons, Option.some.injEq, List.tail_cons, Option.ite_none_right_eq_some] at h
      obtain ⟨rfl, rfl⟩ := h
      exact hv
  · exact fun h => ⟨a :: w, h, by simp⟩

theorem ne_nil_iff_mem {α : Type} {l : List α} : l ≠ [] ↔ ∃ x, x ∈ l :=
  ⟨List.exists_mem_of_ne_nil l, fun ⟨_, h⟩ => List.ne_nil_of_mem h⟩

theorem after_ne_nil {a : Tok} {ws : List (List Tok)} : after a ws ≠ [] ↔ ∃ w, a :: w ∈ ws := by
  rw [ne_nil_iff_mem]
  exact exists_congr fun w => mem_after

theorem mem_literalHead {s : Bytes} {ws : List (List Tok)} :
    s ∈ ws.filterMap literalHead ↔ ∃ w, .literal s :: w ∈ ws := by
  rw [List.mem_filterMap]
  constructor
  · rintro ⟨_ | ⟨a, v⟩, hv, h⟩
    · simp [literalHead] at h
    · cases a <;> simp only [literalHead, List.head?_cons, Option.bind_some, literalText,
        Option.some.injEq, reduceCtorEq] at h
      exact ⟨v, h ▸ hv⟩
  · exact fun ⟨w, h⟩ => ⟨_, h, rfl⟩

theorem mem_paramHead {s : Bytes} {ws : List (List Tok)} :
    s ∈ ws.filterMap paramHead ↔ ∃ w, .param s :: w ∈ ws := by
  rw [List.mem_filterMap]
  constructor
  · rintro ⟨_ | ⟨a, v⟩, hv, h⟩
    · simp [paramHead] at h
    · cases a <;> simp only [paramHead, List.head?_cons, Option.bind_some, paramText,
        Option.some.injEq, reduceCtorEq] at h
      exact ⟨v, h ▸ hv⟩
  · exact fun ⟨w, h⟩ => ⟨_, h, rfl⟩

/-! ## The walk gives the verdict -/

def Reads (ws : List (List Tok)) (s : Segment) : Prop := ∀ w, w ∈ ws ↔ ∃ r, (w, r) ∈ s.routes

section Reads

variable {ws : List (List Tok)} {cur : Segment} (h : Reads ws cur)

include h

theorem Reads.end_ : [.end_] ∈ ws ↔ cur.terminal.isSome := by
  rw [h, Option.isSome_iff_exists]
  simp [end_mem_routes]

theorem Reads.trailing : [.trailing] ∈ ws ↔ cur.trailing.isSome := by
  rw [h, Option.isSome_iff_exists]
  simp [trailing_mem_routes]

theorem Reads.wildcard : after .wildcard ws ≠ [] ↔ ∃ r, cur.special = .wildcard r := by
  rw [after_ne_nil]
  simp [h _, wildcard_mem_routes]

/-- A parameter edge leads to some route, so the words show it. -/
theorem Reads.param (hs : cur.Sound) (s : Bytes) :
    s ∈ ws.filterMap paramHead ↔ ∃ p, cur.special = .param p ∧ p.label = s := by
  rw [mem_paramHead]
  constructor
  · rintro ⟨w, hw⟩
    obtain ⟨r, hr⟩ := (h _).mp hw
    obtain ⟨p, hp, hl, -⟩ := param_mem_routes.mp hr
    exact ⟨p, hp, hl⟩
  · rintro ⟨p, hp, rfl⟩
    obtain ⟨-, -, hlive⟩ : SpecialOk cur.children (.param p) := hp ▸ hs.node.special
    obtain ⟨e, he⟩ := List.exists_mem_of_ne_nil _ hlive
    exact ⟨e.1, (h _).mpr ⟨e.2, param_mem_routes.mpr ⟨p, hp, rfl, he⟩⟩⟩

theorem Reads.literal (hs : cur.Sound) (s : Bytes) :
    s ∈ ws.filterMap literalHead ↔ ∃ c ∈ cur.children, c.label = s := by
  rw [mem_literalHead]
  constructor
  · rintro ⟨w, hw⟩
    obtain ⟨r, hr⟩ := (h _).mp hw
    obtain ⟨c, hc, hl, -⟩ := literal_mem_routes.mp hr
    exact ⟨c, hc, hl⟩
  · rintro ⟨c, hc, rfl⟩
    obtain ⟨e, he⟩ := List.exists_mem_of_ne_nil _ (hs.node.live c hc)
    exact ⟨e.1, (h _).mpr ⟨e.2, literal_mem_routes.mpr ⟨c, hc, rfl, he⟩⟩⟩

theorem Reads.hasParam (hs : cur.Sound) :
    ws.filterMap paramHead ≠ [] ↔ ∃ p, cur.special = .param p := by
  rw [ne_nil_iff_mem]
  simp only [h.param hs]
  exact ⟨fun ⟨_, p, hp, _⟩ => ⟨p, hp⟩, fun ⟨p, hp⟩ => ⟨_, p, hp, rfl⟩⟩

theorem Reads.hasLiteral (hs : cur.Sound) : ws.filterMap literalHead ≠ [] ↔ cur.childCount ≠ 0 := by
  rw [ne_nil_iff_mem, hs.node.count_eq, Ne, List.length_eq_zero_iff, ← Ne,
    ne_nil_iff_mem]
  simp only [h.literal hs]
  exact ⟨fun ⟨_, c, hc, _⟩ => ⟨c, hc⟩, fun ⟨c, hc⟩ => ⟨_, c, hc, rfl⟩⟩

/-- The literals that go on from a node are as many as its children. -/
theorem Reads.degree (hs : cur.Sound) :
    (ws.filterMap literalHead).toFinset.card = cur.children.length := by
  have hsame : (ws.filterMap literalHead).toFinset = (cur.children.map Segment.label).toFinset := by
    ext s
    rw [List.mem_toFinset, List.mem_toFinset, h.literal hs, List.mem_map]
  rw [hsame, List.toFinset_card_of_nodup hs.node.distinct, List.length_map]

theorem Reads.child (hs : cur.Sound) {c : Segment} (hc : c ∈ cur.children) :
    Reads (after (.literal c.label) ws) c := by
  intro w
  rw [mem_after, h]
  refine exists_congr fun r => literal_mem_routes.trans ⟨?_, fun hr => ⟨c, hc, rfl, hr⟩⟩
  rintro ⟨c', hc', hl, hr⟩
  rwa [← List.inj_on_of_nodup_map hs.node.distinct hc' hc hl]

theorem Reads.below {p : Segment} (hp : cur.special = .param p) :
    Reads (after (.param p.label) ws) p := by
  intro w
  rw [mem_after, h]
  refine exists_congr fun r => param_mem_routes.trans ⟨?_, fun hr => ⟨p, hp, rfl, hr⟩⟩
  rintro ⟨p', hp', -, hr⟩
  obtain rfl := Special.param.inj (hp.symm.trans hp')
  exact hr

end Reads

/-- Below a new node there are no words. -/
theorem reads_leaf (s : Bytes) : Reads [] (.leaf s) := by
  intro w
  simp [routes_leaf]

structure AddState.Speaks (st : AddState) (voc : Vocabulary) : Prop where
  literals : ∀ s, s ∈ voc.literals ↔ s ∈ st.literals.texts
  params : ∀ s, s ∈ voc.params ↔ s ∈ st.params.texts

theorem card_texts {tbl : SymbolTable} (ht : tbl.Ok) {names : Finset Bytes}
    (h : ∀ s, s ∈ names ↔ s ∈ tbl.texts) : names.card = tbl.count := by
  have hsame : names = tbl.texts.toFinset := by
    ext s
    rw [h, List.mem_toFinset]
  rw [hsame, List.toFinset_card_of_nodup ht.nodup, SymbolTable.texts, List.length_map, ht.count_eq]

/-- A segment is created unless its table is full or memory runs out. -/
theorem segmentCreate_cases (tbl : SymbolTable) (tok : Token) (w : World) :
    (∃ tbl' w', segmentCreate tbl tok w = (.error .noMemory, tbl', w')) ∨
      (65535 ≤ tbl.count ∧ ∃ tbl' w', segmentCreate tbl tok w = (.error .outOfRange, tbl', w')) ∨
      tbl.count < 65535 ∧ ∃ s tbl' w', segmentCreate tbl tok w = (.ok s, tbl', w') := by
  rw [segmentCreate]
  rcases w.malloc 1 with ⟨_ | b, w₁⟩
  · exact Or.inl ⟨_, _, rfl⟩
  dsimp only
  rw [symbolAppend]
  by_cases hfull : 65535 ≤ tbl.count
  · rw [if_pos hfull]
    exact Or.inr (Or.inl ⟨hfull, _, _, rfl⟩)
  rw [if_neg hfull]
  have hroom := Nat.lt_of_not_le hfull
  rcases symbolDuplicate (tok.ptr.getD []) tok.length tbl.base with _ | e
  · rcases symbolTableNextSlot tbl 1 w₁ with ⟨_ | slot, tbl', w₂⟩
    · exact Or.inl ⟨_, _, rfl⟩
    dsimp only
    rcases arenaAlloc tbl'.arena (tok.length + 1) w₂ with ⟨_ | addr, arena, w₃⟩
    · exact Or.inl ⟨_, _, rfl⟩
    · exact Or.inr (Or.inr ⟨hroom, _, _, _, rfl⟩)
  · exact Or.inr (Or.inr ⟨hroom, _, _, _, rfl⟩)

section Walk

variable {retain : Bool} {route : Route} {tok : Token} {toks : List Token} {cur : Segment}
  {st : AddState} {voc : Vocabulary} {ws : List (List Tok)}

/-- Unless memory runs out, the code of a walk is the verdict, and an edge is lost where the
names are full. -/
def Judged (retain : Bool) (route : Route) (toks : List Token) (cur : Segment) (st : AddState)
    (voc : Vocabulary) (ws : List (List Tok)) : Prop :=
  ((builderWalk retain route toks cur st).1 = verdict voc ws (toks.map Token.tok) ∧
      losesEdge toks cur st = namesFull voc ws (toks.map Token.tok)) ∨
    (builderWalk retain route toks cur st).1 = .noMemory

def Judges (retain : Bool) (route : Route) (toks : List Token) : Prop :=
  ∀ (cur : Segment) (st : AddState) (voc : Vocabulary) (ws : List (List Tok)), cur.Sound →
    st.Covers cur.routes → Reads ws cur → st.Speaks voc → Judged retain route toks cur st voc ws

theorem terminate_code (retain : Bool) (route : Route) (st : AddState) :
    terminateError (builderTerminate retain route st).1 = .ok ∨
      terminateError (builderTerminate retain route st).1 = .noMemory := by
  rw [builderTerminate]
  rcases st.world.malloc 1 with ⟨_ | b, w⟩
  · exact Or.inr rfl
  · exact Or.inl rfl

/-- At the end of a pattern the verdict is whether a route ends there. -/
theorem judges_final (htype : tok.type = .illegal ∨ tok.type = .end_ ∨ tok.type = .trailing) :
    Judges retain route (tok :: toks) := by
  intro cur st voc ws hs hcov hreads hspeaks
  unfold Judged
  rcases htype with htype | htype | htype
  · simp only [builderWalk, losesEdge, namesFull, htype, List.map_cons, Token.tok, verdict, and_self,
      true_or]
  · simp only [builderWalk, losesEdge, namesFull, htype, List.map_cons, Token.tok, verdict, hreads.end_,
      and_true]
    split
    · exact Or.inl rfl
    · exact terminate_code retain route st
  · simp only [builderWalk, losesEdge, namesFull, htype, List.map_cons, Token.tok, verdict,
      hreads.trailing, and_true]
    split
    · exact Or.inl rfl
    · exact terminate_code retain route st

/-- A node without wildcard. -/
theorem Reads.no_wildcard (h : Reads ws cur) (hnone : ∀ r, cur.special ≠ .wildcard r) :
    ¬ after .wildcard ws ≠ [] := fun hw => by
  obtain ⟨r, hr⟩ := h.wildcard.mp hw
  exact hnone r hr

theorem Reads.no_param (h : Reads ws cur) (hs : cur.Sound) (hnone : ∀ p, cur.special ≠ .param p) :
    ¬ ws.filterMap paramHead ≠ [] := fun hp => by
  obtain ⟨p, hp⟩ := (h.hasParam hs).mp hp
  exact hnone p hp

/-- A wildcard is refused beside another special edge, and before a further token. -/
theorem judges_wildcard (htype : tok.type = .wildcard) (hterm : Terminated toks) :
    Judges retain route (tok :: toks) := by
  intro cur st voc ws hs hcov hreads hspeaks
  have hword : tok.tok = .wildcard := by simp [Token.tok, htype]
  have hkept : namesFull voc ws (.wildcard :: toks.map Token.tok) = false := rfl
  rw [Judged, List.map_cons, hword, hkept, verdict]
  simp only [builderWalk, losesEdge, htype]
  cases hspecial : cur.special with
  | wildcard r =>
    rw [if_pos (hreads.wildcard.mpr ⟨r, hspecial⟩)]
    exact Or.inl ⟨rfl, rfl⟩
  | wildcardNull => exact (hspecial ▸ hs.node.special : SpecialOk cur.children .wildcardNull).elim
  | paramNull => exact (hspecial ▸ hs.node.special : SpecialOk cur.children .paramNull).elim
  | param p =>
    rw [if_neg (hreads.no_wildcard (by simp [hspecial])),
      if_pos ((hreads.hasParam hs).mpr ⟨p, hspecial⟩)]
    exact Or.inl ⟨rfl, rfl⟩
  | none =>
    have hwild : ¬ after .wildcard ws ≠ [] := by
      rw [hreads.wildcard, hspecial]
      simp
    have hparam : ¬ ws.filterMap paramHead ≠ [] := by
      rw [hreads.hasParam hs, hspecial]
      simp
    rw [if_neg hwild, if_neg hparam]
    by_cases hlast : toks.map Token.tok = [.end_]
    · rw [if_neg (not_not.mpr hlast), (wildcard_final hterm).mp hlast]
      rw [builderTerminate]
      rcases st.world.malloc 1 with ⟨_ | block, w⟩
      · exact Or.inr rfl
      · exact Or.inl ⟨rfl, rfl⟩
    · have hnext : ¬ (toks.headD (.bare .illegal)).type = .end_ := fun h =>
        hlast ((wildcard_final hterm).mpr h)
      rw [if_pos hlast, if_pos hnext, decide_eq_false hnext]
      exact Or.inl ⟨rfl, rfl⟩

variable (hn : tok.Named) (ih : Judges retain route toks)

include hn ih

/-- A parameter is refused beside literals, a wildcard or another name. -/
theorem judges_param (htype : tok.type = .param) : Judges retain route (tok :: toks) := by
  intro cur st voc ws hs hcov hreads hspeaks
  rw [Judged, List.map_cons, Token.tok_param htype, verdict, namesFull]
  simp only [builderWalk, losesEdge, htype]
  cases hspecial : cur.special with
  | wildcard r =>
    simp only [if_pos (hreads.wildcard.mpr ⟨r, hspecial⟩), and_self, true_or]
  | wildcardNull => exact (hspecial ▸ hs.node.special : SpecialOk cur.children .wildcardNull).elim
  | paramNull => exact (hspecial ▸ hs.node.special : SpecialOk cur.children .paramNull).elim
  | param p =>
    obtain ⟨hnil, hlabelled, -⟩ : SpecialOk cur.children (.param p) := hspecial ▸ hs.node.special
    have hcount : ¬ cur.childCount ≠ 0 := by simp [hs.node.count_eq, hnil]
    simp only [if_neg (hreads.no_wildcard (by simp [hspecial])),
      if_neg (fun h => hcount ((hreads.hasLiteral hs).mp h)), if_neg hcount]
    by_cases hmatch : tokenMatchesSegment tok p = true
    · have hlabel := (tokenMatchesSegment_iff hn hlabelled).mp hmatch
      have hbelow : after (.param tok.text) ws ≠ [] := by
        rw [after_ne_nil, ← mem_paramHead, hreads.param hs]
        exact ⟨p, hspecial, hlabel⟩
      simp only [if_neg (not_not.mpr hmatch), if_pos hbelow]
      rw [← hlabel]
      exact ih _ _ _ _ (hs.param hspecial) (hcov.of_param hspecial) (hreads.below hspecial) hspeaks
    · have hbelow : ¬ after (.param tok.text) ws ≠ [] := by
        rw [after_ne_nil, ← mem_paramHead, hreads.param hs]
        rintro ⟨p', hp', hlabel⟩
        obtain rfl := Special.param.inj (hspecial.symm.trans hp')
        exact hmatch ((tokenMatchesSegment_iff hn hlabelled).mpr hlabel)
      simp only [if_pos hmatch, if_neg hbelow, if_pos ((hreads.hasParam hs).mpr ⟨p, hspecial⟩),
        and_self, true_or]
  | none =>
    simp only [if_neg (hreads.no_wildcard (by simp [hspecial]))]
    by_cases hcount : cur.childCount ≠ 0
    · simp only [if_pos hcount, if_pos ((hreads.hasLiteral hs).mpr hcount), and_self, true_or]
    have hparam := hreads.no_param hs (by simp [hspecial])
    have hbelow : ¬ after (.param tok.text) ws ≠ [] := by
      rw [after_ne_nil, ← mem_paramHead, hreads.param hs, hspecial]
      simp
    simp only [if_neg hcount, if_neg (fun h => hcount ((hreads.hasLiteral hs).mp h)), if_neg hbelow,
      if_neg hparam, card_texts hcov.paramsOk hspeaks.params]
    obtain ⟨tbl, w, hcreate⟩ | ⟨hfull, tbl, w, hcreate⟩ | ⟨hroom, ⟨p, block⟩, tbl, w, hcreate⟩ :=
      segmentCreate_cases st.params tok st.world
    · simp only [hcreate, or_true]
    · simp only [if_pos hfull, hcreate, and_self, true_or]
    · obtain ⟨rfl, hok, htexts⟩ := segmentCreate_ok hcov.paramsOk hn hcreate
      simp only [if_neg (Nat.not_le.mpr hroom), hcreate]
      refine ih _ _ _ _ (leaf_sound _) (covers_leaf hcov.literalsOk hok) (reads_leaf _)
        ⟨hspeaks.literals, fun s => ?_⟩
      rw [Finset.mem_insert, htexts, hspeaks.params, or_comm]

theorem judges_oldLiteral (htype : tok.type = .literal) (hs : cur.Sound)
    (hcov : st.Covers cur.routes) (hreads : Reads ws cur) (hspeaks : st.Speaks voc)
    (hparam : ∀ p, cur.special ≠ .param p) (hnull : cur.special ≠ .paramNull) {i : Nat}
    (hfind : segmentFindChildByToken cur tok = some i) :
    Judged retain route (tok :: toks) cur st voc ws := by
  obtain ⟨c, hc, hmatch⟩ := segmentFindChildByToken_some hfind
  have hmem := List.mem_of_getElem? hc
  have hlabel := (tokenMatchesSegment_iff hn (hs.node.labelled _ hmem)).mp hmatch
  have hbelow : after (.literal tok.text) ws ≠ [] := by
    rw [after_ne_nil, ← mem_literalHead, hreads.literal hs]
    exact ⟨c, hmem, hlabel⟩
  have hget : cur.children.getD i .zero = c := by simp [hc]
  rw [Judged, builderWalk_literal htype hparam hnull, losesEdge_literal htype hparam hnull, hfind,
    List.map_cons, Token.tok_literal htype, verdict, namesFull]
  simp only [if_neg (hreads.no_param hs hparam), if_pos hbelow, hget]
  rw [← hlabel]
  exact ih _ _ _ _ (hs.child hmem) (hcov.of_literal hmem) (hreads.child hs hmem) hspeaks

theorem judges_newLiteral (htype : tok.type = .literal) (hs : cur.Sound)
    (hcov : st.Covers cur.routes) (hreads : Reads ws cur) (hspeaks : st.Speaks voc)
    (hparam : ∀ p, cur.special ≠ .param p) (hnull : cur.special ≠ .paramNull)
    (hfind : segmentFindChildByToken cur tok = none) :
    Judged retain route (tok :: toks) cur st voc ws := by
  have hbelow : ¬ after (.literal tok.text) ws ≠ [] := by
    rw [after_ne_nil, ← mem_literalHead, hreads.literal hs]
    rintro ⟨c, hmem, hlabel⟩
    exact segmentFindChildByToken_none hn hs.node.labelled hfind c hmem hlabel
  rw [Judged, builderWalk_literal htype hparam hnull, losesEdge_literal htype hparam hnull, hfind,
    List.map_cons, Token.tok_literal htype, verdict, namesFull]
  simp only [if_neg (hreads.no_param hs hparam), if_neg hbelow,
    card_texts hcov.literalsOk hspeaks.literals, hreads.degree hs]
  obtain ⟨tbl, w, hcreate⟩ | ⟨hfull, tbl, w, hcreate⟩ | ⟨hroom, ⟨child, block⟩, tbl, w, hcreate⟩ :=
    segmentCreate_cases st.literals tok st.world
  · simp only [hcreate, or_true]
  · simp only [if_pos hfull, hcreate, and_self, true_or]
  obtain ⟨rfl, hok, htexts⟩ := segmentCreate_ok hcov.literalsOk hn hcreate
  simp only [if_neg (Nat.not_le.mpr hroom), hcreate]
  by_cases hmax : nodeMaxChildCount ≤ cur.children.length
  · have happend : segmentAppendChild cur (.leaf tok.text) = .error .outOfRange :=
      if_pos (hs.node.count_eq ▸ hmax)
    simp only [if_pos hmax, happend, and_self, true_or]
  rcases happend : segmentAppendChild cur (.leaf tok.text) with e | cur₁
  · unfold segmentAppendChild at happend
    rw [if_neg (by rw [hs.node.count_eq]; omega)] at happend
    split at happend <;> simp at happend
  obtain ⟨-, rfl⟩ := segmentAppendChild_ok hs.node.count_eq hs.node.tail_eq happend
  have hchild : (cur.children ++ [Segment.leaf tok.text]).getD cur.children.length .zero =
      .leaf tok.text := by simp
  simp only [if_neg hmax, Option.getD_some, hchild]
  refine ih _ _ _ _ (leaf_sound _) (covers_leaf hok hcov.paramsOk) (reads_leaf _)
    ⟨fun s => ?_, hspeaks.params⟩
  rw [Finset.mem_insert, htexts, hspeaks.literals, or_comm]

/-- A literal is refused beside a parameter; a new child needs room at the node and in the table. -/
theorem judges_literal (htype : tok.type = .literal) : Judges retain route (tok :: toks) := by
  intro cur st voc ws hs hcov hreads hspeaks
  by_cases hparam : ∃ p, cur.special = .param p
  · obtain ⟨p, hp⟩ := hparam
    rw [Judged, List.map_cons, Token.tok_literal htype, verdict, namesFull]
    simp only [if_pos ((hreads.hasParam hs).mpr ⟨p, hp⟩), builderWalk, losesEdge, htype, hp, and_self,
      true_or]
  have hparam' : ∀ p, cur.special ≠ .param p := fun p hp => hparam ⟨p, hp⟩
  have hnull : cur.special ≠ .paramNull := fun hp =>
    (hp ▸ hs.node.special : SpecialOk cur.children .paramNull).elim
  cases hfind : segmentFindChildByToken cur tok with
  | some i => exact judges_oldLiteral hn ih htype hs hcov hreads hspeaks hparam' hnull hfind
  | none => exact judges_newLiteral hn ih htype hs hcov hreads hspeaks hparam' hnull hfind

end Walk

/-- Every walk gives the verdict, by induction on the tokens left. -/
theorem builderWalk_judges {retain : Bool} {route : Route} {toks : List Token}
    (hterm : Terminated toks)
    (hnamed : ∀ t ∈ toks, t.type = .literal ∨ t.type = .param → t.Named) :
    Judges retain route toks := by
  induction toks with
  | nil => exact hterm.elim
  | cons tok toks ih =>
    have hnamed' : ∀ t ∈ toks, t.type = .literal ∨ t.type = .param → t.Named :=
      fun t ht => hnamed t (List.mem_cons_of_mem _ ht)
    cases htype : tok.type with
    | illegal => exact judges_final (Or.inl htype)
    | end_ => exact judges_final (Or.inr (Or.inl htype))
    | trailing => exact judges_final (Or.inr (Or.inr htype))
    | wildcard =>
      exact judges_wildcard htype (by simpa [Terminated, TokenType.isFinal, htype] using hterm)
    | param =>
      obtain ⟨hn, hterm'⟩ := step_hypotheses (Or.inr htype) hterm hnamed
      exact judges_param hn (ih hterm' hnamed') htype
    | literal =>
      obtain ⟨hn, hterm'⟩ := step_hypotheses (Or.inl htype) hterm hnamed
      exact judges_literal hn (ih hterm' hnamed') htype

end Wrouter
