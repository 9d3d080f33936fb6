import Wrouter.Tree

/-!
# Which patterns go together

Two patterns conflict when they are equal, or when they part at a parameter: the
other then continues with a literal, a wildcard or a parameter of another name.
The builder accepts a pattern exactly when it is legal and conflicts with nothing
in the tree, although it only looks at one node at a time.
-/
namespace Wrouter

open CLib

/-- Two continuations of one prefix that the constraints exclude. -/
def Clash : Tok → Tok → Prop
  | .param x, .param y => x ≠ y
  | .param _, .literal _ => True
  | .param _, .wildcard => True
  | .literal _, .param _ => True
  | .wildcard, .param _ => True
  | _, _ => False

/-- Equal, or clashing after the longest common prefix. -/
def Conflict (u v : List Tok) : Prop :=
  u = v ∨ ∃ c a b u' v', u = c ++ a :: u' ∧ v = c ++ b :: v' ∧ Clash a b

/-- A pattern the lexer accepts to its end, with '*' in the last position only. -/
def Legal (w : List Tok) : Prop :=
  Tok.illegal ∉ w ∧ ∀ u v, w = u ++ .wildcard :: v → v = [.end_]

instance : ∀ a b, Decidable (Clash a b)
  | .param x, .param y => inferInstanceAs (Decidable (x ≠ y))
  | .param _, .literal _ | .param _, .wildcard | .literal _, .param _ | .wildcard, .param _ =>
    isTrue trivial
  | .param _, .trailing | .param _, .end_ | .param _, .illegal => isFalse id
  | .literal _, .literal _ | .literal _, .wildcard | .literal _, .trailing | .literal _, .end_
  | .literal _, .illegal => isFalse id
  | .wildcard, .literal _ | .wildcard, .wildcard | .wildcard, .trailing | .wildcard, .end_
  | .wildcard, .illegal => isFalse id
  | .trailing, _ | .end_, _ | .illegal, _ => isFalse id

/-- It does not matter which continuation came first. -/
theorem Clash.symm {a b : Tok} (h : Clash a b) : Clash b a := by
  cases a <;> cases b <;> simp_all [Clash, eq_comm]

theorem Conflict.refl (u : List Tok) : Conflict u u := Or.inl rfl

theorem Conflict.symm {u v : List Tok} (h : Conflict u v) : Conflict v u := by
  rcases h with rfl | ⟨c, a, b, u', v', hu, hv, hab⟩
  · exact Or.inl rfl
  · exact Or.inr ⟨c, b, a, v', u', hv, hu, hab.symm⟩

/-- Conflicts are found letter by letter, as the walk looks for them. -/
theorem conflict_cons_cons {a b : Tok} {u v : List Tok} :
    Conflict (a :: u) (b :: v) ↔ Clash a b ∨ a = b ∧ Conflict u v := by
  constructor
  · rintro (h | ⟨c, x, y, u', v', hu, hv, hxy⟩)
    · obtain ⟨rfl, rfl⟩ := List.cons.inj h
      exact Or.inr ⟨rfl, Or.inl rfl⟩
    · cases c with
      | nil =>
        obtain ⟨rfl, -⟩ := List.cons.inj hu
        obtain ⟨rfl, -⟩ := List.cons.inj hv
        exact Or.inl hxy
      | cons z c =>
        obtain ⟨rfl, rfl⟩ := List.cons.inj hu
        obtain ⟨rfl, rfl⟩ := List.cons.inj hv
        exact Or.inr ⟨rfl, Or.inr ⟨c, x, y, u', v', rfl, rfl, hxy⟩⟩
  · rintro (h | ⟨rfl, rfl | ⟨c, x, y, u', v', rfl, rfl, hxy⟩⟩)
    · exact Or.inr ⟨[], a, b, u, v, rfl, rfl, h⟩
    · exact Or.inl rfl
    · exact Or.inr ⟨a :: c, x, y, u', v', rfl, rfl, hxy⟩

theorem conflict_cons_nil {a : Tok} {u : List Tok} : ¬ Conflict (a :: u) [] := by
  rintro (h | ⟨c, x, y, u', v', -, hv, -⟩)
  · simp at h
  · simp at hv

theorem legal_cons {a : Tok} {w : List Tok} (ha : a ≠ .illegal) (hw : a ≠ .wildcard) :
    Legal (a :: w) ↔ Legal w := by
  constructor
  · rintro ⟨hi, h⟩
    exact ⟨fun hm => hi (List.mem_cons_of_mem _ hm), fun u v he => h (a :: u) v (by simp [he])⟩
  · rintro ⟨hi, h⟩
    refine ⟨by simp [hi, Ne.symm ha], fun u v he => ?_⟩
    cases u with
    | nil => exact absurd (List.cons.inj he).1 hw
    | cons b u => exact h u v (List.cons.inj he).2

theorem legal_wildcard {w : List Tok} : Legal (.wildcard :: w) ↔ w = [.end_] := by
  constructor
  · exact fun h => h.2 [] w rfl
  · rintro rfl
    refine ⟨by simp, fun u v he => ?_⟩
    cases u with
    | nil => exact (List.cons.inj he).2.symm
    | cons b u => cases u <;> simp at he

theorem legal_nil : Legal [] := ⟨by simp, fun u v h => by simp at h⟩

instance decidableConflict : ∀ u v, Decidable (Conflict u v)
  | [], [] => isTrue (Or.inl rfl)
  | [], _ :: _ => isFalse fun h => conflict_cons_nil h.symm
  | _ :: _, [] => isFalse conflict_cons_nil
  | a :: u, b :: v =>
    have := decidableConflict u v
    decidable_of_iff (Clash a b ∨ a = b ∧ Conflict u v) conflict_cons_cons.symm

instance decidableLegal : ∀ w, Decidable (Legal w)
  | [] => isTrue legal_nil
  | .wildcard :: w => decidable_of_iff (w = [.end_]) legal_wildcard.symm
  | .illegal :: _ => isFalse fun h => h.1 List.mem_cons_self
  | .literal _ :: w | .param _ :: w | .trailing :: w | .end_ :: w =>
    have := decidableLegal w
    decidable_of_iff (Legal w) (legal_cons (by simp) (by simp)).symm

/-! ## Conflicts with a tree -/

def Segment.Clashes (s : Segment) (w : List Tok) : Prop := ∃ e ∈ s.routes, Conflict e.1 w

variable {cur : Segment}

/-- Below an edge that leads to routes, the letters clash or the rest does. -/
theorem clashes_below {c : Segment} (hlive : c.routes ≠ []) (b a : Tok) (w : List Tok) :
    (∃ f ∈ c.routes, Conflict (push b f).1 (a :: w)) ↔ Clash b a ∨ b = a ∧ c.Clashes w := by
  simp only [push, conflict_cons_cons]
  constructor
  · rintro ⟨f, hf, hclash | ⟨hab, hc⟩⟩
    · exact Or.inl hclash
    · exact Or.inr ⟨hab, f, hf, hc⟩
  · rintro (hclash | ⟨hab, f, hf, hc⟩)
    · obtain ⟨f, hf⟩ := List.exists_mem_of_ne_nil _ hlive
      exact ⟨f, hf, Or.inl hclash⟩
    · exact ⟨f, hf, Or.inr ⟨hab, hc⟩⟩

/-- Where the routes of a node come from decides what they conflict with. -/
theorem clashes_iff (hs : cur.Sound) (a : Tok) (w : List Tok) : cur.Clashes (a :: w) ↔
    cur.terminal.isSome ∧ Conflict [.end_] (a :: w) ∨
    (∃ c ∈ cur.children, Clash (.literal c.label) a ∨ .literal c.label = a ∧ c.Clashes w) ∨
    (∃ p, cur.special = .param p ∧
      (Clash (.param p.label) a ∨ .param p.label = a ∧ p.Clashes w)) ∨
    (∃ r, cur.special = .wildcard r) ∧ Conflict [.wildcard, .end_] (a :: w) ∨
    cur.trailing.isSome ∧ Conflict [.trailing] (a :: w) := by
  have hlive : ∀ p, cur.special = .param p → p.routes ≠ [] := by
    intro p hp
    exact (hp ▸ hs.node.special : SpecialOk cur.children (.param p)).2.2
  constructor
  · rintro ⟨e, he, hc⟩
    rw [mem_routes, mem_routesSpecial] at he
    rcases he with ⟨r, hr, rfl⟩ | ⟨c, hmem, f, hf, rfl⟩ | (⟨p, hp, f, hf, rfl⟩ | ⟨r, hr, rfl⟩) |
      ⟨r, hr, rfl⟩
    · exact Or.inl ⟨by simp [hr], hc⟩
    · have := (clashes_below (hs.node.live c hmem) _ a w).mp ⟨f, hf, hc⟩
      exact Or.inr (Or.inl ⟨c, hmem, this⟩)
    · have := (clashes_below (hlive p hp) _ a w).mp ⟨f, hf, hc⟩
      exact Or.inr (Or.inr (Or.inl ⟨p, hp, this⟩))
    · exact Or.inr (Or.inr (Or.inr (Or.inl ⟨⟨r, hr⟩, hc⟩)))
    · exact Or.inr (Or.inr (Or.inr (Or.inr ⟨by simp [hr], hc⟩)))
  · simp only [Option.isSome_iff_exists]
    rintro (⟨⟨r, hr⟩, hc⟩ | ⟨c, hmem, h⟩ | ⟨p, hp, h⟩ | ⟨⟨r, hr⟩, hc⟩ | ⟨⟨r, hr⟩, hc⟩)
    · exact ⟨_, mem_routes.mpr (Or.inl ⟨r, hr, rfl⟩), hc⟩
    · obtain ⟨f, hf, hc⟩ := (clashes_below (hs.node.live c hmem) _ a w).mpr h
      exact ⟨_, mem_routes.mpr (Or.inr (Or.inl ⟨c, hmem, f, hf, rfl⟩)), hc⟩
    · obtain ⟨f, hf, hc⟩ := (clashes_below (hlive p hp) _ a w).mpr h
      exact ⟨_, mem_routes.mpr (Or.inr (Or.inr (Or.inl
        (mem_routesSpecial.mpr (Or.inl ⟨p, hp, f, hf, rfl⟩))))), hc⟩
    · exact ⟨_, mem_routes.mpr (Or.inr (Or.inr (Or.inl
        (mem_routesSpecial.mpr (Or.inr ⟨r, hr, rfl⟩))))), hc⟩
    · exact ⟨_, mem_routes.mpr (Or.inr (Or.inr (Or.inr ⟨r, hr, rfl⟩))), hc⟩

theorem clashes_end (hs : cur.Sound) : cur.Clashes [.end_] ↔ cur.terminal.isSome := by
  rw [clashes_iff hs]
  simp [conflict_cons_cons, Clash, Conflict.refl]

theorem clashes_trailing (hs : cur.Sound) : cur.Clashes [.trailing] ↔ cur.trailing.isSome := by
  rw [clashes_iff hs]
  simp [conflict_cons_cons, Clash, Conflict.refl]

/-- A literal clashes with a parameter edge; otherwise its own child decides. -/
theorem clashes_literal (hs : cur.Sound) (s : Bytes) (w : List Tok) :
    cur.Clashes (.literal s :: w) ↔ (∃ p, cur.special = .param p) ∨
      ∃ c ∈ cur.children, c.label = s ∧ c.Clashes w := by
  rw [clashes_iff hs]
  simp [conflict_cons_cons, Clash, or_comm]

/-- A parameter clashes with literals, a wildcard and any other parameter. -/
theorem clashes_param (hs : cur.Sound) (s : Bytes) (w : List Tok) :
    cur.Clashes (.param s :: w) ↔ cur.children ≠ [] ∨ (∃ r, cur.special = .wildcard r) ∨
      ∃ p, cur.special = .param p ∧ (p.label ≠ s ∨ p.Clashes w) := by
  have hchild : (∃ c, c ∈ cur.children) ↔ cur.children ≠ [] :=
    ⟨fun ⟨_, hc⟩ => List.ne_nil_of_mem hc, List.exists_mem_of_ne_nil _⟩
  have hlabel (p : Segment) :
      p.label ≠ s ∨ p.label = s ∧ p.Clashes w ↔ p.label ≠ s ∨ p.Clashes w := by
    by_cases h : p.label = s <;> simp [h]
  rw [clashes_iff hs, ← hchild]
  simp only [Clash, Tok.param.injEq, hlabel]
  simp [conflict_cons_cons, Clash, or_comm]

theorem clashes_wildcard (hs : cur.Sound) :
    cur.Clashes [.wildcard, .end_] ↔ (∃ r, cur.special = .wildcard r) ∨
      ∃ p, cur.special = .param p := by
  rw [clashes_iff hs]
  simp [conflict_cons_cons, Clash, Conflict.refl, or_comm]

theorem clashes_leaf (s : Bytes) (w : List Tok) : ¬ (Segment.leaf s).Clashes w := by
  simp [Segment.Clashes, routes_leaf]

/-! ## Acceptance -/

theorem tok_eq_end {tok : Token} : tok.tok = .end_ ↔ tok.type = .end_ := by
  cases h : tok.type <;> simp [Token.tok, h]

/-- After the wildcard of a terminated list comes exactly the end token, or the walk
sees that it does not. -/
theorem wildcard_final {toks : List Token} (h : Terminated toks) :
    toks.map Token.tok = [.end_] ↔ (toks.headD (.bare .illegal)).type = .end_ := by
  cases toks with
  | nil => exact h.elim
  | cons tok toks =>
    simp only [List.map_cons, List.cons.injEq, List.map_eq_nil_iff, tok_eq_end, List.headD_cons]
    refine ⟨And.left, fun htype => ⟨htype, ?_⟩⟩
    simpa [Terminated, TokenType.isFinal, htype] using h

theorem terminateError_ok {retain : Bool} {route : Route} {st : AddState}
    (h : terminateError (builderTerminate retain route st).1 ≠ .noMemory) :
    terminateError (builderTerminate retain route st).1 = .ok := by
  unfold terminateError at h ⊢
  split
  · rfl
  · rename_i hnone
    rw [if_neg hnone] at h
    exact absurd rfl h

section Decides

variable {retain : Bool} {route : Route} {tok : Token} {toks : List Token} {cur : Segment}
  {st : AddState}

/-- Short of memory and range, the walk accepts exactly the legal words without conflicts. -/
def Decides (retain : Bool) (route : Route) (toks : List Token) (cur : Segment) (st : AddState) :
    Prop :=
  (builderWalk retain route toks cur st).1 ≠ .noMemory →
    (builderWalk retain route toks cur st).1 ≠ .outOfRange →
      ((builderWalk retain route toks cur st).1 = .ok ↔
        Legal (toks.map Token.tok) ∧ ¬ cur.Clashes (toks.map Token.tok))

theorem decides_illegal (htype : tok.type = .illegal) : Decides retain route (tok :: toks) cur st := by
  intro _ _
  have hillegal : ¬ Legal ((tok :: toks).map Token.tok) := by
    simp [Legal, Token.tok, htype]
  simp only [builderWalk, htype, reduceCtorEq, false_iff, not_and]
  exact fun h => absurd h hillegal

/-- The end of a pattern is accepted at a node without a terminal. -/
theorem decides_end (hs : cur.Sound) (htype : tok.type = .end_) : Decides retain route [tok] cur st := by
  intro hmem _
  have hlegal : Legal [.end_] := (legal_cons (by simp) (by simp)).mpr legal_nil
  have hword : [tok].map Token.tok = [.end_] := by simp [Token.tok, htype]
  rw [hword, clashes_end hs]
  simp only [builderWalk, htype] at hmem ⊢
  by_cases hsome : cur.terminal.isSome
  · simp [hsome]
  · simp only [hsome, if_false, Bool.false_eq_true] at hmem ⊢
    simpa [hlegal] using terminateError_ok hmem

theorem decides_trailing (hs : cur.Sound) (htype : tok.type = .trailing) :
    Decides retain route [tok] cur st := by
  intro hmem _
  have hlegal : Legal [.trailing] := (legal_cons (by simp) (by simp)).mpr legal_nil
  have hword : [tok].map Token.tok = [.trailing] := by simp [Token.tok, htype]
  rw [hword, clashes_trailing hs]
  simp only [builderWalk, htype] at hmem ⊢
  by_cases hsome : cur.trailing.isSome
  · simp [hsome]
  · simp only [hsome, if_false, Bool.false_eq_true] at hmem ⊢
    simpa [hlegal] using terminateError_ok hmem

/-- A wildcard is accepted as the last step, at a node without special edge. -/
theorem decides_wildcard (hs : cur.Sound) (htype : tok.type = .wildcard)
    (hterm : Terminated toks) : Decides retain route (tok :: toks) cur st := by
  intro hmem _
  have hword : (tok :: toks).map Token.tok = .wildcard :: toks.map Token.tok := by
    simp [Token.tok, htype]
  have hclash (h : (∃ r, cur.special = .wildcard r) ∨ ∃ p, cur.special = .param p) :
      ¬ (Legal (.wildcard :: toks.map Token.tok) ∧
        ¬ cur.Clashes (.wildcard :: toks.map Token.tok)) := by
    rintro ⟨hlegal, hno⟩
    rw [legal_wildcard.mp hlegal] at hno
    exact hno ((clashes_wildcard hs).mpr h)
  rw [hword]
  simp only [builderWalk, htype] at hmem ⊢
  cases hspecial : cur.special with
  | wildcard r => simpa using hclash (Or.inl ⟨r, hspecial⟩)
  | param p => simpa using hclash (Or.inr ⟨p, hspecial⟩)
  | wildcardNull => exact (hspecial ▸ hs.node.special : SpecialOk cur.children .wildcardNull).elim
  | paramNull => exact (hspecial ▸ hs.node.special : SpecialOk cur.children .paramNull).elim
  | none =>
    simp only [hspecial] at hmem ⊢
    rw [legal_wildcard, wildcard_final hterm]
    by_cases hnext : (toks.headD (.bare .illegal)).type = .end_
    · simp only [hnext, ne_eq, not_true, if_false] at hmem ⊢
      rw [(wildcard_final hterm).mpr hnext, clashes_wildcard hs]
      simpa [hspecial] using terminateError_ok hmem
    · simp only [hnext, ne_eq, not_false_eq_true, if_true, reduceCtorEq, false_and]

variable (hs : cur.Sound) (hcov : st.Covers cur.routes) (hn : tok.Named)
  (ih : ∀ {cur : Segment} {st : AddState}, cur.Sound → st.Covers cur.routes →
    Decides retain route toks cur st)

include hs hcov hn ih

/-- A parameter goes through the same name, or makes a new node where no child stands. -/
theorem decides_param (htype : tok.type = .param) : Decides retain route (tok :: toks) cur st := by
  intro hmem hrange
  have hnil : cur.childCount ≠ 0 ↔ cur.children ≠ [] := by
    rw [hs.node.count_eq, Ne, List.length_eq_zero_iff]
  rw [List.map_cons, Token.tok_param htype, legal_cons (by simp) (by simp), clashes_param hs]
  simp only [builderWalk, htype, hnil] at hmem hrange ⊢
  cases hspecial : cur.special with
  | wildcard r => simp
  | wildcardNull => exact (hspecial ▸ hs.node.special : SpecialOk cur.children .wildcardNull).elim
  | paramNull => exact (hspecial ▸ hs.node.special : SpecialOk cur.children .paramNull).elim
  | none =>
    simp only [hspecial] at hmem hrange ⊢
    by_cases hc : cur.children = []
    · simp only [hc, ne_eq, not_true, if_false] at hmem hrange ⊢
      cases hcreate : segmentCreate st.params tok st.world with
      | mk res rest =>
        obtain ⟨tbl, w⟩ := rest
        cases res with
        | error e =>
          rw [hcreate] at hmem hrange
          rcases segmentCreate_error hcreate with rfl | rfl
          · exact absurd rfl hmem
          · exact absurd rfl hrange
        | ok r =>
          obtain ⟨p, block⟩ := r
          obtain ⟨rfl, hok, -⟩ := segmentCreate_ok hcov.paramsOk hn hcreate
          rw [hcreate] at hmem hrange
          have hcov' : AddState.Covers { st with params := tbl, world := w }
              (Segment.leaf tok.text).routes := covers_leaf hcov.literalsOk hok
          have := ih (leaf_sound _) hcov' hmem hrange
          simpa [clashes_leaf] using this
    · simp [hc]
  | param p =>
    obtain ⟨hc, hl, -⟩ : SpecialOk cur.children (.param p) := hspecial ▸ hs.node.special
    simp only [hspecial, hc, ne_eq, not_true, if_false, tokenMatchesSegment_iff hn hl]
      at hmem hrange ⊢
    by_cases hlabel : p.label = tok.text
    · simp only [hlabel, not_true, if_false] at hmem hrange ⊢
      have := ih (hs.param hspecial) (hcov.of_param hspecial) hmem hrange
      simpa [hlabel] using this
    · simp [hlabel]

/-- Below a literal edge the child of that name decides. -/
theorem decides_oldLiteral (htype : tok.type = .literal) (hparam : ∀ p, cur.special ≠ .param p)
    (hnull : cur.special ≠ .paramNull) {i : Nat} (hfind : segmentFindChildByToken cur tok = some i) :
    Decides retain route (tok :: toks) cur st := by
  intro hmem hrange
  rw [List.map_cons, Token.tok_literal htype, legal_cons (by simp) (by simp), clashes_literal hs]
  rw [builderWalk_literal htype hparam hnull] at hmem hrange ⊢
  obtain ⟨c, hi, hm⟩ := segmentFindChildByToken_some hfind
  have hc := List.mem_of_getElem? hi
  have hlabel := (tokenMatchesSegment_iff hn (hs.node.labelled c hc)).mp hm
  have honly : (∃ d ∈ cur.children, d.label = tok.text ∧ d.Clashes (toks.map Token.tok)) ↔
      c.Clashes (toks.map Token.tok) := by
    refine ⟨?_, fun h => ⟨c, hc, hlabel, h⟩⟩
    rintro ⟨d, hd, hdl, hclash⟩
    rwa [List.inj_on_of_nodup_map hs.node.distinct hd hc (hdl.trans hlabel.symm)] at hclash
  simp only [hparam, exists_false, false_or, honly]
  simp only [hfind, List.getD_eq_getElem?_getD, hi, Option.getD_some] at hmem hrange ⊢
  exact ih (hs.child hc) (hcov.of_literal hc) hmem hrange

/-- Where no child has the name, a new leaf takes the rest. -/
theorem decides_newLiteral (htype : tok.type = .literal) (hparam : ∀ p, cur.special ≠ .param p)
    (hnull : cur.special ≠ .paramNull) (hfind : segmentFindChildByToken cur tok = none) :
    Decides retain route (tok :: toks) cur st := by
  intro hmem hrange
  rw [List.map_cons, Token.tok_literal htype, legal_cons (by simp) (by simp), clashes_literal hs]
  rw [builderWalk_literal htype hparam hnull] at hmem hrange ⊢
  have hfresh := segmentFindChildByToken_none hn hs.node.labelled hfind
  have honly : ¬ ∃ d ∈ cur.children, d.label = tok.text ∧ d.Clashes (toks.map Token.tok) := by
    rintro ⟨d, hd, hdl, -⟩
    exact hfresh d hd hdl
  simp only [hparam, exists_false, false_or, honly]
  simp only [hfind] at hmem hrange ⊢
  cases hcreate : segmentCreate st.literals tok st.world with
  | mk res rest =>
    obtain ⟨tbl, w⟩ := rest
    cases res with
    | error e =>
      rw [hcreate] at hmem hrange
      rcases segmentCreate_error hcreate with rfl | rfl
      · exact absurd rfl hmem
      · exact absurd rfl hrange
    | ok r =>
      obtain ⟨child, block⟩ := r
      obtain ⟨rfl, hok, -⟩ := segmentCreate_ok hcov.literalsOk hn hcreate
      simp only [hcreate] at hmem hrange ⊢
      cases happend : segmentAppendChild cur (.leaf tok.text) with
      | error e =>
        obtain rfl := segmentAppendChild_error happend
        simp [happend] at hrange
      | ok cur₁ =>
        obtain ⟨-, rfl⟩ := segmentAppendChild_ok hs.node.count_eq hs.node.tail_eq happend
        have hchild : (cur.children ++ [Segment.leaf tok.text]).getD cur.children.length .zero =
            .leaf tok.text := by simp
        simp only [happend, Option.getD_some, hchild] at hmem hrange ⊢
        have hcov' : AddState.Covers { st with literals := tbl, world := w }
            (Segment.leaf tok.text).routes := covers_leaf hok hcov.paramsOk
        have := ih (leaf_sound _) hcov' hmem hrange
        simpa [clashes_leaf] using this

/-- A literal goes through the child with its string, or makes a new one. -/
theorem decides_literal (htype : tok.type = .literal) :
    Decides retain route (tok :: toks) cur st := by
  by_cases hparam : ∃ p, cur.special = .param p
  · obtain ⟨p, hp⟩ := hparam
    intro _ _
    rw [List.map_cons, Token.tok_literal htype, clashes_literal hs]
    simp [builderWalk, htype, hp]
  have hparam' : ∀ p, cur.special ≠ .param p := fun p hp => hparam ⟨p, hp⟩
  have hnull : cur.special ≠ .paramNull := by
    intro hp
    exact (hp ▸ hs.node.special : SpecialOk cur.children .paramNull).elim
  cases hfind : segmentFindChildByToken cur tok with
  | some i => exact decides_oldLiteral hs hcov hn ih htype hparam' hnull hfind
  | none => exact decides_newLiteral hs hcov hn ih htype hparam' hnull hfind

end Decides

/-- The walk decides, by induction on the tokens left. -/
theorem builderWalk_decides {retain : Bool} {route : Route} {toks : List Token} {cur : Segment}
    {st : AddState} (hs : cur.Sound) (hcov : st.Covers cur.routes) (hterm : Terminated toks)
    (hnamed : ∀ t ∈ toks, t.type = .literal ∨ t.type = .param → t.Named) :
    Decides retain route toks cur st := by
  induction toks generalizing cur st with
  | nil => exact hterm.elim
  | cons tok toks ih =>
    have hnamed' : ∀ t ∈ toks, t.type = .literal ∨ t.type = .param → t.Named :=
      fun t ht => hnamed t (List.mem_cons_of_mem _ ht)
    cases htype : tok.type with
    | illegal => exact decides_illegal htype
    | end_ =>
      obtain rfl : toks = [] := by simpa [Terminated, TokenType.isFinal, htype] using hterm
      exact decides_end hs htype
    | trailing =>
      obtain rfl : toks = [] := by simpa [Terminated, TokenType.isFinal, htype] using hterm
      exact decides_trailing hs htype
    | wildcard =>
      exact decides_wildcard hs htype
        (by simpa [Terminated, TokenType.isFinal, htype] using hterm)
    | param =>
      obtain ⟨hn, hterm'⟩ := step_hypotheses (Or.inr htype) hterm hnamed
      exact decides_param hs hcov hn (fun h h' => ih h h' hterm' hnamed') htype
    | literal =>
      obtain ⟨hn, hterm'⟩ := step_hypotheses (Or.inl htype) hterm hnamed
      exact decides_literal hs hcov hn (fun h h' => ih h h' hterm' hnamed') htype

/-- One call succeeds exactly if its pattern is legal and conflicts with none before it. -/
theorem wrouterAddRoute_ok_iff {b : Builder} {added : List Entry} {pattern : Bytes} {route : Route}
    {w : World} (hb : b.Holds added)
    (hmem : (wrouterAddRoute b (some pattern) route w).1 ≠ .noMemory)
    (hrange : (wrouterAddRoute b (some pattern) route w).1 ≠ .outOfRange) :
    (wrouterAddRoute b (some pattern) route w).1 = .ok ↔
      Legal (patternWord b.paramSyntax pattern) ∧
        ∀ e ∈ added, ¬ Conflict e.1 (patternWord b.paramSyntax pattern) := by
  have herr : (wrouterAddRoute b (some pattern) route w).1 =
      (builderWalk b.retain route (patternTokens b.paramSyntax (some pattern)) b.root
        ⟨b.literals, b.params, w⟩).1 := by
    unfold wrouterAddRoute builderAddRoute
    simp only [hb.intact, Bool.false_eq_true, if_false]
    split <;> rfl
  rw [herr] at hmem hrange ⊢
  rw [builderWalk_decides hb.sound (hb.covers w) (patternTokens_terminated _ _)
    (patternTokens_named _ _) hmem hrange]
  simp only [Segment.Clashes, hb.routes.mem_iff, not_exists, not_and, patternWord]

/-- What was added in full is legal and free of conflicts. -/
theorem Built.compatible {options : Options} {routes : List (Bytes × Route)} {b : Builder}
    (h : Built options routes b) :
    (∀ e ∈ entries options.paramSyntax routes, Legal e.1) ∧
      (entries options.paramSyntax routes).Pairwise (fun e f => ¬ Conflict e.1 f.1) := by
  induction h with
  | create => simp [entries]
  | @add routes b b' pattern route w w' hb hadd ih =>
    obtain ⟨hholds, hsyn⟩ := hb.holds
    have hok : (wrouterAddRoute b (some pattern) route w).1 = .ok := by rw [hadd]
    obtain ⟨hlegal, hno⟩ := (wrouterAddRoute_ok_iff hholds (by simp [hok]) (by simp [hok])).mp hok
    rw [hsyn] at hlegal hno
    simp only [entries, List.map_append, List.map_cons, List.map_nil] at hno ih ⊢
    constructor
    · intro e he
      rcases List.mem_append.mp he with he | he
      · exact ih.1 e he
      · rw [List.mem_singleton.mp he]
        exact hlegal
    · rw [List.pairwise_append]
      exact ⟨ih.2, List.pairwise_singleton _ _, fun e he f hf => by
        rw [List.mem_singleton.mp hf]
        exact hno e he⟩

/-- A clean run succeeds exactly on legal patterns without conflicts, among
themselves and with what the builder held. -/
theorem wrouterAddRoutes_ok_iff {b : Builder} {added : List Entry} {routes : List (Bytes × Route)}
    {w : World} (hb : b.Holds added) (hclean : Clean (wrouterAddRoutes b w routes).1) :
    AllOk (wrouterAddRoutes b w routes).1 ↔
      (∀ e ∈ entries b.paramSyntax routes, Legal e.1 ∧ ∀ f ∈ added, ¬ Conflict f.1 e.1) ∧
        (entries b.paramSyntax routes).Pairwise (fun e f => ¬ Conflict e.1 f.1) := by
  induction routes generalizing b added w with
  | nil => simp [wrouterAddRoutes, entries, AllOk]
  | cons r routes ih =>
    obtain ⟨⟨hmem, hrange⟩, hrest⟩ := List.forall_mem_cons.mp hclean
    have hfirst := wrouterAddRoute_ok_iff hb hmem hrange
    rw [show AllOk (wrouterAddRoutes b w (r :: routes)).1 ↔ _ from allOk_cons, hfirst]
    simp only [entries, List.map_cons, List.forall_mem_cons, List.pairwise_cons]
    by_cases hok : (wrouterAddRoute b (some r.1) r.2 w).1 = .ok
    · obtain ⟨hb', hsyn⟩ := wrouterAddRoute_holds hb (Prod.ext hok rfl :
        wrouterAddRoute b (some r.1) r.2 w = (.ok, _, _))
      rw [ih hb' hrest, hsyn]
      simp only [entries, List.mem_append, List.mem_singleton]
      constructor
      · rintro ⟨h, hall, hpair⟩
        exact ⟨⟨h, fun e he => ⟨(hall e he).1, fun f hf => (hall e he).2 f (Or.inl hf)⟩⟩,
          fun e he => (hall e he).2 _ (Or.inr rfl), hpair⟩
      · rintro ⟨⟨h, hall⟩, hhead, hpair⟩
        refine ⟨h, fun e he => ⟨(hall e he).1, fun f hf => ?_⟩, hpair⟩
        rcases hf with hf | rfl
        · exact (hall e he).2 f hf
        · exact hhead e he
    · rw [hfirst] at hok
      exact ⟨fun h => absurd h.1 hok, fun h => absurd h.1.1 hok⟩

/-- The documented constraint, for one more pattern and for a set as a whole. -/
theorem acceptance_is_pairwise :
    (∀ (options : Options) (routes : List (Bytes × Route)) (b : Builder) (pattern : Bytes)
      (route : Route) (w : World), Built options routes b →
      Legal (patternWord options.paramSyntax pattern) →
      (wrouterAddRoute b (some pattern) route w).1 ≠ .noMemory →
      (wrouterAddRoute b (some pattern) route w).1 ≠ .outOfRange →
      ((wrouterAddRoute b (some pattern) route w).1 = .ok ↔ ∀ r ∈ routes,
        ¬ Conflict (patternWord options.paramSyntax r.1)
          (patternWord options.paramSyntax pattern))) ∧
    (∀ (options : Options) (routes : List (Bytes × Route)) (w : World)
      (w₂ : Bytes × Route → Bytes × Route → World),
      (∀ r ∈ routes, Legal (patternWord options.paramSyntax r.1)) →
      Clean (wrouterAddRoutes (.fresh options) w routes).1 →
      (∀ r ∈ routes, ∀ s ∈ routes,
        Clean (wrouterAddRoutes (.fresh options) (w₂ r s) [r, s]).1) →
      (AllOk (wrouterAddRoutes (.fresh options) w routes).1 ↔ routes.Pairwise fun r s =>
        AllOk (wrouterAddRoutes (.fresh options) (w₂ r s) [r, s]).1)) := by
  constructor
  · intro options routes b pattern route w hb hlegal hmem hrange
    obtain ⟨hholds, hsyn⟩ := hb.holds
    have h := wrouterAddRoute_ok_iff hholds hmem hrange
    rw [h, hsyn]
    simp only [hlegal, true_and, entries, List.forall_mem_map]
  · intro options routes w w₂ hlegal hclean hclean₂
    have hb := (built_fresh options).holds.1
    have hpair : ∀ r ∈ routes, ∀ s ∈ routes,
        (AllOk (wrouterAddRoutes (.fresh options) (w₂ r s) [r, s]).1 ↔
          ¬ Conflict (patternWord options.paramSyntax r.1)
            (patternWord options.paramSyntax s.1)) := by
      intro r hr s hs
      rw [wrouterAddRoutes_ok_iff hb (hclean₂ r hr s hs)]
      simp [entries, Builder.fresh, hlegal r hr, hlegal s hs]
    rw [wrouterAddRoutes_ok_iff hb hclean]
    constructor
    · rintro ⟨-, h⟩
      rw [entries, List.pairwise_map] at h
      exact h.imp_of_mem (fun hr hs hno => (hpair _ hr _ hs).mpr hno)
    · intro h
      refine ⟨?_, ?_⟩
      · rw [entries, List.forall_mem_map]
        exact fun r hr => ⟨hlegal r hr, by simp [entries]⟩
      · rw [entries, List.pairwise_map]
        exact h.imp_of_mem (fun hr hs hok => (hpair _ hr _ hs).mp hok)

/-- Three accepted routes, accepted two by two as well. -/
theorem acceptance_is_pairwise_three :
    [(ascii "/*", Route.mk 0 1), (ascii "/a/:x", Route.mk 0 2), (ascii "/a/:x/b", Route.mk 0 3)].Pairwise
      fun r s => AllOk (wrouterAddRoutes (.fresh plainOptions) .empty [r, s]).1 :=
  (acceptance_is_pairwise.2 plainOptions _ .empty (fun _ _ => .empty) (by decide +kernel)
    (by decide +kernel) (by decide +kernel)).mp (by decide +kernel)

end Wrouter
