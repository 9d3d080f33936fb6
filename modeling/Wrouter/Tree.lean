import Wrouter.Builder

/-!
# What the route tree holds

Every route in the tree is read off with the tokens along its root path. The node
invariant ties the fields of a node together; it is stated for one node and then
required everywhere in the tree.
-/
namespace Wrouter

open CLib

abbrev Entry := List Tok × Route

def push (a : Tok) (e : Entry) : Entry := (a :: e.1, e.2)

mutual
/-- Terminal, literal children, special edge, trailing: the order of the dictionary. -/
def Segment.routes : Segment → List Entry
  | ⟨_, children, _, terminal, trailing, special, _, _⟩ =>
    terminal.toList.map (fun r => ([.end_], r)) ++ routesChildren children ++
      routesSpecial special ++ trailing.toList.map (fun r => ([.trailing], r))

def routesSpecial : Special Segment → List Entry
  | .param p => p.routes.map (push (.param p.label))
  | .wildcard r => [([.wildcard, .end_], r)]
  | _ => []

def routesChildren : List Segment → List Entry
  | [] => []
  | c :: cs => c.routes.map (push (.literal c.label)) ++ routesChildren cs
end

theorem routes_eq (s : Segment) : s.routes =
    s.terminal.toList.map (fun r => ([.end_], r)) ++ routesChildren s.children ++
      routesSpecial s.special ++ s.trailing.toList.map (fun r => ([.trailing], r)) := by
  cases s
  rw [Segment.routes]

theorem routesChildren_append (l m : List Segment) :
    routesChildren (l ++ m) = routesChildren l ++ routesChildren m := by
  induction l with
  | nil => simp [routesChildren]
  | cons c l ih => simp [routesChildren, ih]

theorem mem_routesChildren {l : List Segment} {e : Entry} :
    e ∈ routesChildren l ↔ ∃ c ∈ l, ∃ f ∈ c.routes, push (.literal c.label) f = e := by
  induction l with
  | nil => simp [routesChildren]
  | cons c l ih => simp [routesChildren, ih]

/-- A route of a node ends there, or goes through a child, the special edge or a last slash. -/
theorem mem_routes {s : Segment} {e : Entry} : e ∈ s.routes ↔
    (∃ r, s.terminal = some r ∧ e = ([.end_], r)) ∨
    (∃ c ∈ s.children, ∃ f ∈ c.routes, push (.literal c.label) f = e) ∨
    e ∈ routesSpecial s.special ∨ ∃ r, s.trailing = some r ∧ e = ([.trailing], r) := by
  rw [routes_eq]
  simp [mem_routesChildren, eq_comm]

theorem mem_routesSpecial {sp : Special Segment} {e : Entry} : e ∈ routesSpecial sp ↔
    (∃ p, sp = .param p ∧ ∃ f ∈ p.routes, push (.param p.label) f = e) ∨
      ∃ r, sp = .wildcard r ∧ e = ([.wildcard, .end_], r) := by
  cases sp <;> simp [routesSpecial]

/-- A token in front changes no route. -/
theorem map_push_snd (a : Tok) (l : List Entry) :
    (l.map (push a)).map Prod.snd = l.map Prod.snd := by
  rw [List.map_map]
  rfl

/-! The routes of a node by the first letter of their words. -/

section FirstLetter

variable {s : Segment} {w : List Tok} {r : Route}

theorem end_mem_routes : (.end_ :: w, r) ∈ s.routes ↔ w = [] ∧ s.terminal = some r := by
  rw [mem_routes, mem_routesSpecial]
  simp [push]
  grind

theorem trailing_mem_routes : (.trailing :: w, r) ∈ s.routes ↔ w = [] ∧ s.trailing = some r := by
  rw [mem_routes, mem_routesSpecial]
  simp [push]
  grind

theorem wildcard_mem_routes :
    (.wildcard :: w, r) ∈ s.routes ↔ w = [.end_] ∧ s.special = .wildcard r := by
  rw [mem_routes, mem_routesSpecial]
  simp [push]
  grind

theorem illegal_mem_routes : (.illegal :: w, r) ∉ s.routes := by
  rw [mem_routes, mem_routesSpecial]
  simp [push]

theorem literal_mem_routes {x : Bytes} : (.literal x :: w, r) ∈ s.routes ↔
    ∃ c ∈ s.children, c.label = x ∧ (w, r) ∈ c.routes := by
  rw [mem_routes, mem_routesSpecial]
  simp [push]
  grind

theorem param_mem_routes {x : Bytes} : (.param x :: w, r) ∈ s.routes ↔
    ∃ p, s.special = .param p ∧ p.label = x ∧ (w, r) ∈ p.routes := by
  rw [mem_routes, mem_routesSpecial]
  simp [push]
  grind

/-- The tree leads on through a literal exactly where some child does. -/
theorem literal_prefix_routes {x : Bytes} : (∃ e ∈ s.routes, .literal x :: w <+: e.1) ↔
    ∃ c ∈ s.children, c.label = x ∧ ∃ e ∈ c.routes, w <+: e.1 := by
  constructor
  · rintro ⟨⟨u, r⟩, he, v, rfl⟩
    obtain ⟨c, hc, hl, hmem⟩ := literal_mem_routes.mp he
    exact ⟨c, hc, hl, _, hmem, v, rfl⟩
  · rintro ⟨c, hc, hl, ⟨u, r⟩, hmem, v, rfl⟩
    exact ⟨_, literal_mem_routes.mpr ⟨c, hc, hl, hmem⟩, v, rfl⟩

/-- Routes that begin with a parameter go through the parameter's node. -/
theorem param_prefix_routes {x : Bytes} : (∃ e ∈ s.routes, .param x :: w <+: e.1) ↔
    ∃ p, s.special = .param p ∧ p.label = x ∧ ∃ e ∈ p.routes, w <+: e.1 := by
  constructor
  · rintro ⟨⟨u, r⟩, he, v, rfl⟩
    obtain ⟨p, hp, hl, hmem⟩ := param_mem_routes.mp he
    exact ⟨p, hp, hl, _, hmem, v, rfl⟩
  · rintro ⟨p, hp, hl, ⟨u, r⟩, hmem, v, rfl⟩
    exact ⟨_, param_mem_routes.mpr ⟨p, hp, hl, hmem⟩, v, rfl⟩

end FirstLetter

/-- The special edge of a sound node: a parameter excludes literal children, and no
null pointer hides behind the type. -/
def SpecialOk (children : List Segment) : Special Segment → Prop
  | .none => True
  | .wildcard _ => True
  | .param p => children = [] ∧ p.Labelled ∧ p.routes ≠ []
  | .paramNull => False
  | .wildcardNull => False

/-- The fields of one node fit together, and every edge leads to some route. -/
structure Segment.NodeOk (s : Segment) : Prop where
  count_eq : s.childCount = s.children.length
  count_le : s.children.length ≤ nodeMaxChildCount
  tail_eq : s.tail = if s.children = [] then none else some (s.children.length - 1)
  labelled : ∀ c ∈ s.children, c.Labelled
  distinct : (s.children.map Segment.label).Nodup
  live : ∀ c ∈ s.children, c.routes ≠ []
  special : SpecialOk s.children s.special

inductive Segment.Everywhere (P : Segment → Prop) : Segment → Prop where
  | node (s : Segment) : P s → (∀ c ∈ s.children, Everywhere P c) →
      (∀ p, s.special = .param p → Everywhere P p) → Everywhere P s

def Segment.Sound (s : Segment) : Prop := s.Everywhere Segment.NodeOk

theorem Segment.Sound.node {s : Segment} (h : s.Sound) : s.NodeOk := by
  cases h with
  | node _ hs _ _ => exact hs

theorem Segment.Sound.child {s c : Segment} (h : s.Sound) (hc : c ∈ s.children) : c.Sound := by
  cases h with
  | node _ _ hcs _ => exact hcs c hc

theorem Segment.Sound.param {s p : Segment} (h : s.Sound) (hp : s.special = .param p) :
    p.Sound := by
  cases h with
  | node _ _ _ hps => exact hps p hp

/-- A node without edges is sound. -/
theorem sound_leaf (str : Option Bytes) (terminal trailing : Option Route) (n : Nat) :
    Segment.Sound ⟨str, [], none, terminal, trailing, .none, 0, n⟩ := by
  refine Segment.Everywhere.node _ ⟨rfl, ?_, rfl, ?_, ?_, ?_, trivial⟩ ?_ ?_ <;>
    simp [nodeMaxChildCount]

theorem leaf_sound (s : Bytes) : (Segment.leaf s).Sound := sound_leaf (some s) none none s.length

/-! ## Successful walks -/

/-- The derivation of a successful walk, one rule for each step of the token switch. -/
inductive Grows (route : Route) :
    List Token → Segment → AddState → Segment → AddState → Prop where
  | end_ {tok : Token} {toks : List Token} {cur : Segment} {st st' : AddState} :
      tok.type = .end_ → cur.terminal = none →
      st'.literals = st.literals → st'.params = st.params →
      Grows route (tok :: toks) cur st { cur with terminal := some route } st'
  | trailing {tok : Token} {toks : List Token} {cur : Segment} {st st' : AddState} :
      tok.type = .trailing → cur.trailing = none →
      st'.literals = st.literals → st'.params = st.params →
      Grows route (tok :: toks) cur st { cur with trailing := some route } st'
  | wildcard {tok next : Token} {toks : List Token} {cur : Segment} {st st' : AddState} :
      tok.type = .wildcard → next.type = .end_ → cur.special = .none →
      st'.literals = st.literals → st'.params = st.params →
      Grows route (tok :: next :: toks) cur st { cur with special := .wildcard route } st'
  | oldLiteral {tok : Token} {toks : List Token} {cur child child' : Segment}
      {st st' : AddState} {i : Nat} :
      tok.type = .literal → cur.children[i]? = some child → tokenMatchesSegment tok child = true →
      Grows route toks child st child' st' →
      Grows route (tok :: toks) cur st { cur with children := cur.children.set i child' } st'
  | newLiteral {tok : Token} {toks : List Token} {cur cur₁ child child' : Segment}
      {st st₁ st' : AddState} {block : Block} :
      tok.type = .literal → (∀ p, cur.special ≠ .param p) →
      segmentFindChildByToken cur tok = none →
      segmentCreate st.literals tok st.world = (.ok (child, block), st₁.literals, st₁.world) →
      st₁.params = st.params → segmentAppendChild cur child = .ok cur₁ →
      Grows route toks (cur₁.children.getD (cur₁.tail.getD 0) .zero) st₁ child' st' →
      Grows route (tok :: toks) cur st
        { cur₁ with children := cur₁.children.set (cur₁.tail.getD 0) child' } st'
  | oldParam {tok : Token} {toks : List Token} {cur p p' : Segment} {st st' : AddState} :
      tok.type = .param → cur.special = .param p → tokenMatchesSegment tok p = true →
      Grows route toks p st p' st' →
      Grows route (tok :: toks) cur st { cur with special := .param p' } st'
  | newParam {tok : Token} {toks : List Token} {cur p p' : Segment} {st st₁ st' : AddState}
      {block : Block} :
      tok.type = .param → cur.special = .none → cur.childCount = 0 →
      segmentCreate st.params tok st.world = (.ok (p, block), st₁.params, st₁.world) →
      st₁.literals = st.literals → Grows route toks p st₁ p' st' →
      Grows route (tok :: toks) cur st { cur with special := .param p' } st'

theorem builderTerminate_state (retain : Bool) (route : Route) (st : AddState) :
    (builderTerminate retain route st).2.literals = st.literals ∧
      (builderTerminate retain route st).2.params = st.params := by
  unfold builderTerminate
  split <;> exact ⟨rfl, rfl⟩

theorem builderTerminate_ok {retain : Bool} {route : Route} {st : AddState}
    (h : terminateError (builderTerminate retain route st).1 = .ok) :
    (builderTerminate retain route st).1 = some route := by
  unfold builderTerminate at h ⊢
  split
  · rename_i hm
    simp [hm, terminateError] at h
  · rfl

/-- A literal step at a node without a parameter: into the child, made if missing. -/
theorem builderWalk_literal {retain : Bool} {route : Route} {tok : Token} {toks : List Token}
    {cur : Segment} {st : AddState} (htype : tok.type = .literal)
    (hparam : ∀ p, cur.special ≠ .param p) (hnull : cur.special ≠ .paramNull) :
    builderWalk retain route (tok :: toks) cur st =
      match segmentFindChildByToken cur tok with
      | some i =>
        let r := builderWalk retain route toks (cur.children.getD i .zero) st
        (r.1, { cur with children := cur.children.set i r.2.1 }, r.2.2)
      | none =>
        match segmentCreate st.literals tok st.world with
        | (.error e, tbl, w) => (e, cur, { st with literals := tbl, world := w })
        | (.ok (child, block), tbl, w) =>
          match segmentAppendChild cur child with
          | .error e => (e, cur, { st with literals := tbl, world := w.free (some block) })
          | .ok cur =>
            let r := builderWalk retain route toks (cur.children.getD (cur.tail.getD 0) .zero)
              { st with literals := tbl, world := w }
            (r.1, { cur with children := cur.children.set (cur.tail.getD 0) r.2.1 }, r.2.2) := by
  cases hspecial : cur.special with
  | param p => exact absurd hspecial (hparam p)
  | paramNull => exact absurd hspecial hnull
  | _ =>
    have hwalk := builderWalk.eq_def retain route (tok :: toks) cur st
    simp only [htype, hspecial] at hwalk
    exact hwalk

section Grows

variable {retain : Bool} {route : Route} {tok : Token} {toks : List Token} {cur cur' : Segment}
  {st st' : AddState} (h : builderWalk retain route (tok :: toks) cur st = (.ok, cur', st'))

include h

/-- A route that ends at the node is a new terminal. -/
theorem grows_end (htype : tok.type = .end_) : Grows route (tok :: toks) cur st cur' st' := by
  simp only [builderWalk, htype] at h
  split at h
  · simp at h
  rename_i hnone
  simp only [Prod.mk.injEq] at h
  obtain ⟨he, rfl, rfl⟩ := h
  obtain ⟨hl, hp⟩ := builderTerminate_state retain route st
  rw [builderTerminate_ok he]
  exact .end_ htype (by simpa using hnone) hl hp

theorem grows_trailing (htype : tok.type = .trailing) :
    Grows route (tok :: toks) cur st cur' st' := by
  simp only [builderWalk, htype] at h
  split at h
  · simp at h
  rename_i hnone
  simp only [Prod.mk.injEq] at h
  obtain ⟨he, rfl, rfl⟩ := h
  obtain ⟨hl, hp⟩ := builderTerminate_state retain route st
  rw [builderTerminate_ok he]
  exact .trailing htype (by simpa using hnone) hl hp

/-- A route that ends in a wildcard is a new special edge. -/
theorem grows_wildcard (htype : tok.type = .wildcard) :
    Grows route (tok :: toks) cur st cur' st' := by
  simp only [builderWalk, htype] at h
  cases hspecial : cur.special with
  | wildcard r => simp [hspecial] at h
  | wildcardNull => simp [hspecial] at h
  | param p => simp [hspecial] at h
  | paramNull => simp [hspecial] at h
  | none =>
    simp only [hspecial] at h
    split at h
    · simp at h
    rename_i hnext
    simp only [Prod.mk.injEq] at h
    obtain ⟨he, rfl, rfl⟩ := h
    obtain ⟨hl, hp⟩ := builderTerminate_state retain route st
    rw [builderTerminate_ok he]
    cases toks with
    | nil => simp [Token.bare] at hnext
    | cons next toks => exact .wildcard htype (by simpa using hnext) hspecial hl hp

variable (ih : ∀ {cur cur' : Segment} {st st' : AddState},
  builderWalk retain route toks cur st = (.ok, cur', st') → Grows route toks cur st cur' st')

include ih

/-- A parameter leads on through the special edge, old or new. -/
theorem grows_param (htype : tok.type = .param) : Grows route (tok :: toks) cur st cur' st' := by
  simp only [builderWalk, htype] at h
  cases hspecial : cur.special with
  | wildcard r => simp [hspecial] at h
  | wildcardNull => simp [hspecial] at h
  | paramNull => simp [hspecial] at h
  | none =>
    simp only [hspecial] at h
    split at h
    · simp at h
    rename_i hcount
    split at h
    · rename_i hcreate
      simp only [Prod.mk.injEq] at h
      rcases segmentCreate_error hcreate with he | he <;> simp [he] at h
    rename_i p block tbl w hcreate
    simp only [Prod.mk.injEq] at h
    obtain ⟨he, rfl, rfl⟩ := h
    let st₁ : AddState := { st with params := tbl, world := w }
    have hcreate₁ : segmentCreate st.params tok st.world =
        (.ok (p, block), st₁.params, st₁.world) := hcreate
    exact .newParam htype hspecial (by simpa using hcount) hcreate₁ rfl (ih (Prod.ext he rfl))
  | param p =>
    simp only [hspecial] at h
    split at h
    · simp at h
    split at h
    · simp at h
    rename_i hmatch
    simp only [Prod.mk.injEq] at h
    obtain ⟨he, rfl, rfl⟩ := h
    exact .oldParam htype hspecial (by simpa using hmatch) (ih (Prod.ext he rfl))

/-- A literal leads on through a child, old or new. -/
theorem grows_literal (htype : tok.type = .literal) :
    Grows route (tok :: toks) cur st cur' st' := by
  have hspecial : ∀ p, cur.special ≠ .param p := by
    intro p hp
    simp [builderWalk, htype, hp] at h
  have hnull : cur.special ≠ .paramNull := by
    intro hp
    simp [builderWalk, htype, hp] at h
  rw [builderWalk_literal htype hspecial hnull] at h
  split at h
  · rename_i i hfind
    simp only [Prod.mk.injEq] at h
    obtain ⟨he, rfl, rfl⟩ := h
    obtain ⟨c, hc, hm⟩ := segmentFindChildByToken_some hfind
    rw [List.getD_eq_getElem?_getD, hc, Option.getD_some] at he ⊢
    exact .oldLiteral htype hc hm (ih (Prod.ext he rfl))
  · rename_i hfind
    split at h
    · rename_i hcreate
      simp only [Prod.mk.injEq] at h
      rcases segmentCreate_error hcreate with he | he <;> simp [he] at h
    rename_i child block tbl w hcreate
    split at h
    · rename_i happend
      simp only [Prod.mk.injEq] at h
      simp [segmentAppendChild_error happend] at h
    rename_i cur₁ happend
    simp only [Prod.mk.injEq] at h
    obtain ⟨he, rfl, rfl⟩ := h
    let st₁ : AddState := { st with literals := tbl, world := w }
    have hcreate₁ : segmentCreate st.literals tok st.world =
        (.ok (child, block), st₁.literals, st₁.world) := hcreate
    exact .newLiteral htype hspecial hfind hcreate₁ rfl happend (ih (Prod.ext he rfl))

end Grows

/-- A walk that returns OK has such a derivation. -/
theorem builderWalk_grows {retain : Bool} {route : Route} {toks : List Token}
    {cur cur' : Segment} {st st' : AddState}
    (h : builderWalk retain route toks cur st = (.ok, cur', st')) :
    Grows route toks cur st cur' st' := by
  induction toks generalizing cur cur' st st' with
  | nil => simp [builderWalk] at h
  | cons tok toks ih =>
    cases htype : tok.type with
    | illegal => simp [builderWalk, htype] at h
    | end_ => exact grows_end h htype
    | trailing => exact grows_trailing h htype
    | wildcard => exact grows_wildcard h htype
    | param => exact grows_param h ih htype
    | literal => exact grows_literal h ih htype

/-! ## Sound trees stay sound -/

section Rebuild

variable {cur : Segment}

theorem sound_terminal (h : cur.Sound) (r : Option Route) :
    Segment.Sound { cur with terminal := r } := by
  have hn := h.node
  exact Segment.Everywhere.node _ ⟨hn.count_eq, hn.count_le, hn.tail_eq, hn.labelled, hn.distinct,
    hn.live, hn.special⟩ (fun c hc => h.child hc) (fun p hp => h.param hp)

theorem sound_trailing (h : cur.Sound) (r : Option Route) :
    Segment.Sound { cur with trailing := r } := by
  have hn := h.node
  exact Segment.Everywhere.node _ ⟨hn.count_eq, hn.count_le, hn.tail_eq, hn.labelled, hn.distinct,
    hn.live, hn.special⟩ (fun c hc => h.child hc) (fun p hp => h.param hp)

theorem sound_wildcard (h : cur.Sound) (r : Route) :
    Segment.Sound { cur with special := .wildcard r } := by
  have hn := h.node
  exact Segment.Everywhere.node _ ⟨hn.count_eq, hn.count_le, hn.tail_eq, hn.labelled, hn.distinct,
    hn.live, trivial⟩ (fun c hc => h.child hc) (fun p hp => by simp at hp)

theorem sound_param {p : Segment} (h : cur.Sound) (hnil : cur.children = []) (hp : p.Sound)
    (hl : p.Labelled) (hr : p.routes ≠ []) : Segment.Sound { cur with special := .param p } := by
  have hn := h.node
  refine Segment.Everywhere.node _ ⟨hn.count_eq, hn.count_le, hn.tail_eq, hn.labelled, hn.distinct,
    hn.live, ⟨hnil, hl, hr⟩⟩ (fun c hc => h.child hc) ?_
  intro q hq
  obtain rfl : p = q := by simpa using hq
  exact hp

/-- Children under the same labels can be exchanged for other live, sound ones. -/
theorem sound_children {l : List Segment} (tail : Option Nat) (h : cur.Sound)
    (hs : ∀ p, cur.special ≠ .param p) (hmax : l.length ≤ nodeMaxChildCount)
    (htail : tail = if l = [] then none else some (l.length - 1))
    (hl : ∀ c ∈ l, c.Labelled ∧ c.routes ≠ [] ∧ c.Sound) (hd : (l.map Segment.label).Nodup) :
    Segment.Sound { cur with children := l, tail := tail, childCount := l.length } := by
  refine Segment.Everywhere.node _ ⟨rfl, hmax, htail, fun c hc => (hl c hc).1, hd,
    fun c hc => (hl c hc).2.1, ?_⟩ (fun c hc => (hl c hc).2.2) (fun p hp => absurd hp (hs p))
  have hn := h.node.special
  change SpecialOk l cur.special
  cases hc : cur.special with
  | param p => exact absurd hc (hs p)
  | _ => rw [hc] at hn; exact hn

theorem routesChildren_set {l : List Segment} {c c' : Segment} {i : Nat} {w : List Tok}
    {route : Route} (hi : l[i]? = some c) (hl : c'.label = c.label)
    (hr : c'.routes.Perm ((w, route) :: c.routes)) :
    (routesChildren (l.set i c')).Perm ((.literal c.label :: w, route) :: routesChildren l) := by
  induction l generalizing i with
  | nil => simp at hi
  | cons d l ih =>
    cases i with
    | zero =>
      obtain rfl : d = c := by simpa using hi
      simp only [List.set_cons_zero, routesChildren, hl]
      exact (hr.map _).append_right _
    | succ i =>
      simp only [List.set_cons_succ, routesChildren]
      exact ((ih (by simpa using hi)).append_left _).trans List.perm_middle

end Rebuild

/-! ## What a successful walk adds -/

structure AddState.Covers (st : AddState) (routes : List Entry) : Prop where
  literalsOk : st.literals.Ok
  paramsOk : st.params.Ok
  literals : ∀ e ∈ routes, ∀ s, Tok.literal s ∈ e.1 → s ∈ st.literals.texts
  params : ∀ e ∈ routes, ∀ s, Tok.param s ∈ e.1 → s ∈ st.params.texts

/-- The effect of a walk that added the route under the word: one more route on the
tree, and the strings of the word in the tables. -/
structure Added (word : List Tok) (route : Route) (cur : Segment) (st : AddState)
    (cur' : Segment) (st' : AddState) : Prop where
  sound : cur'.Sound
  routes : cur'.routes.Perm ((word, route) :: cur.routes)
  str : cur'.str = cur.str
  strLength : cur'.strLength = cur.strLength
  literalsOk : st'.literals.Ok
  paramsOk : st'.params.Ok
  literals : ∀ s, s ∈ st'.literals.texts ↔ s ∈ st.literals.texts ∨ Tok.literal s ∈ word
  params : ∀ s, s ∈ st'.params.texts ↔ s ∈ st.params.texts ∨ Tok.param s ∈ word

theorem Added.label {word : List Tok} {route : Route} {cur cur' : Segment} {st st' : AddState}
    (h : Added word route cur st cur' st') : cur'.label = cur.label := by
  rw [Segment.label, Segment.label, h.str]

theorem Added.labelled {word : List Tok} {route : Route} {cur cur' : Segment} {st st' : AddState}
    (h : Added word route cur st cur' st') (hl : cur.Labelled) : cur'.Labelled := by
  unfold Segment.Labelled at hl ⊢
  rwa [h.str, h.strLength]

theorem AddState.Covers.of_literal {st : AddState} {cur c : Segment} (h : st.Covers cur.routes)
    (hc : c ∈ cur.children) : st.Covers c.routes := by
  have hmem : ∀ e ∈ c.routes, push (.literal c.label) e ∈ cur.routes := by
    intro e he
    rw [routes_eq]
    simp only [List.mem_append]
    exact Or.inl (Or.inl (Or.inr (mem_routesChildren.mpr ⟨c, hc, e, he, rfl⟩)))
  exact ⟨h.literalsOk, h.paramsOk,
    fun e he s hs => h.literals _ (hmem e he) s (List.mem_cons_of_mem _ hs),
    fun e he s hs => h.params _ (hmem e he) s (List.mem_cons_of_mem _ hs)⟩

theorem AddState.Covers.of_param {st : AddState} {cur p : Segment} (h : st.Covers cur.routes)
    (hp : cur.special = .param p) : st.Covers p.routes := by
  have hmem : ∀ e ∈ p.routes, push (.param p.label) e ∈ cur.routes := by
    intro e he
    rw [routes_eq, hp]
    simp only [List.mem_append]
    exact Or.inl (Or.inr (List.mem_map_of_mem he))
  exact ⟨h.literalsOk, h.paramsOk,
    fun e he s hs => h.literals _ (hmem e he) s (List.mem_cons_of_mem _ hs),
    fun e he s hs => h.params _ (hmem e he) s (List.mem_cons_of_mem _ hs)⟩

/-- A leaf adds nothing to cover. -/
theorem routes_leaf (s : Bytes) : (Segment.leaf s).routes = [] := by
  simp [routes_eq, Segment.leaf, Segment.zero, routesChildren, routesSpecial]

/-- Once a route was added the tree is not empty. -/
theorem Added.live {word : List Tok} {route : Route} {cur cur' : Segment} {st st' : AddState}
    (h : Added word route cur st cur' st') : cur'.routes ≠ [] := by
  intro hnil
  have := h.routes
  simp [hnil] at this

/-- A route hung on a node itself, by the word of its last step. -/
theorem added_here {word : List Tok} {route : Route} {cur cur' : Segment} {st st' : AddState}
    (hcov : st.Covers cur.routes) (hsound : cur'.Sound)
    (hroutes : cur'.routes.Perm ((word, route) :: cur.routes)) (hstr : cur'.str = cur.str)
    (hlen : cur'.strLength = cur.strLength) (hl : st'.literals = st.literals)
    (hp : st'.params = st.params) (hword : ∀ s, .literal s ∉ word ∧ .param s ∉ word) :
    Added word route cur st cur' st' := by
  refine ⟨hsound, hroutes, hstr, hlen, hl ▸ hcov.literalsOk, hp ▸ hcov.paramsOk, ?_, ?_⟩
  · intro s
    simp [hl, (hword s).1]
  · intro s
    simp [hp, (hword s).2]

/-- A route added below a literal child. -/
theorem added_literal {word : List Tok} {route : Route} {cur c c' : Segment} {st st' : AddState}
    {i : Nat} (hs : cur.Sound) (hcov : st.Covers cur.routes) (hi : cur.children[i]? = some c)
    (h : Added word route c st c' st') :
    Added (.literal c.label :: word) route cur st
      { cur with children := cur.children.set i c' } st' := by
  have hn := hs.node
  have hmem := List.mem_of_getElem? hi
  obtain ⟨hlt, hget⟩ := List.getElem?_eq_some_iff.mp hi
  have hspecial : ∀ p, cur.special ≠ .param p := by
    intro p hp
    have hok := hn.special
    rw [hp] at hok
    simp [hok.1] at hmem
  have hlabels : (cur.children.set i c').map Segment.label = cur.children.map Segment.label := by
    rw [List.map_set, h.label]
    refine List.ext_getElem? (fun j => ?_)
    by_cases hij : i = j
    · subst hij
      simp [hlt, hget]
    · rw [List.getElem?_set_ne hij]
  have hsound : Segment.Sound { cur with children := cur.children.set i c' } := by
    have hne : cur.children ≠ [] := List.ne_nil_of_mem hmem
    have := sound_children (l := cur.children.set i c') cur.tail hs hspecial
      (by simpa using hn.count_le) (by simp [hn.tail_eq, hne]) ?_ (hlabels ▸ hn.distinct)
    · simpa [← hn.count_eq] using this
    · intro d hd
      rcases List.mem_or_eq_of_mem_set hd with hd | rfl
      · exact ⟨hn.labelled d hd, hn.live d hd, hs.child hd⟩
      · exact ⟨h.labelled (hn.labelled c hmem), h.live, h.sound⟩
  refine ⟨hsound, ?_, rfl, rfl, h.literalsOk, h.paramsOk, ?_, ?_⟩
  · have hset := routesChildren_set hi h.label h.routes
    simp only [routes_eq]
    refine ((((hset.append_left _).append_right _).append_right _)).trans ?_
    simp only [List.append_assoc, List.cons_append]
    exact List.perm_middle
  · obtain ⟨e, he⟩ := List.exists_mem_of_ne_nil _ (hn.live c hmem)
    have hold : c.label ∈ st.literals.texts := by
      refine hcov.literals (push (.literal c.label) e) ?_ _ List.mem_cons_self
      rw [routes_eq]
      simp only [List.mem_append]
      exact Or.inl (Or.inl (Or.inr (mem_routesChildren.mpr ⟨c, hmem, e, he, rfl⟩)))
    intro s
    simp only [h.literals, List.mem_cons, Tok.literal.injEq]
    constructor
    · rintro (hs | hs)
      · exact Or.inl hs
      · exact Or.inr (Or.inr hs)
    · rintro (hs | rfl | hs)
      · exact Or.inl hs
      · exact Or.inl hold
      · exact Or.inr hs
  · intro s
    simp [h.params]

/-- A route added below a literal child that was missing. -/
theorem added_newLiteral {word : List Tok} {route : Route} {cur c' : Segment}
    {st st₁ st' : AddState} {s : Bytes} (hs : cur.Sound) (hfree : NulFree s)
    (hspecial : ∀ p, cur.special ≠ .param p) (hlt : cur.children.length < nodeMaxChildCount)
    (hfresh : ∀ c ∈ cur.children, c.label ≠ s)
    (hliterals : ∀ t, t ∈ st₁.literals.texts ↔ t ∈ st.literals.texts ∨ t = s)
    (hparams : st₁.params = st.params) (h : Added word route (.leaf s) st₁ c' st') :
    Added (.literal s :: word) route cur st { cur with
      children := cur.children ++ [c']
      tail := some cur.children.length
      childCount := cur.children.length + 1 } st' := by
  have hn := hs.node
  have hlabel : c'.label = s := h.label
  have hsound := sound_children (l := cur.children ++ [c']) (some cur.children.length) hs
    hspecial (by simpa using Nat.succ_le_of_lt hlt) (by simp) ?_ ?_
  · refine ⟨by simpa using hsound, ?_, rfl, rfl, h.literalsOk, h.paramsOk, ?_, ?_⟩
    · have hr := h.routes.map (push (.literal s))
      rw [routes_leaf] at hr
      simp only [routes_eq cur, routes_eq { cur with children := _, tail := _, childCount := _ },
        routesChildren_append, routesChildren, hlabel, List.append_nil]
      refine (((hr.append_left _).append_left _).append_right _ |>.append_right _).trans ?_
      simp only [List.append_assoc, List.map_cons, List.map_nil, List.cons_append, List.nil_append]
      exact (List.perm_middle.append_left _).trans List.perm_middle
    · intro t
      simp only [h.literals, hliterals, List.mem_cons, Tok.literal.injEq, or_assoc]
    · intro t
      simp [h.params, hparams]
  · intro d hd
    rcases List.mem_append.mp hd with hd | hd
    · exact ⟨hn.labelled d hd, hn.live d hd, hs.child hd⟩
    · obtain rfl := List.mem_singleton.mp hd
      exact ⟨h.labelled (labelled_leaf hfree), h.live, h.sound⟩
  · rw [List.map_append, List.map_singleton, hlabel]
    refine List.Nodup.append hn.distinct (List.nodup_singleton _) ?_
    simpa using hfresh

/-- A route added below the parameter. -/
theorem added_param {word : List Tok} {route : Route} {cur p p' : Segment} {st st' : AddState}
    (hs : cur.Sound) (hcov : st.Covers cur.routes) (hp : cur.special = .param p)
    (h : Added word route p st p' st') :
    Added (.param p.label :: word) route cur st { cur with special := .param p' } st' := by
  obtain ⟨hnil, hl, hr⟩ : SpecialOk cur.children (.param p) := hp ▸ hs.node.special
  refine ⟨sound_param hs hnil h.sound (h.labelled hl) h.live, ?_, rfl, rfl, h.literalsOk,
    h.paramsOk, ?_, ?_⟩
  · have hm := h.routes.map (push (.param p.label))
    simp only [routes_eq cur, routes_eq { cur with special := _ }, hp, routesSpecial, h.label]
    refine ((hm.append_left _).append_right _).trans ?_
    simp only [List.append_assoc, List.map_cons, List.cons_append]
    exact (List.perm_middle.append_left _).trans List.perm_middle
  · intro s
    simp [h.literals]
  · obtain ⟨e, he⟩ := List.exists_mem_of_ne_nil _ hr
    have hold : p.label ∈ st.params.texts := by
      refine hcov.params (push (.param p.label) e) ?_ _ List.mem_cons_self
      rw [routes_eq, hp]
      simp only [List.mem_append]
      exact Or.inl (Or.inr (List.mem_map_of_mem he))
    intro s
    simp only [h.params, List.mem_cons, Tok.param.injEq]
    constructor
    · rintro (hs | hs)
      · exact Or.inl hs
      · exact Or.inr (Or.inr hs)
    · rintro (hs | rfl | hs)
      · exact Or.inl hs
      · exact Or.inl hold
      · exact Or.inr hs

/-- A route added below a parameter that was missing. -/
theorem added_newParam {word : List Tok} {route : Route} {cur p' : Segment}
    {st st₁ st' : AddState} {s : Bytes} (hs : cur.Sound) (hfree : NulFree s)
    (hspecial : cur.special = .none) (hnil : cur.children = [])
    (hparams : ∀ t, t ∈ st₁.params.texts ↔ t ∈ st.params.texts ∨ t = s)
    (hliterals : st₁.literals = st.literals) (h : Added word route (.leaf s) st₁ p' st') :
    Added (.param s :: word) route cur st { cur with special := .param p' } st' := by
  have hlabel : p'.label = s := h.label
  refine ⟨sound_param hs hnil h.sound (h.labelled (labelled_leaf hfree)) h.live, ?_, rfl, rfl,
    h.literalsOk, h.paramsOk, ?_, ?_⟩
  · have hm := h.routes.map (push (.param s))
    rw [routes_leaf] at hm
    simp only [routes_eq cur, routes_eq { cur with special := _ }, hspecial, routesSpecial, hlabel]
    refine ((hm.append_left _).append_right _).trans ?_
    simp only [List.append_assoc, List.map_cons, List.map_nil, List.cons_append, List.nil_append]
    exact (List.perm_middle.append_left _).trans List.perm_middle
  · intro t
    simp [h.literals, hliterals]
  · intro t
    simp only [h.params, hparams, List.mem_cons, Tok.param.injEq, or_assoc]

theorem Token.tok_literal {tok : Token} (h : tok.type = .literal) : tok.tok = .literal tok.text := by
  simp [Token.tok, h]

theorem Token.tok_param {tok : Token} (h : tok.type = .param) : tok.tok = .param tok.text := by
  simp [Token.tok, h]

theorem covers_leaf {st : AddState} {s : Bytes} (hl : st.literals.Ok) (hp : st.params.Ok) :
    st.Covers (Segment.leaf s).routes := by
  rw [routes_leaf]
  exact ⟨hl, hp, by simp, by simp⟩

/-- The hypotheses of a walk pass on to the rest of it. -/
theorem step_hypotheses {tok : Token} {toks : List Token}
    (htype : tok.type = .literal ∨ tok.type = .param) (hterm : Terminated (tok :: toks))
    (hnamed : ∀ t ∈ tok :: toks, t.type = .literal ∨ t.type = .param → t.Named) :
    tok.Named ∧ Terminated toks := by
  refine ⟨hnamed tok List.mem_cons_self htype, ?_⟩
  rcases htype with h | h <;> simpa [Terminated, TokenType.isFinal, h] using hterm

/-- Every successful walk adds exactly its route. -/
theorem Grows.added {route : Route} {toks : List Token} {cur cur' : Segment} {st st' : AddState}
    (h : Grows route toks cur st cur' st') (hs : cur.Sound) (hcov : st.Covers cur.routes)
    (hterm : Terminated toks)
    (hnamed : ∀ t ∈ toks, t.type = .literal ∨ t.type = .param → t.Named) :
    Added (toks.map Token.tok) route cur st cur' st' := by
  induction h with
  | @end_ tok toks cur st st' htype hnone hl hp =>
    obtain rfl : toks = [] := by simpa [Terminated, TokenType.isFinal, htype] using hterm
    refine added_here hcov (sound_terminal hs _) ?_ rfl rfl hl hp ?_
    · simp [routes_eq, hnone, Token.tok, htype]
    · simp [Token.tok, htype]
  | @trailing tok toks cur st st' htype hnone hl hp =>
    obtain rfl : toks = [] := by simpa [Terminated, TokenType.isFinal, htype] using hterm
    refine added_here hcov (sound_trailing hs _) ?_ rfl rfl hl hp ?_
    · simp only [routes_eq, hnone, List.map_cons, List.map_nil, Token.tok, htype,
        Option.toList_some, Option.toList_none, List.append_nil]
      exact List.perm_append_singleton _ _
    · simp [Token.tok, htype]
  | @wildcard tok next toks cur st st' htype hnext hnone hl hp =>
    obtain rfl : toks = [] := by
      simpa [Terminated, TokenType.isFinal, htype, hnext] using hterm
    refine added_here hcov (sound_wildcard hs _) ?_ rfl rfl hl hp ?_
    · simp only [routes_eq, hnone, List.map_cons, List.map_nil, Token.tok, htype, hnext,
        routesSpecial, List.append_nil, List.append_assoc]
      exact (List.perm_middle.append_left _).trans (List.perm_middle)
    · simp [Token.tok, htype, hnext]
  | @oldLiteral tok toks cur child child' st st' i htype hchild hmatch _ ih =>
    obtain ⟨hn, hterm⟩ := step_hypotheses (Or.inl htype) hterm hnamed
    have hmem := List.mem_of_getElem? hchild
    have hlabel := (tokenMatchesSegment_iff hn (hs.node.labelled _ hmem)).mp hmatch
    have hadd := ih (hs.child hmem) (hcov.of_literal hmem) hterm
      (fun t ht => hnamed t (List.mem_cons_of_mem _ ht))
    rw [List.map_cons, Token.tok_literal htype, ← hlabel]
    exact added_literal hs hcov hchild hadd
  | @newLiteral tok toks cur cur₁ child child' st st₁ st' block htype hspecial hfind hcreate
      hparams happend _ ih =>
    obtain ⟨hn, hterm⟩ := step_hypotheses (Or.inl htype) hterm hnamed
    obtain ⟨rfl, hok, htexts⟩ := segmentCreate_ok hcov.literalsOk hn hcreate
    obtain ⟨hlt, rfl⟩ := segmentAppendChild_ok hs.node.count_eq hs.node.tail_eq happend
    have hchild : (cur.children ++ [Segment.leaf tok.text]).getD cur.children.length .zero =
        .leaf tok.text := by simp
    simp only [Option.getD_some, hchild, List.set_append_right _ _ (Nat.le_refl _), Nat.sub_self,
      List.set_cons_zero] at ih ⊢
    have hadd := ih (leaf_sound _) (covers_leaf hok (hparams ▸ hcov.paramsOk)) hterm
      (fun t ht => hnamed t (List.mem_cons_of_mem _ ht))
    rw [List.map_cons, Token.tok_literal htype]
    exact added_newLiteral hs hn.nulFree hspecial hlt
      (segmentFindChildByToken_none hn hs.node.labelled hfind) htexts hparams hadd
  | @oldParam tok toks cur p p' st st' htype hspecial hmatch _ ih =>
    obtain ⟨hn, hterm⟩ := step_hypotheses (Or.inr htype) hterm hnamed
    obtain ⟨-, hl, -⟩ : SpecialOk cur.children (.param p) := hspecial ▸ hs.node.special
    have hlabel := (tokenMatchesSegment_iff hn hl).mp hmatch
    have hadd := ih (hs.param hspecial) (hcov.of_param hspecial) hterm
      (fun t ht => hnamed t (List.mem_cons_of_mem _ ht))
    rw [List.map_cons, Token.tok_param htype, ← hlabel]
    exact added_param hs hcov hspecial hadd
  | @newParam tok toks cur p p' st st₁ st' block htype hspecial hcount hcreate hliterals _ ih =>
    obtain ⟨hn, hterm⟩ := step_hypotheses (Or.inr htype) hterm hnamed
    obtain ⟨rfl, hok, htexts⟩ := segmentCreate_ok hcov.paramsOk hn hcreate
    have hnil : cur.children = [] :=
      List.length_eq_zero_iff.mp (hs.node.count_eq.symm.trans hcount)
    have hadd := ih (leaf_sound _) (covers_leaf (hliterals ▸ hcov.literalsOk) hok) hterm
      (fun t ht => hnamed t (List.mem_cons_of_mem _ ht))
    rw [List.map_cons, Token.tok_param htype]
    exact added_newParam hs hn.nulFree hspecial hnil htexts hliterals hadd

/-! ## The builder -/

/-- The patterns a caller added, as words. -/
def entries (paramSyntax : ParamSyntax) (routes : List (Bytes × Route)) : List Entry :=
  routes.map fun r => (patternWord paramSyntax r.1, r.2)

/-- What a builder holds after the given routes were added, and nothing failed. -/
structure Builder.Holds (b : Builder) (added : List Entry) : Prop where
  intact : b.corrupted = false
  sound : b.root.Sound
  routes : b.root.routes.Perm added
  literalsOk : b.literals.Ok
  paramsOk : b.params.Ok
  literals : ∀ s, s ∈ b.literals.texts ↔ ∃ e ∈ added, Tok.literal s ∈ e.1
  params : ∀ s, s ∈ b.params.texts ↔ ∃ e ∈ added, Tok.param s ∈ e.1

theorem Builder.Holds.covers {b : Builder} {added : List Entry} (h : b.Holds added) (w : World) :
    AddState.Covers ⟨b.literals, b.params, w⟩ b.root.routes :=
  ⟨h.literalsOk, h.paramsOk,
    fun e he s hs => (h.literals s).mpr ⟨e, h.routes.mem_iff.mp he, hs⟩,
    fun e he s hs => (h.params s).mpr ⟨e, h.routes.mem_iff.mp he, hs⟩⟩

/-- A created builder holds nothing. -/
theorem wrouterBuilderCreate_holds {options : Options} {b : Builder} {w w' : World}
    (h : wrouterBuilderCreate options w = (some b, w')) :
    b.Holds [] ∧ b.paramSyntax = options.paramSyntax := by
  unfold wrouterBuilderCreate at h
  split at h
  · simp at h
  dsimp only at h
  split at h
  · simp at h
  simp only [Prod.mk.injEq, Option.some.injEq] at h
  obtain ⟨rfl, -⟩ := h
  refine ⟨⟨rfl, sound_leaf none none none 0, ?_, symbolTable_empty_ok, symbolTable_empty_ok, ?_, ?_⟩,
    rfl⟩
  · simp [routes_eq, Builder.fresh, Segment.zero, routesChildren, routesSpecial]
  · simp [SymbolTable.texts, Builder.fresh, SymbolTable.empty]
  · simp [SymbolTable.texts, Builder.fresh, SymbolTable.empty]

/-- The step lemma: a successful call adds its route. -/
theorem wrouterAddRoute_holds {b b' : Builder} {added : List Entry} {pattern : Bytes}
    {route : Route} {w w' : World} (hb : b.Holds added)
    (h : wrouterAddRoute b (some pattern) route w = (.ok, b', w')) :
    b'.Holds (added ++ [(patternWord b.paramSyntax pattern, route)]) ∧
      b'.paramSyntax = b.paramSyntax := by
  unfold wrouterAddRoute at h
  dsimp only at h
  split at h
  · rename_i hne
    exact absurd (Prod.mk.inj h).1 hne
  unfold builderAddRoute at h
  simp only [hb.intact, Bool.false_eq_true, if_false, Prod.mk.injEq] at h
  obtain ⟨hok, rfl, -⟩ := h
  have hadd := (builderWalk_grows (Prod.ext hok rfl)).added hb.sound (hb.covers w)
    (patternTokens_terminated _ _) (patternTokens_named _ _)
  refine ⟨⟨rfl, hadd.sound, ?_, hadd.literalsOk, hadd.paramsOk, ?_, ?_⟩, rfl⟩
  · exact (hadd.routes.trans (hb.routes.cons _)).trans (List.perm_append_singleton _ _).symm
  · intro s
    simp only [hadd.literals, hb.literals, List.mem_append, List.mem_singleton, or_and_right,
      exists_or, exists_eq_left, patternWord]
  · intro s
    simp only [hadd.params, hb.params, List.mem_append, List.mem_singleton, or_and_right,
      exists_or, exists_eq_left, patternWord]

/-- The builder invariant, over any sequence of successful calls. -/
theorem Built.holds {options : Options} {routes : List (Bytes × Route)} {b : Builder}
    (h : Built options routes b) :
    b.Holds (entries options.paramSyntax routes) ∧ b.paramSyntax = options.paramSyntax := by
  induction h with
  | create h => exact wrouterBuilderCreate_holds h
  | add _ hadd ih =>
    obtain ⟨hb, hs⟩ := ih
    obtain ⟨hb', hs'⟩ := wrouterAddRoute_holds hb hadd
    rw [hs] at hb' hs'
    exact ⟨by simpa [entries] using hb', hs'⟩

end Wrouter
