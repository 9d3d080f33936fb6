import Wrouter.Compiler
import Wrouter.Conflict

/-!
# Statistics of the route tree

The counters that size every later allocation, as functions of the routes the
tree holds: their number, the cells their nodes and edges take, and the largest
number of parameters one of them can record.
-/
namespace Wrouter

open CLib

/-- Parameters a match of the pattern records: its own, and one for a wildcard. -/
def slots : List Tok → Nat
  | [] => 0
  | .param _ :: w => slots w + 1
  | .wildcard :: w => slots w + 1
  | _ :: w => slots w

def maxSlots (es : List Entry) : Nat := (es.map fun e => slots e.1).foldr max 0

mutual
/-- Cells of the node, its edges, and everything below. -/
def Segment.size : Segment → Nat
  | ⟨_, children, _, _, trailing, special, _, _⟩ =>
    1 + (if trailing.isSome then 2 else 0) + sizeSpecial special + 2 * children.length +
      sizeChildren children

def sizeSpecial : Special Segment → Nat
  | .param p => 2 + p.size
  | .wildcard _ => 2
  | _ => 0

def sizeChildren : List Segment → Nat
  | [] => 0
  | c :: cs => c.size + sizeChildren cs
end

theorem size_eq (s : Segment) : s.size = 1 + (if s.trailing.isSome then 2 else 0) +
    sizeSpecial s.special + 2 * s.children.length + sizeChildren s.children := by
  cases s
  rw [Segment.size]

theorem maxSlots_le {es : List Entry} {n : Nat} : maxSlots es ≤ n ↔ ∀ e ∈ es, slots e.1 ≤ n := by
  induction es with
  | nil => simp [maxSlots]
  | cons e es ih =>
    simp only [maxSlots, List.map_cons, List.foldr_cons, Nat.max_le, List.forall_mem_cons] at ih ⊢
    rw [ih]

theorem maxSlots_congr {es fs : List Entry} (h : ∀ e, e ∈ es ↔ e ∈ fs) :
    maxSlots es = maxSlots fs := by
  apply Nat.le_antisymm
  · rw [maxSlots_le]
    exact fun e he => maxSlots_le.mp (Nat.le_refl _) e ((h e).mp he)
  · rw [maxSlots_le]
    exact fun e he => maxSlots_le.mp (Nat.le_refl _) e ((h e).mpr he)

@[simp] theorem maxSlots_nil : maxSlots [] = 0 := rfl

@[simp] theorem maxSlots_append (es fs : List Entry) :
    maxSlots (es ++ fs) = max (maxSlots es) (maxSlots fs) := by
  induction es with
  | nil => simp
  | cons e es ih =>
    simp only [maxSlots, List.cons_append, List.map_cons, List.foldr_cons] at ih ⊢
    rw [ih, Nat.max_assoc]

@[simp] theorem maxSlots_literal (s : Bytes) (es : List Entry) :
    maxSlots (es.map (push (.literal s))) = maxSlots es := by
  simp only [maxSlots, List.map_map]
  rfl

theorem maxSlots_param (s : Bytes) {es : List Entry} (h : es ≠ []) :
    maxSlots (es.map (push (.param s))) = maxSlots es + 1 := by
  induction es with
  | nil => exact absurd rfl h
  | cons e es ih =>
    cases es with
    | nil => simp [maxSlots, push, slots]
    | cons f es =>
      have := ih (by simp)
      simp only [maxSlots, List.map_cons, List.foldr_cons, push, slots] at this ⊢
      rw [this]
      omega

/-- What one traversal adds to counters that were consistent before. -/
def GraphStats.add (st : GraphStats) (es : List Entry) (size : Nat) : GraphStats :=
  ⟨st.terminals + es.length, st.size + size, st.paramDepth,
    max st.maxParams (st.paramDepth + maxSlots es)⟩

theorem graphStats_eq (s : Segment) (st : GraphStats) : graphStats s st =
    graphStatsChildren s.children
      (let st := { st with size := st.size + 1 }
       let st := if s.terminal.isSome then { st with terminals := st.terminals + 1 } else st
       let st := if s.trailing.isSome then
         { st with terminals := st.terminals + 1, size := st.size + 2 } else st
       let st := graphStatsSpecial s.special st
       { st with size := st.size + 2 * s.childCount }) := by
  cases s
  rw [graphStats]

/-- Children are counted one after the other. -/
theorem graphStatsChildren_spec {l : List Segment} (st : GraphStats)
    (hl : ∀ c ∈ l, ∀ st : GraphStats, st.paramDepth ≤ st.maxParams →
      graphStats c st = st.add c.routes c.size) (h : st.paramDepth ≤ st.maxParams) :
    graphStatsChildren l st = st.add (routesChildren l) (sizeChildren l) := by
  induction l generalizing st with
  | nil => simp [graphStatsChildren, GraphStats.add, routesChildren, sizeChildren, h]
  | cons c l ih =>
    obtain ⟨hc, hl⟩ := List.forall_mem_cons.mp hl
    rw [graphStatsChildren, hc st h, ih _ hl (by simp [GraphStats.add])]
    simp only [GraphStats.add, routesChildren, sizeChildren, List.length_append, List.length_map,
      maxSlots_append, maxSlots_literal, GraphStats.mk.injEq, true_and]
    omega

/-- The traversal counts routes, cells and parameters of a sound tree. -/
theorem graphStats_spec {s : Segment} (hs : s.Sound) (st : GraphStats)
    (h : st.paramDepth ≤ st.maxParams) : graphStats s st = st.add s.routes s.size := by
  induction hs generalizing st with
  | node s hn _ _ ihc ihp =>
    have hspecial (st : GraphStats) (h : st.paramDepth ≤ st.maxParams) :
        graphStatsSpecial s.special st =
          st.add (routesSpecial s.special) (sizeSpecial s.special) := by
      have hok := hn.special
      cases hc : s.special with
      | none => simp [graphStatsSpecial, GraphStats.add, routesSpecial, sizeSpecial, h]
      | paramNull => rw [hc] at hok; exact hok.elim
      | wildcardNull => rw [hc] at hok; exact hok.elim
      | wildcard r =>
        simp only [graphStatsSpecial, GraphStats.add, routesSpecial, sizeSpecial]
        split <;> simp [maxSlots, slots] <;> omega
      | param p =>
        rw [hc] at hok
        obtain ⟨-, -, hlive⟩ := hok
        simp only [graphStatsSpecial, routesSpecial, sizeSpecial]
        rw [ihp p hc _ (by split <;> simp <;> omega)]
        simp only [GraphStats.add, List.length_map, maxSlots_param _ hlive]
        split <;> simp <;> omega
    rw [graphStats_eq]
    dsimp only
    rw [hspecial _ (by split <;> split <;> simpa using h), graphStatsChildren_spec _ ihc
      (by simp only [GraphStats.add]; split <;> split <;> simp)]
    rw [routes_eq, size_eq, hn.count_eq]
    simp only [GraphStats.add, List.length_append, List.length_map, maxSlots_append]
    cases s.terminal <;> cases s.trailing <;> simp [maxSlots, slots] <;> omega

/-- The counters of a tree: its routes, its cells and the slots its patterns need. -/
theorem graphStats_zero {s : Segment} (hs : s.Sound) :
    graphStats s .zero = ⟨s.routes.length, s.size, 0, maxSlots s.routes⟩ := by
  rw [graphStats_spec hs _ (Nat.le_refl _)]
  simp [GraphStats.add, GraphStats.zero]

/-- The tree holds exactly the routes that were added, each once and under its own
word; its nodes are consistent; and the statistics count the additions. -/
theorem tree_holds_added_routes {options : Options} {routes : List (Bytes × Route)} {b : Builder}
    (h : Built options routes b) :
    b.root.routes.Perm (entries options.paramSyntax routes) ∧
      (b.root.routes.map Prod.fst).Nodup ∧
      b.root.Everywhere Segment.NodeOk ∧
      (graphStats b.root .zero).terminals = routes.length ∧
      ∀ (L : Libc) (w : World) (router : Router),
        (wrouterCompile L (some b) w).1 = some router → wrouterRouteCount router = routes.length := by
  have hb := h.holds.1
  have hstats : (graphStats b.root .zero).terminals = routes.length := by
    rw [graphStats_zero hb.sound, hb.routes.length_eq, entries, List.length_map]
  refine ⟨hb.routes, ?_, hb.sound, hstats, ?_⟩
  · rw [(hb.routes.map Prod.fst).nodup_iff, List.Nodup, List.pairwise_map]
    exact h.compatible.2.imp (fun hno he => hno (Or.inl he))
  · intro L w router hc
    exact (wrouterCompile_ok hc).numRoutes.trans hstats

/-- Two routes, each once in the tree. -/
theorem tree_holds_two_routes :
    ∃ b, Built plainOptions [(ascii "/*", ⟨0, 1⟩), (ascii "/a/:x/b", ⟨0, 2⟩)] b ∧
      b.root.routes.Perm
        (entries .colon [(ascii "/*", ⟨0, 1⟩), (ascii "/a/:x/b", ⟨0, 2⟩)]) ∧
      b.root.Everywhere Segment.NodeOk ∧ (graphStats b.root .zero).terminals = 2 := by
  obtain ⟨b, hb, -⟩ :
      ∃ b, Built plainOptions [(ascii "/*", ⟨0, 1⟩), (ascii "/a/:x/b", ⟨0, 2⟩)] b ∧ True :=
    buildRoutes_any (w := .empty) (by decide +kernel)
  obtain ⟨hroutes, -, hnodes, hcount, -⟩ := tree_holds_added_routes hb
  exact ⟨b, hb, hroutes, hnodes, hcount⟩

/-! ## The size, by the words alone -/

def Tok.isStep : Tok → Bool
  | .literal _ => true
  | .param _ => true
  | _ => false

mutual
/-- The words of the nodes below, the node itself left out. -/
def Segment.nodes : Segment → List (List Tok)
  | ⟨_, children, _, _, _, special, _, _⟩ => nodesChildren children ++ nodesSpecial special

def nodesSpecial : Special Segment → List (List Tok)
  | .param p => ([] :: p.nodes).map (List.cons (.param p.label))
  | _ => []

def nodesChildren : List Segment → List (List Tok)
  | [] => []
  | c :: cs => ([] :: c.nodes).map (List.cons (.literal c.label)) ++ nodesChildren cs
end

theorem nodes_eq (s : Segment) : s.nodes = nodesChildren s.children ++ nodesSpecial s.special := by
  cases s
  rw [Segment.nodes]

theorem mem_nodesChildren {l : List Segment} {q : List Tok} : q ∈ nodesChildren l ↔
    ∃ c ∈ l, ∃ p ∈ [] :: c.nodes, .literal c.label :: p = q := by
  induction l with
  | nil => simp [nodesChildren]
  | cons c l ih =>
    simp only [nodesChildren, List.mem_append, List.mem_map, ih, List.mem_cons, or_and_right,
      exists_or, exists_eq_left]

/-- Routes that end on a node of their own: behind a wildcard or a trailing slash. -/
def endsApart (e : Entry) : Bool := e.1.any fun a => a = .wildcard || a = .trailing

@[simp] theorem endsApart_literal (s : Bytes) : endsApart ∘ push (.literal s) = endsApart := rfl
@[simp] theorem endsApart_param (s : Bytes) : endsApart ∘ push (.param s) = endsApart := rfl

/-- Two cells for the edge and one for the node of each child, and two where a route ends apart. -/
theorem sizeChildren_formula {l : List Segment}
    (h : ∀ c ∈ l, c.size = 1 + 3 * c.nodes.length + 2 * c.routes.countP endsApart) :
    2 * l.length + sizeChildren l =
      3 * (nodesChildren l).length + 2 * (routesChildren l).countP endsApart := by
  induction l with
  | nil => simp [sizeChildren, nodesChildren, routesChildren]
  | cons c l ih =>
    obtain ⟨hc, hl⟩ := List.forall_mem_cons.mp h
    have := ih hl
    simp only [sizeChildren, nodesChildren, routesChildren, List.length_cons, List.length_append,
      List.length_map, List.countP_append, List.countP_map, endsApart_literal]
    omega

/-- A node for each word of steps, two cells of edge to each, and edge and node for each
wildcard and trailing slash. -/
theorem size_formula {s : Segment} (hs : s.Sound) :
    s.size = 1 + 3 * s.nodes.length + 2 * s.routes.countP endsApart := by
  induction hs with
  | node s hn _ _ ihc ihp =>
    have hchildren := sizeChildren_formula ihc
    have hspecial : sizeSpecial s.special = 3 * (nodesSpecial s.special).length +
        2 * (routesSpecial s.special).countP endsApart := by
      cases hc : s.special with
      | param p =>
        have := ihp p hc
        simp only [sizeSpecial, nodesSpecial, routesSpecial, List.length_map, List.length_cons,
          List.countP_map, endsApart_param]
        omega
      | _ =>
        have hok := hn.special
        rw [hc] at hok
        first
        | exact hok.elim
        | simp [sizeSpecial, nodesSpecial, routesSpecial, endsApart]
    rw [size_eq, nodes_eq, routes_eq]
    simp only [List.length_append, List.countP_append, List.countP_map]
    cases s.terminal <;> cases s.trailing <;> simp [endsApart] <;> omega

theorem mem_nodesSpecial {sp : Special Segment} {q : List Tok} : q ∈ nodesSpecial sp ↔
    ∃ p, sp = .param p ∧ ∃ u ∈ [] :: p.nodes, .param p.label :: u = q := by
  cases sp <;> simp [nodesSpecial, eq_comm]

/-- The nodes of a sound tree are the step prefixes of its routes. -/
theorem mem_nodes {s : Segment} (hs : s.Sound) {q : List Tok} : q ∈ s.nodes ↔
    q ≠ [] ∧ (∀ a ∈ q, a.isStep) ∧ ∃ e ∈ s.routes, q <+: e.1 := by
  induction hs generalizing q with
  | node s hn _ _ ihc ihp =>
    have hbelow {t : Segment} (hlive : t.routes ≠ []) (ih : ∀ {q : List Tok}, q ∈ t.nodes ↔
        q ≠ [] ∧ (∀ a ∈ q, a.isStep) ∧ ∃ e ∈ t.routes, q <+: e.1) (p : List Tok) :
        p ∈ [] :: t.nodes ↔ (∀ a ∈ p, a.isStep) ∧ ∃ e ∈ t.routes, p <+: e.1 := by
      rw [List.mem_cons, ih]
      by_cases hp : p = []
      · obtain ⟨e, he⟩ := List.exists_mem_of_ne_nil _ hlive
        simp only [hp, true_or, true_iff]
        exact ⟨by simp, e, he, List.nil_prefix⟩
      · simp [hp]
    have hlive (p : Segment) (hp : s.special = .param p) : p.routes ≠ [] := by
      have hok := hn.special
      rw [hp] at hok
      exact hok.2.2
    rw [nodes_eq, List.mem_append, mem_nodesChildren, mem_nodesSpecial]
    constructor
    · rintro (⟨c, hc, p, hp, rfl⟩ | ⟨t, ht, p, hp, rfl⟩)
      · obtain ⟨hstep, e, he, hpre⟩ := (hbelow (hn.live c hc) (ihc c hc) p).mp hp
        exact ⟨by simp, List.forall_mem_cons.mpr ⟨rfl, hstep⟩,
          literal_prefix_routes.mpr ⟨c, hc, rfl, e, he, hpre⟩⟩
      · obtain ⟨hstep, e, he, hpre⟩ := (hbelow (hlive t ht) (ihp t ht) p).mp hp
        exact ⟨by simp, List.forall_mem_cons.mpr ⟨rfl, hstep⟩,
          param_prefix_routes.mpr ⟨t, ht, rfl, e, he, hpre⟩⟩
    · rintro ⟨hne, hstep, hpre⟩
      cases q with
      | nil => exact absurd rfl hne
      | cons a p =>
        have ha := hstep a List.mem_cons_self
        replace hstep : ∀ b ∈ p, b.isStep := fun b hb => hstep b (List.mem_cons_of_mem _ hb)
        cases a with
        | literal x =>
          obtain ⟨c, hc, rfl, hbel⟩ := literal_prefix_routes.mp hpre
          exact Or.inl ⟨c, hc, p, (hbelow (hn.live c hc) (ihc c hc) p).mpr ⟨hstep, hbel⟩, rfl⟩
        | param x =>
          obtain ⟨t, ht, rfl, hbel⟩ := param_prefix_routes.mp hpre
          exact Or.inr ⟨t, ht, p, (hbelow (hlive t ht) (ihp t ht) p).mpr ⟨hstep, hbel⟩, rfl⟩
        | _ => simp [Tok.isStep] at ha

theorem nodup_nodesChildren {l : List Segment} (hd : (l.map Segment.label).Nodup)
    (h : ∀ c ∈ l, ([] :: c.nodes).Nodup) : (nodesChildren l).Nodup := by
  induction l with
  | nil => simp [nodesChildren]
  | cons c l ih =>
    obtain ⟨hc, hl⟩ := List.forall_mem_cons.mp h
    obtain ⟨hfresh, hd⟩ := List.nodup_cons.mp hd
    rw [nodesChildren]
    refine List.Nodup.append (hc.map (List.cons_injective)) (ih hd hl) ?_
    intro q hq hq'
    obtain ⟨p, -, rfl⟩ := List.mem_map.mp hq
    obtain ⟨d, hmem, u, -, he⟩ := mem_nodesChildren.mp hq'
    have hlabel : d.label = c.label := by simpa using (List.cons.inj he).1
    exact hfresh (List.mem_map.mpr ⟨d, hmem, hlabel⟩)

/-- No two nodes are reached by the same word. -/
theorem nodup_nodes {s : Segment} (hs : s.Sound) : s.nodes.Nodup := by
  induction hs with
  | node s hn hcs hps ihc ihp =>
    have hnil {t : Segment} (ht : t.Sound) (h : t.nodes.Nodup) : ([] :: t.nodes).Nodup :=
      List.nodup_cons.mpr ⟨fun hm => ((mem_nodes ht).mp hm).1 rfl, h⟩
    rw [nodes_eq]
    refine List.Nodup.append (nodup_nodesChildren hn.distinct
      (fun c hc => hnil (hcs c hc) (ihc c hc))) ?_ ?_
    · cases hc : s.special with
      | param p => exact (hnil (hps p hc) (ihp p hc)).map (List.cons_injective)
      | _ => simp [nodesSpecial]
    · intro q hq hq'
      obtain ⟨c, -, p, -, rfl⟩ := mem_nodesChildren.mp hq
      obtain ⟨t, -, u, -, he⟩ := mem_nodesSpecial.mp hq'
      simp at he

/-- Trees with the same routes have the same size, however they were grown. -/
theorem size_congr {s t : Segment} (hs : s.Sound) (ht : t.Sound) (h : s.routes.Perm t.routes) :
    s.size = t.size := by
  have hnodes : s.nodes.Perm t.nodes := by
    refine (List.perm_ext_iff_of_nodup (nodup_nodes hs) (nodup_nodes ht)).mpr (fun q => ?_)
    rw [mem_nodes hs, mem_nodes ht]
    simp only [h.mem_iff]
  rw [size_formula hs, size_formula ht, hnodes.length_eq, h.countP_eq]

end Wrouter
