import Wrouter.Stats

/-!
# Layout of the compiled graph

Where everything of a node lies is a function of the tree and the node's offset.
A graph encodes the tree at an offset when the cells there say so, node by node;
the encoding looks at no cell outside the node's own range.
-/
namespace Wrouter

open CLib

def specialWidth : Special Segment → Nat
  | .param _ => 2
  | .wildcard _ => 1
  | _ => 0

def trailingWidth (trailing : Option Route) : Nat := if trailing.isSome then 1 else 0

def specialNodes : Special Segment → Nat
  | .param p => p.size
  | .wildcard _ => 1
  | _ => 0

def Segment.trailingEdge (s : Segment) (o : Nat) : Nat := o + 1 + specialWidth s.special

def Segment.literalBase (s : Segment) (o : Nat) : Nat :=
  s.trailingEdge o + trailingWidth s.trailing

def Segment.childBase (s : Segment) (o : Nat) : Nat := s.literalBase o + s.children.length * 2

def Segment.specialBase (s : Segment) (o : Nat) : Nat := s.childBase o + sizeChildren s.children

def Segment.trailingBase (s : Segment) (o : Nat) : Nat :=
  s.specialBase o + specialNodes s.special

theorem size_end (s : Segment) (o : Nat) :
    s.trailingBase o + trailingWidth s.trailing = o + s.size := by
  have hspecial : specialWidth s.special + specialNodes s.special = sizeSpecial s.special := by
    cases s.special <;> simp [specialWidth, specialNodes, sizeSpecial]
  rw [size_eq]
  unfold Segment.trailingBase Segment.specialBase Segment.childBase Segment.literalBase
    Segment.trailingEdge trailingWidth
  split <;> omega

/-- Segments one after the other from an offset on. -/
def placed : Nat → List Segment → List (Segment × Nat)
  | _, [] => []
  | o, c :: cs => (c, o) :: placed (o + c.size) cs

@[simp] theorem length_placed (o : Nat) (l : List Segment) : (placed o l).length = l.length := by
  induction l generalizing o with
  | nil => rfl
  | cons c l ih => simp [placed, ih]

/-- A placed segment lies inside the cells of all. -/
theorem placed_mem {o : Nat} {l : List Segment} {x : Segment × Nat} (h : x ∈ placed o l) :
    x.1 ∈ l ∧ o ≤ x.2 ∧ x.2 + x.1.size ≤ o + sizeChildren l := by
  induction l generalizing o with
  | nil => simp [placed] at h
  | cons c l ih =>
    rcases List.mem_cons.mp h with rfl | h
    · simp only [sizeChildren, List.mem_cons, true_or, true_and]
      omega
    · obtain ⟨hm, hlo, hhi⟩ := ih h
      simp only [sizeChildren]
      exact ⟨List.mem_cons_of_mem _ hm, by omega, by omega⟩

theorem placed_fst (o : Nat) (l : List Segment) : (placed o l).map Prod.fst = l := by
  induction l generalizing o with
  | nil => rfl
  | cons c l ih => simp [placed, ih]

def flagBit (b : Bool) (flag : Nat) : Nat := if b then flag else 0

def Special.isParam : Special Segment → Bool
  | .param _ => true
  | _ => false

def Special.isWildcard : Special Segment → Bool
  | .wildcard _ => true
  | _ => false

def Segment.word (s : Segment) : Nat :=
  s.children.length ||| flagBit s.terminal.isSome nodeFlagTerminal |||
    flagBit s.special.isParam nodeFlagHasParam |||
    flagBit s.special.isWildcard nodeFlagHasWildcard |||
    flagBit s.trailing.isSome nodeFlagHasTrailing

def Segment.edges (literals : Symbols) (s : Segment) (o : Nat) : List (Nat × Nat) :=
  (placed (s.childBase o) s.children).map fun x => (literals.symbolOf x.1.label, x.2)

inductive Encodes (L : Libc) (literals params : Symbols) (g : List Nat) : Segment → Nat → Prop where
  | node {s : Segment} {o : Nat} (word : cell g o = s.word)
      (param : ∀ p, s.special = .param p →
        cell g (o + 1) = params.symbolOf p.label ∧ cell g (o + 2) = s.specialBase o)
      (wildcard : ∀ r, s.special = .wildcard r → cell g (o + 1) = s.specialBase o ∧
        cell g (s.specialBase o) = nodeFlagTerminal)
      (trailing : s.trailing.isSome → cell g (s.trailingEdge o) = s.trailingBase o ∧
        cell g (s.trailingBase o) = nodeFlagTerminal)
      (sorted : readEdges g (s.literalBase o) s.children.length =
        L.qsort edgeCmp (s.edges literals o))
      (children : ∀ x ∈ placed (s.childBase o) s.children, Encodes L literals params g x.1 x.2)
      (below : ∀ p, s.special = .param p → Encodes L literals params g p (s.specialBase o)) :
      Encodes L literals params g s o

theorem readEdges_congr {g g' : List Nat} {base n : Nat}
    (h : ∀ i, base ≤ i → i < base + n * 2 → cell g' i = cell g i) :
    readEdges g' base n = readEdges g base n := by
  induction n generalizing base with
  | zero => rfl
  | succ n ih =>
    rw [readEdges, readEdges, h base (by omega) (by omega), h (base + 1) (by omega) (by omega),
      ih (fun i h1 h2 => h i (by omega) (by omega))]

/-- Cells outside the node's range do not matter. -/
theorem Encodes.congr {L : Libc} {literals params : Symbols} {g g' : List Nat} {s : Segment}
    {o : Nat} (h : Encodes L literals params g s o)
    (hg : ∀ i, o ≤ i → i < o + s.size → cell g' i = cell g i) :
    Encodes L literals params g' s o := by
  induction h with
  | @node s o word param wildcard trailing sorted children below ihc ihp =>
    have hend := size_end s o
    have hspec : ∀ p, s.special = .param p → specialWidth s.special = 2 ∧
        specialNodes s.special = p.size := by
      intro p hp
      simp [hp, specialWidth, specialNodes]
    have hwild : ∀ r, s.special = .wildcard r → specialWidth s.special = 1 ∧
        specialNodes s.special = 1 := by
      intro r hr
      simp [hr, specialWidth, specialNodes]
    unfold Segment.trailingBase Segment.specialBase Segment.childBase Segment.literalBase
      Segment.trailingEdge at hend
    refine .node ?_ ?_ ?_ ?_ ?_ ?_ ?_
    · rw [hg o (by omega) (by omega), word]
    · intro p hp
      have := hspec p hp
      rw [hg (o + 1) (by omega) (by omega), hg (o + 2) (by omega) (by omega)]
      exact param p hp
    · intro r hr
      have := hwild r hr
      have hnode : cell g' (s.specialBase o) = cell g (s.specialBase o) := by
        refine hg _ ?_ ?_
        all_goals
          unfold Segment.specialBase Segment.childBase Segment.literalBase Segment.trailingEdge
          omega
      rw [hg (o + 1) (by omega) (by omega), hnode]
      exact wildcard r hr
    · intro ht
      have htw : trailingWidth s.trailing = 1 := by simp [trailingWidth, ht]
      have hedge : cell g' (s.trailingEdge o) = cell g (s.trailingEdge o) :=
        hg _ (by unfold Segment.trailingEdge; omega) (by unfold Segment.trailingEdge; omega)
      have hnode : cell g' (s.trailingBase o) = cell g (s.trailingBase o) := by
        refine hg _ ?_ ?_
        all_goals
          unfold Segment.trailingBase Segment.specialBase Segment.childBase Segment.literalBase
            Segment.trailingEdge
          omega
      rw [hedge, hnode]
      exact trailing ht
    · rw [readEdges_congr, sorted]
      intro i hlo hhi
      unfold Segment.literalBase Segment.trailingEdge at hlo hhi
      exact hg i (by omega) (by omega)
    · intro x hx
      obtain ⟨-, hlo, hhi⟩ := placed_mem hx
      unfold Segment.childBase Segment.literalBase Segment.trailingEdge at hlo hhi
      exact ihc x hx (fun i h1 h2 => hg i (by omega) (by omega))
    · intro p hp
      have := hspec p hp
      refine ihp p hp (fun i h1 h2 => hg i ?_ ?_)
      all_goals
        unfold Segment.specialBase Segment.childBase Segment.literalBase Segment.trailingEdge at *
        omega

/-! ## Terminals, in the order of their nodes -/

mutual
/-- The offsets of the terminating nodes, with their routes. -/
def Segment.terms : Segment → Nat → List (Nat × Route)
  | ⟨str, children, tail, terminal, trailing, special, n, k⟩, o =>
    let s : Segment := ⟨str, children, tail, terminal, trailing, special, n, k⟩
    terminal.toList.map (fun r => (o, r)) ++ termsChildren children (s.childBase o) ++
      termsSpecial special (s.specialBase o) ++
      trailing.toList.map (fun r => (s.trailingBase o, r))

def termsSpecial : Special Segment → Nat → List (Nat × Route)
  | .param p, o => p.terms o
  | .wildcard r, o => [(o, r)]
  | .wildcardNull, _ => []
  | .paramNull, _ => []
  | .none, _ => []

def termsChildren : List Segment → Nat → List (Nat × Route)
  | [], _ => []
  | c :: cs, o => c.terms o ++ termsChildren cs (o + c.size)
end

theorem terms_eq (s : Segment) (o : Nat) : s.terms o =
    s.terminal.toList.map (fun r => (o, r)) ++ termsChildren s.children (s.childBase o) ++
      termsSpecial s.special (s.specialBase o) ++
      s.trailing.toList.map (fun r => (s.trailingBase o, r)) := by
  cases s
  rw [Segment.terms]

theorem termsChildren_range {l : List Segment} {o : Nat}
    (h : ∀ c ∈ l, ∀ o, ∀ x ∈ c.terms o, o ≤ x.1 ∧ x.1 < o + c.size) :
    ∀ x ∈ termsChildren l o, o ≤ x.1 ∧ x.1 < o + sizeChildren l := by
  induction l generalizing o with
  | nil => simp [termsChildren]
  | cons c l ih =>
    obtain ⟨hc, hl⟩ := List.forall_mem_cons.mp h
    intro x hx
    simp only [termsChildren, List.mem_append] at hx
    simp only [sizeChildren]
    rcases hx with hx | hx
    · have := hc o x hx
      omega
    · have := ih hl x hx
      omega

/-- The four groups of a node's terminals, each in a range of its own. -/
theorem terms_groups {s : Segment} {o : Nat} {x : Nat × Route}
    (hc : ∀ x ∈ termsChildren s.children (s.childBase o),
      s.childBase o ≤ x.1 ∧ x.1 < s.specialBase o)
    (hp : ∀ x ∈ termsSpecial s.special (s.specialBase o),
      s.specialBase o ≤ x.1 ∧ x.1 < s.trailingBase o)
    (hx : x ∈ s.terms o) : o ≤ x.1 ∧ x.1 < o + s.size := by
  have hend := size_end s o
  have htb : s.trailingBase o = s.specialBase o + specialNodes s.special := rfl
  have hsb : s.specialBase o = s.childBase o + sizeChildren s.children := rfl
  have hcb : s.childBase o = o + 1 + specialWidth s.special + trailingWidth s.trailing +
    s.children.length * 2 := rfl
  rw [terms_eq] at hx
  simp only [List.mem_append, List.mem_map, Option.mem_toList] at hx
  rcases hx with ((⟨r, -, rfl⟩ | hx) | hx) | ⟨r, hr, rfl⟩
  · dsimp only
    omega
  · have := hc x hx
    omega
  · have := hp x hx
    omega
  · have hw : trailingWidth s.trailing = 1 := by simp [trailingWidth, hr]
    dsimp only
    omega

theorem terms_range {s : Segment} (hs : s.Sound) (o : Nat) :
    ∀ x ∈ s.terms o, o ≤ x.1 ∧ x.1 < o + s.size := by
  induction hs generalizing o with
  | node s hn _ _ ihc ihp =>
    intro x hx
    refine terms_groups (termsChildren_range ihc) ?_ hx
    intro y hy
    unfold Segment.trailingBase
    cases hc : s.special with
    | param p => exact ihp p hc _ y (by simpa [hc, termsSpecial] using hy)
    | wildcard r =>
      obtain rfl : y = (s.specialBase o, r) := by simpa [hc, termsSpecial] using hy
      simp [specialNodes]
    | _ => simp [hc, termsSpecial] at hy

/-- The terminals of the children come in increasing offsets. -/
theorem termsChildren_sorted {l : List Segment} {o : Nat} (hl : ∀ c ∈ l, c.Sound)
    (h : ∀ c ∈ l, ∀ o, (c.terms o).Pairwise (fun x y => x.1 < y.1)) :
    (termsChildren l o).Pairwise (fun x y => x.1 < y.1) := by
  induction l generalizing o with
  | nil => simp [termsChildren]
  | cons c l ih =>
    obtain ⟨hc, h⟩ := List.forall_mem_cons.mp h
    obtain ⟨hcs, hl⟩ := List.forall_mem_cons.mp hl
    rw [termsChildren, List.pairwise_append]
    refine ⟨hc o, ih hl h, fun x hx y hy => ?_⟩
    have hlo := terms_range hcs o x hx
    have hhi := termsChildren_range (fun c hc => terms_range (hl c hc)) y hy
    omega

/-- The offsets come in strictly increasing order, which the dictionary relies on. -/
theorem terms_sorted {s : Segment} (hs : s.Sound) (o : Nat) :
    (s.terms o).Pairwise (fun x y => x.1 < y.1) := by
  induction hs generalizing o with
  | node s hn hcs hps ihc ihp =>
    have hcr : ∀ x ∈ termsChildren s.children (s.childBase o),
        s.childBase o ≤ x.1 ∧ x.1 < s.specialBase o :=
      termsChildren_range (fun c hc => terms_range (hcs c hc))
    have hpr : ∀ x ∈ termsSpecial s.special (s.specialBase o),
        s.specialBase o ≤ x.1 ∧ x.1 < s.trailingBase o := by
      intro y hy
      unfold Segment.trailingBase
      cases hc : s.special with
      | param p => exact terms_range (hps p hc) _ y (by simpa [hc, termsSpecial] using hy)
      | wildcard r =>
        obtain rfl : y = (s.specialBase o, r) := by simpa [hc, termsSpecial] using hy
        simp [specialNodes]
      | _ => simp [hc, termsSpecial] at hy
    have hsorted : (termsSpecial s.special (s.specialBase o)).Pairwise (fun x y => x.1 < y.1) := by
      cases hc : s.special with
      | param p => exact ihp p hc _
      | _ => simp [termsSpecial]
    have hsb : s.specialBase o = s.childBase o + sizeChildren s.children := rfl
    have hcb : s.childBase o = o + 1 + specialWidth s.special + trailingWidth s.trailing +
      s.children.length * 2 := rfl
    have htb : s.trailingBase o = s.specialBase o + specialNodes s.special := rfl
    rw [terms_eq]
    simp only [List.pairwise_append, List.mem_append, List.mem_map, Option.mem_toList]
    refine ⟨⟨⟨?_, termsChildren_sorted hcs ihc, ?_⟩, hsorted, ?_⟩, ?_, ?_⟩
    · cases s.terminal <;> simp
    · rintro x ⟨r, -, rfl⟩ y hy
      have := hcr y hy
      dsimp only
      omega
    · rintro x (⟨r, -, rfl⟩ | hx) y hy
      · have := hpr y hy
        dsimp only
        omega
      · have := hcr x hx
        have := hpr y hy
        omega
    · cases s.trailing <;> simp
    · rintro x ((⟨r, -, rfl⟩ | hx) | hx) y ⟨r', -, rfl⟩
      · dsimp only
        omega
      · have := hcr x hx
        dsimp only
        omega
      · have := hpr x hx
        dsimp only
        omega

theorem termsChildren_routes {l : List Segment} {o : Nat}
    (h : ∀ c ∈ l, ∀ o, (c.terms o).map Prod.snd = c.routes.map Prod.snd) :
    (termsChildren l o).map Prod.snd = (routesChildren l).map Prod.snd := by
  induction l generalizing o with
  | nil => rfl
  | cons c l ih =>
    obtain ⟨hc, h⟩ := List.forall_mem_cons.mp h
    rw [termsChildren, routesChildren, List.map_append, List.map_append, hc, ih h, map_push_snd]

/-- The terminals carry the routes of the tree, in their order. -/
theorem terms_routes {s : Segment} (hs : s.Sound) (o : Nat) :
    (s.terms o).map Prod.snd = s.routes.map Prod.snd := by
  induction hs generalizing o with
  | node s hn _ _ ihc ihp =>
    have hspecial : (termsSpecial s.special (s.specialBase o)).map Prod.snd =
        (routesSpecial s.special).map Prod.snd := by
      cases hc : s.special with
      | param p => rw [termsSpecial, routesSpecial, ihp p hc, map_push_snd]
      | _ => rfl
    rw [terms_eq, routes_eq]
    simp only [List.map_append, termsChildren_routes ihc, hspecial, List.map_map]
    rfl

/-- One terminal for each route. -/
theorem terms_length {s : Segment} (hs : s.Sound) (o : Nat) :
    (s.terms o).length = s.routes.length := by
  simpa using congrArg List.length (terms_routes hs o)

/-! ## The stages of one node -/

theorem or_lt {a b : Nat} (ha : a < 65536) (hb : b < 65536) : a ||| b < 65536 :=
  Nat.or_lt_two_pow (n := 16) ha hb

theorem flagBit_lt (b : Bool) {flag : Nat} (h : flag < 65536) : flagBit b flag < 65536 := by
  cases b <;> simp [flagBit, h]

section Stages

variable {L : Libc} {literals params : Symbols} {retain : Bool} {e : Emit}

/-- The node's own cell says how many literals it has, and whether it is terminal. -/
theorem node_stage (retain : Bool) (n : Nat) (terminal : Option Route) (hz : cell e.cells e.cur = 0)
    (hl : e.cur < e.cells.length) (hn : n < 65536) :
    let e' := e.node retain n terminal
    e'.cur = e.cur + 1 ∧ e'.cells.length = e.cells.length ∧
      e'.terminals = appendAll e.terminals (terminal.toList.map fun r => (e.cur, r)) ∧
      ∀ j, cell e'.cells j =
        if j = e.cur then n ||| flagBit terminal.isSome nodeFlagTerminal else cell e.cells j := by
  have hfirst : cell e.cells e.cur ||| n < 65536 := by rw [hz, Nat.zero_or]; exact hn
  cases terminal with
  | none =>
    refine ⟨rfl, by simp [Emit.node], rfl, fun j => ?_⟩
    simp only [Emit.node, or_cells, advance_cells]
    rw [cell_setCell hl hfirst, hz, Nat.zero_or]
    simp [flagBit]
  | some r =>
    refine ⟨rfl, by simp [Emit.node], rfl, fun j => ?_⟩
    have hword : cell (setCell e.cells e.cur (cell e.cells e.cur ||| n)) e.cur = n := by
      rw [cell_setCell hl hfirst, if_pos rfl, hz, Nat.zero_or]
    simp only [Emit.node, terminate_cells, or_cells, advance_cells, hword]
    rw [cell_setCell (by simpa using hl) (or_lt hn (by decide)), cell_setCell hl hfirst]
    split
    · simp [flagBit]
    · rfl

/-- The special edge sets its flag and reserves its cells. -/
theorem specialEdge_stage {i : Nat} {sp : Special Segment} {children : List Segment}
    (hp : params.Ok) (hsp : SpecialOk children sp) (hi : i < e.cur)
    (hroom : e.cur + specialWidth sp ≤ e.cells.length) (hcell : cell e.cells i < 65536) :
    let e' := e.specialEdge L params i sp
    e'.cur = e.cur + specialWidth sp ∧ e'.cells.length = e.cells.length ∧
      e'.terminals = e.terminals ∧
      cell e'.cells i = cell e.cells i ||| flagBit sp.isParam nodeFlagHasParam |||
        flagBit sp.isWildcard nodeFlagHasWildcard ∧
      (∀ p, sp = .param p → cell e'.cells e.cur = params.symbolOf p.label) ∧
      ∀ j, j ≠ i → (j < e.cur ∨ e.cur + specialWidth sp ≤ j) → cell e'.cells j = cell e.cells j := by
  cases sp with
  | none => simp [Emit.specialEdge, specialWidth, flagBit, Special.isParam, Special.isWildcard]
  | paramNull => exact hsp.elim
  | wildcardNull => exact hsp.elim
  | wildcard r =>
    have hword : cell e.cells i ||| nodeFlagHasWildcard < 65536 := or_lt hcell (by decide)
    simp only [specialWidth] at hroom
    have hc (j : Nat) := cell_setCell (g := e.cells) (show i < e.cells.length by omega) hword j
    refine ⟨rfl, by simp [Emit.specialEdge], rfl, ?_, by simp, ?_⟩
    · simp only [Emit.specialEdge, advance_cells, or_cells, hc]
      simp [flagBit, Special.isParam, Special.isWildcard]
    · intro j hj _
      simp only [Emit.specialEdge, advance_cells, or_cells, hc, if_neg hj]
  | param p =>
    obtain ⟨-, hlabel, -⟩ := hsp
    have hsym : symbolResolve L params (p.str.getD []) = params.symbolOf p.label :=
      symbolResolve_eq L hp hlabel.nulFree
    have hword : cell e.cells i ||| nodeFlagHasParam < 65536 := or_lt hcell (by decide)
    simp only [specialWidth] at hroom
    have hc (j : Nat) : cell (e.specialEdge L params i (.param p)).cells j =
        if j = e.cur then params.symbolOf p.label
        else if j = i then cell e.cells i ||| nodeFlagHasParam else cell e.cells j := by
      simp only [Emit.specialEdge, set_cells, advance_cells, or_cells, hsym]
      rw [cell_setCell (by simp; omega) (symbolOf_lt hp _), cell_setCell (by omega) hword]
    refine ⟨rfl, by simp [Emit.specialEdge], rfl, ?_, ?_, ?_⟩
    · rw [hc, if_neg (by omega), if_pos rfl]
      simp [flagBit, Special.isParam, Special.isWildcard]
    · intro q hq
      obtain rfl : p = q := by simpa using hq
      rw [hc, if_pos rfl]
    · intro j hj hr
      simp only [specialWidth] at hr
      rw [hc, if_neg (by omega), if_neg hj]

/-- The trailing edge sets its flag and reserves its cell. -/
theorem trailingEdge_stage {i : Nat} (trailing : Option Route) (hi : i < e.cur)
    (hroom : e.cur ≤ e.cells.length) (hcell : cell e.cells i < 65536) :
    let e' := e.trailingEdge i trailing
    e'.cur = e.cur + trailingWidth trailing ∧ e'.cells.length = e.cells.length ∧
      e'.terminals = e.terminals ∧
      cell e'.cells i = cell e.cells i ||| flagBit trailing.isSome nodeFlagHasTrailing ∧
      ∀ j, j ≠ i → cell e'.cells j = cell e.cells j := by
  cases trailing with
  | none => simp [Emit.trailingEdge, trailingWidth, flagBit]
  | some r =>
    have hword : cell e.cells i ||| nodeFlagHasTrailing < 65536 := or_lt hcell (by decide)
    have hc (j : Nat) := cell_setCell (g := e.cells) (show i < e.cells.length by omega) hword j
    refine ⟨rfl, by simp [Emit.trailingEdge], rfl, ?_, ?_⟩
    · simp only [Emit.trailingEdge, Option.isSome_some, if_true, advance_cells, or_cells, hc]
      simp [flagBit]
    · intro j hj
      simp only [Emit.trailingEdge, Option.isSome_some, if_true, advance_cells, or_cells, hc,
        if_neg hj]

/-- The node's own cells, flags and symbol, written before anything below it. -/
theorem header_stage (retain : Bool) {s : Segment} (hp : params.Ok) (hs : s.NodeOk)
    (hz : cell e.cells e.cur = 0) (hroom : s.literalBase e.cur ≤ e.cells.length) :
    let e₁ := e.node retain s.childCount s.terminal
    let e₂ := e₁.specialEdge L params e.cur s.special
    let e₃ := e₂.trailingEdge e.cur s.trailing
    e₁.cur = e.cur + 1 ∧ e₂.cur = s.trailingEdge e.cur ∧ e₃.cur = s.literalBase e.cur ∧
      e₃.cells.length = e.cells.length ∧
      e₃.terminals = appendAll e.terminals (s.terminal.toList.map fun r => (e.cur, r)) ∧
      cell e₃.cells e.cur = s.word ∧
      (∀ p, s.special = .param p → cell e₃.cells (e.cur + 1) = params.symbolOf p.label) ∧
      ∀ j, j < e.cur ∨ s.literalBase e.cur ≤ j → cell e₃.cells j = cell e.cells j := by
  unfold Segment.literalBase Segment.trailingEdge at hroom ⊢
  have hn : s.childCount < 65536 := by
    have := hs.count_le
    rw [hs.count_eq]
    unfold nodeMaxChildCount at this
    omega
  obtain ⟨hcur₁, hlen₁, hterm₁, hcell₁⟩ := node_stage retain s.childCount s.terminal hz
    (by omega) hn
  have hword₁ : s.childCount ||| flagBit s.terminal.isSome nodeFlagTerminal < 65536 :=
    or_lt hn (flagBit_lt _ (by decide))
  obtain ⟨hcur₂, hlen₂, hterm₂, hword₂, hsym₂, hcell₂⟩ := specialEdge_stage (L := L)
    (e := e.node retain s.childCount s.terminal) (i := e.cur) hp hs.special
    (by omega) (by omega) (by rw [hcell₁, if_pos rfl]; exact hword₁)
  rw [hcell₁, if_pos rfl] at hword₂
  have hword₂' := or_lt (or_lt hword₁ (flagBit_lt s.special.isParam (show nodeFlagHasParam < 65536
    by decide))) (flagBit_lt s.special.isWildcard (show nodeFlagHasWildcard < 65536 by decide))
  obtain ⟨hcur₃, hlen₃, hterm₃, hword₃, hcell₃⟩ := trailingEdge_stage s.trailing
    (e := (e.node retain s.childCount s.terminal).specialEdge L params e.cur s.special)
    (i := e.cur) (by omega) (by omega) (by rw [hword₂]; exact hword₂')
  refine ⟨hcur₁, by omega, by omega, by omega, by rw [hterm₃, hterm₂, hterm₁], ?_, ?_, ?_⟩
  · rw [hword₃, hword₂, Segment.word, hs.count_eq]
  · intro p hp
    rw [hcell₃ _ (by omega), ← hcur₁]
    exact hsym₂ p hp
  · intro j hj
    rw [hcell₃ j (by omega), hcell₂ j (by omega) (by omega), hcell₁, if_neg (by omega)]

/-- The symbols of the literal edges; the cells between them are only reserved. -/
theorem emitSymbols_stage (hl : literals.Ok) {l : List Segment} (hlabel : ∀ c ∈ l, c.Labelled)
    (hroom : e.cur + l.length * 2 ≤ e.cells.length) :
    let e' := emitSymbols L literals l e
    e'.cur = e.cur + l.length * 2 ∧ e'.cells.length = e.cells.length ∧
      e'.terminals = e.terminals ∧
      (∀ i c, l[i]? = some c → cell e'.cells (e.cur + i * 2) = literals.symbolOf c.label) ∧
      ∀ j, j < e.cur ∨ e.cur + l.length * 2 ≤ j → cell e'.cells j = cell e.cells j := by
  induction l generalizing e with
  | nil => simp [emitSymbols]
  | cons c l ih =>
    obtain ⟨hc, hlabel⟩ := List.forall_mem_cons.mp hlabel
    rw [List.length_cons] at hroom
    have hsym : symbolResolve L literals (c.str.getD []) = literals.symbolOf c.label :=
      symbolResolve_eq L hl hc.nulFree
    have hset (j : Nat) := cell_setCell (g := e.cells) (show e.cur < e.cells.length by omega)
      (symbolOf_lt hl c.label) j
    obtain ⟨hcur, hlen, hterm, hsyms, hframe⟩ := ih
      (e := (e.advance 2).set e.cur (symbolResolve L literals (c.str.getD []))) hlabel
      (by simp; omega)
    simp only [set_cur, advance_cur, set_cells, advance_cells, length_setCell, set_terminals,
      advance_terminals, hsym] at hcur hlen hterm hsyms hframe
    simp only [emitSymbols, hsym, List.length_cons]
    refine ⟨by omega, hlen, hterm, ?_, ?_⟩
    · intro i d hd
      cases i with
      | zero =>
        obtain rfl : c = d := by simpa using hd
        rw [hframe _ (by omega), hset, if_pos (by omega)]
      | succ i =>
        rw [show e.cur + (i + 1) * 2 = e.cur + 2 + i * 2 by omega]
        exact hsyms i d hd
    · intro j hj
      rw [hframe j (by omega), hset, if_neg (by omega)]

end Stages

/-! ## The whole tree -/

structure Emit.Room (e : Emit) (n : Nat) : Prop where
  fits : e.cur + n ≤ e.cells.length
  short : e.cur + n ≤ 65535
  zero : ∀ j, e.cur ≤ j → j < e.cur + n → cell e.cells j = 0

/-- The tree was written at the cursor and nowhere else. -/
structure Written (L : Libc) (literals params : Symbols) (s : Segment) (e : Emit)
    (r : Nat × Emit) : Prop where
  offset : r.1 = e.cur
  cur : r.2.cur = e.cur + s.size
  length : r.2.cells.length = e.cells.length
  terminals : r.2.terminals = appendAll e.terminals (s.terms e.cur)
  frame : ∀ j, j < e.cur ∨ e.cur + s.size ≤ j → cell r.2.cells j = cell e.cells j
  encodes : Encodes L literals params r.2.cells s e.cur

section Whole

variable {L : Libc} {literals params : Symbols} {retain : Bool} {e : Emit}

/-- The children are written one after the other, each where its edge says. -/
theorem children_stage (retain : Bool) {l : List Segment} (slot : Nat)
    (ih : ∀ c ∈ l, ∀ e : Emit, e.Room c.size →
      Written L literals params c e (graphCompile L literals params retain c e))
    (hroom : e.Room (sizeChildren l)) (hslot : slot + l.length * 2 ≤ e.cur) :
    let e' := graphCompileChildren L literals params retain l slot e
    e'.cur = e.cur + sizeChildren l ∧ e'.cells.length = e.cells.length ∧
      e'.terminals = appendAll e.terminals (termsChildren l e.cur) ∧
      (∀ i x, (placed e.cur l)[i]? = some x → cell e'.cells (slot + i * 2 + 1) = x.2) ∧
      (∀ x ∈ placed e.cur l, Encodes L literals params e'.cells x.1 x.2) ∧
      ∀ j, (j < e.cur ∨ e.cur + sizeChildren l ≤ j) →
        (∀ i < l.length, j ≠ slot + i * 2 + 1) → cell e'.cells j = cell e.cells j := by
  induction l generalizing e slot with
  | nil => simp [graphCompileChildren, sizeChildren, placed, termsChildren]
  | cons c l ihl =>
    obtain ⟨ihc, ih⟩ := List.forall_mem_cons.mp ih
    rw [List.length_cons] at hslot
    have hfits := hroom.fits
    have hshort := hroom.short
    rw [sizeChildren] at hfits hshort
    have hw := ihc e ⟨by omega, by omega, fun j h1 h2 => hroom.zero j h1 (by rw [sizeChildren]; omega)⟩
    obtain ⟨hoff, hcur, hlen, hterm, hframe, henc⟩ := hw
    generalize hr : graphCompile L literals params retain c e = r at hoff hcur hlen hterm hframe henc
    have hset (j : Nat) := cell_setCell (g := r.2.cells) (i := slot + 1) (v := e.cur)
      (by omega) (by omega) j
    have hroom' : (r.2.set (slot + 1) e.cur).Room (sizeChildren l) := by
      refine ⟨by simp; omega, by simp; omega, fun j h1 h2 => ?_⟩
      simp only [set_cur, hcur] at h1 h2
      rw [set_cells, hset, if_neg (by omega), hframe j (by omega)]
      exact hroom.zero j (by omega) (by rw [sizeChildren]; omega)
    obtain ⟨hcur', hlen', hterm', hoffs, hencs, hframe'⟩ := ihl (slot + 2) ih hroom'
      (by simp; omega)
    simp only [set_cur, set_cells, length_setCell, set_terminals, hcur, hlen, hterm]
      at hcur' hlen' hterm' hoffs hencs hframe'
    simp only [graphCompileChildren, hr, hoff, sizeChildren, List.length_cons, placed, termsChildren]
    refine ⟨by omega, hlen', by rw [hterm', appendAll_append], ?_, ?_, ?_⟩
    · intro i x hx
      cases i with
      | zero =>
        obtain rfl : (c, e.cur) = x := by simpa using hx
        rw [hframe' _ (by omega) (fun i _ => by omega), hset, if_pos (by omega)]
      | succ i =>
        rw [show slot + (i + 1) * 2 + 1 = slot + 2 + i * 2 + 1 by omega]
        exact hoffs i x hx
    · intro x hx
      rcases List.mem_cons.mp hx with rfl | hx
      · refine henc.congr (fun j h1 h2 => ?_)
        rw [hframe' j (by omega) (fun i _ => by omega), hset, if_neg (by omega)]
      · exact hencs x hx
    · intro j hj hne
      have h0 := hne 0 (by omega)
      rw [hframe' j (by omega) (fun i hi => ?_), hset, if_neg (by omega), hframe j (by omega)]
      have := hne (i + 1) (by omega)
      omega

/-- The literal edges, sorted, and the nodes they lead to. -/
theorem literals_stage (retain : Bool) {s : Segment} (hs : s.NodeOk) (hl : literals.Ok)
    (ih : ∀ c ∈ s.children, ∀ e : Emit, e.Room c.size →
      Written L literals params c e (graphCompile L literals params retain c e))
    (hroom : e.Room (s.children.length * 2 + sizeChildren s.children)) :
    let base := e.cur + s.children.length * 2
    let e' := if s.childCount ≠ 0 then
        (graphCompileChildren L literals params retain s.children e.cur
          (emitSymbols L literals s.children e)).sortEdges L e.cur s.childCount
      else e
    e'.cur = base + sizeChildren s.children ∧ e'.cells.length = e.cells.length ∧
      e'.terminals = appendAll e.terminals (termsChildren s.children base) ∧
      readEdges e'.cells e.cur s.children.length = L.qsort edgeCmp
        ((placed base s.children).map fun x => (literals.symbolOf x.1.label, x.2)) ∧
      (∀ x ∈ placed base s.children, Encodes L literals params e'.cells x.1 x.2) ∧
      ∀ j, j < e.cur ∨ base + sizeChildren s.children ≤ j → cell e'.cells j = cell e.cells j := by
  dsimp only
  have hfits := hroom.fits
  have hshort := hroom.short
  by_cases hnil : s.children = []
  · have hq : L.qsort edgeCmp [] = [] := List.perm_nil.mp (L.qsort_perm edgeCmp [])
    simp [hs.count_eq, hnil, sizeChildren, termsChildren, placed, readEdges, hq]
  have hcount : s.childCount ≠ 0 := by
    rw [hs.count_eq]
    simpa using hnil
  obtain ⟨hcur₁, hlen₁, hterm₁, hsyms₁, hframe₁⟩ := emitSymbols_stage (L := L) (e := e) hl
    hs.labelled (by omega)
  obtain ⟨hcur₂, hlen₂, hterm₂, hoffs₂, hencs₂, hframe₂⟩ := children_stage retain e.cur
    (e := emitSymbols L literals s.children e) ih
    ⟨by omega, by omega, fun j h1 h2 => by
      rw [hframe₁ j (by omega)]
      exact hroom.zero j (by omega) (by omega)⟩ (by omega)
  simp only [hcur₁, hlen₁, hterm₁] at hcur₂ hlen₂ hterm₂ hoffs₂ hencs₂ hframe₂
  simp only [hcount, ne_eq, not_false_eq_true, if_true, Emit.sortEdges]
  generalize hg : graphCompileChildren L literals params retain s.children e.cur
    (emitSymbols L literals s.children e) = e₂ at *
  -- before the sort the edges stand in the order of the children
  have hedges : readEdges e₂.cells e.cur s.childCount =
      (placed (e.cur + s.children.length * 2) s.children).map
        fun x => (literals.symbolOf x.1.label, x.2) := by
    have := readEdges_eq e₂.cells e.cur
      (l := (placed (e.cur + s.children.length * 2) s.children).map
        fun x => (literals.symbolOf x.1.label, x.2)) ?_
    · simpa [hs.count_eq] using this
    · intro i p hp
      rw [List.getElem?_map, Option.map_eq_some_iff] at hp
      obtain ⟨x, hx, rfl⟩ := hp
      have hi : i < s.children.length := by
        simpa using (List.getElem?_eq_some_iff.mp hx).1
      refine ⟨?_, hoffs₂ i x hx⟩
      have hchild : s.children[i]? = some x.1 := by
        rw [← placed_fst (e.cur + s.children.length * 2) s.children, List.getElem?_map, hx]
        rfl
      rw [hframe₂ _ (by omega) (fun k _ => by omega)]
      exact hsyms₁ i x.1 hchild
  rw [hedges]
  generalize hsorted : L.qsort edgeCmp ((placed (e.cur + s.children.length * 2) s.children).map
    fun x => (literals.symbolOf x.1.label, x.2)) = sorted
  have hperm := L.qsort_perm edgeCmp ((placed (e.cur + s.children.length * 2) s.children).map
    fun x => (literals.symbolOf x.1.label, x.2))
  rw [hsorted] at hperm
  have hslen : sorted.length = s.children.length := by simpa using hperm.length_eq
  have hbound : ∀ p ∈ sorted, p.1 < 65536 ∧ p.2 < 65536 := by
    intro p hp
    obtain ⟨x, hx, rfl⟩ := List.mem_map.mp (hperm.mem_iff.mp hp)
    obtain ⟨-, -, hhi⟩ := placed_mem hx
    exact ⟨symbolOf_lt hl _, by dsimp only; omega⟩
  obtain ⟨hframe₃, hread₃⟩ := cell_writeEdges (g := e₂.cells) e.cur (l := sorted)
    (by omega) hbound
  refine ⟨hcur₂, by rw [length_writeEdges, hlen₂], hterm₂, ?_, ?_, ?_⟩
  · rw [← hslen]
    exact readEdges_eq _ _ hread₃
  · intro x hx
    obtain ⟨-, hlo, -⟩ := placed_mem hx
    exact (hencs₂ x hx).congr (fun j h1 h2 => hframe₃ j (by omega))
  · intro j hj
    rw [hframe₃ j (by omega), hframe₂ j (by omega) (fun k _ => by omega), hframe₁ j (by omega)]

theorem trailingNode_stage (retain : Bool) (tEdge : Nat) (trailing : Option Route)
    (hroom : e.Room (trailingWidth trailing)) (hedge : trailing.isSome → tEdge < e.cur) :
    let e' := e.trailingNode retain tEdge trailing
    e'.cur = e.cur + trailingWidth trailing ∧ e'.cells.length = e.cells.length ∧
      e'.terminals = appendAll e.terminals (trailing.toList.map fun r => (e.cur, r)) ∧
      (trailing.isSome →
        cell e'.cells tEdge = e.cur ∧ cell e'.cells e.cur = nodeFlagTerminal) ∧
      ∀ j, (trailing.isSome → j ≠ tEdge) → (j < e.cur ∨ e.cur + trailingWidth trailing ≤ j) →
        cell e'.cells j = cell e.cells j := by
  cases trailing with
  | none => simp [Emit.trailingNode, trailingWidth]
  | some r =>
    have hfits := hroom.fits
    have hshort := hroom.short
    simp only [trailingWidth, Option.isSome_some, if_true] at hfits
    have htedge := hedge rfl
    have hz := hroom.zero e.cur (Nat.le_refl _) (by simp [trailingWidth])
    have hc (j : Nat) : cell (e.trailingNode retain tEdge (some r)).cells j =
        if j = tEdge then e.cur else if j = e.cur then nodeFlagTerminal else cell e.cells j := by
      simp only [Emit.trailingNode, terminate_cells, set_cells, or_cells, advance_cells, hz,
        Nat.zero_or]
      rw [cell_setCell (by simp; omega) (by omega), cell_setCell (by omega) (by decide)]
    refine ⟨rfl, by simp [Emit.trailingNode], rfl, ?_, ?_⟩
    · intro _
      rw [hc, hc, if_pos rfl, if_neg (by omega), if_pos rfl]
      exact ⟨rfl, rfl⟩
    · intro j hne hj
      simp only [trailingWidth, Option.isSome_some, if_true] at hj
      rw [hc, if_neg (hne rfl), if_neg (by omega)]

/-- The node of the special edge is written where that edge says. -/
theorem special_stage (literals params : Symbols) (retain : Bool) {sp : Special Segment} (edge : Nat)
    {children : List Segment}
    (hsp : SpecialOk children sp)
    (ih : ∀ p, sp = .param p → ∀ e : Emit, e.Room p.size →
      Written L literals params p e (graphCompile L literals params retain p e))
    (hroom : e.Room (specialNodes sp)) (hedge : edge + specialWidth sp ≤ e.cur) :
    let e' := graphCompileSpecial L literals params retain sp edge e
    e'.cur = e.cur + specialNodes sp ∧ e'.cells.length = e.cells.length ∧
      e'.terminals = appendAll e.terminals (termsSpecial sp e.cur) ∧
      (∀ p, sp = .param p → cell e'.cells (edge + 1) = e.cur ∧
        Encodes L literals params e'.cells p e.cur) ∧
      (∀ r, sp = .wildcard r →
        cell e'.cells edge = e.cur ∧ cell e'.cells e.cur = nodeFlagTerminal) ∧
      ∀ j, (sp.isParam → j ≠ edge + 1) → (sp.isWildcard → j ≠ edge) →
        (j < e.cur ∨ e.cur + specialNodes sp ≤ j) → cell e'.cells j = cell e.cells j := by
  have hfits := hroom.fits
  have hshort := hroom.short
  cases sp with
  | none => simp [graphCompileSpecial, specialNodes, termsSpecial]
  | paramNull => exact hsp.elim
  | wildcardNull => exact hsp.elim
  | wildcard r =>
    simp only [specialNodes] at hfits
    simp only [specialWidth] at hedge
    have hz := hroom.zero e.cur (Nat.le_refl _) (by simp [specialNodes])
    have hc (j : Nat) :
        cell (graphCompileSpecial L literals params retain (.wildcard r) edge e).cells j =
          if j = edge then e.cur else if j = e.cur then nodeFlagTerminal else cell e.cells j := by
      simp only [graphCompileSpecial, terminate_cells, set_cells, or_cells, advance_cells, hz,
        Nat.zero_or]
      rw [cell_setCell (by simp; omega) (by omega), cell_setCell (by omega) (by decide)]
    refine ⟨rfl, by simp [graphCompileSpecial], rfl, by simp, ?_, ?_⟩
    · intro _ _
      rw [hc, hc, if_pos rfl, if_neg (by omega), if_pos rfl]
      exact ⟨rfl, rfl⟩
    · intro j _ hne hj
      simp only [specialNodes] at hj
      rw [hc, if_neg (hne rfl), if_neg (by omega)]
  | param p =>
    simp only [specialNodes] at hfits
    simp only [specialWidth] at hedge
    obtain ⟨hoff, hcur, hlen, hterm, hframe, henc⟩ := ih p rfl e hroom
    have hset (j : Nat) := cell_setCell
      (g := (graphCompile L literals params retain p e).2.cells) (i := edge + 1) (v := e.cur)
      (by omega) (by omega) j
    simp only [graphCompileSpecial, hoff, set_cur, set_cells, set_terminals, length_setCell]
    refine ⟨hcur, hlen, hterm, ?_, by simp, ?_⟩
    · intro q hq
      obtain rfl : p = q := by simpa using hq
      refine ⟨by rw [hset, if_pos rfl], henc.congr (fun j h1 h2 => ?_)⟩
      rw [hset, if_neg (by omega)]
    · intro j hne _ hj
      simp only [specialNodes] at hj
      rw [hset, if_neg (hne rfl), hframe j hj]

theorem graphCompile_eq (s : Segment) (e : Emit) :
    graphCompile L literals params retain s e =
      (let node := e.cur
       let e := e.node retain s.childCount s.terminal
       let edge := e.cur
       let e := e.specialEdge L params node s.special
       let tEdge := e.cur
       let e := e.trailingEdge node s.trailing
       let lEdgeBase := e.cur
       let e := if s.childCount ≠ 0 then
           (graphCompileChildren L literals params retain s.children lEdgeBase
             (emitSymbols L literals s.children e)).sortEdges L lEdgeBase s.childCount
         else e
       let e := graphCompileSpecial L literals params retain s.special edge e
       (node, e.trailingNode retain tEdge s.trailing)) := by
  cases s
  rw [graphCompile]

/-- Compiling a sound tree writes its encoding and appends its terminals. -/
theorem graphCompile_written (retain : Bool) {s : Segment} (hl : literals.Ok) (hp : params.Ok) (hs : s.Sound)
    (e : Emit) (hroom : e.Room s.size) :
    Written L literals params s e (graphCompile L literals params retain s e) := by
  induction hs generalizing e with
  | node s hn _ _ ihc ihp =>
    have hfits := hroom.fits
    have hshort := hroom.short
    have hend := size_end s e.cur
    -- the landmarks of the node, as sums of widths
    have htb : s.trailingBase e.cur = s.specialBase e.cur + specialNodes s.special := rfl
    have hsb : s.specialBase e.cur = s.childBase e.cur + sizeChildren s.children := rfl
    have hcb : s.childBase e.cur = s.literalBase e.cur + s.children.length * 2 := rfl
    have hlb : s.literalBase e.cur = s.trailingEdge e.cur + trailingWidth s.trailing := rfl
    have hte : s.trailingEdge e.cur = e.cur + 1 + specialWidth s.special := rfl
    have hpw : s.special.isParam → specialWidth s.special = 2 := by
      cases s.special <;> simp [Special.isParam, specialWidth]
    have hww : s.special.isWildcard → specialWidth s.special = 1 := by
      cases s.special <;> simp [Special.isWildcard, specialWidth]
    have htw : s.trailing.isSome → trailingWidth s.trailing = 1 := by
      intro ht
      simp [trailingWidth, ht]
    -- the slots that the later stages fill in lie between the node's cell and its literal edges
    have hslots : ∀ j, j ≤ e.cur ∨ s.literalBase e.cur ≤ j →
        (s.special.isParam → j ≠ e.cur + 1 + 1) ∧ (s.special.isWildcard → j ≠ e.cur + 1) ∧
          (s.trailing.isSome → j ≠ s.trailingEdge e.cur) := by
      intro j hj
      refine ⟨fun h => ?_, fun h => ?_, fun h => ?_⟩
      · have := hpw h
        omega
      · have := hww h
        omega
      · have := htw h
        omega
    obtain ⟨hcur₁, hcur₂, hcur₃, hlen₃, hterm₃, hword₃, hsym₃, hframe₃⟩ := header_stage (L := L)
      retain hp hn (hroom.zero e.cur (Nat.le_refl _) (by omega)) (by omega)
    rw [graphCompile_eq]
    dsimp only
    generalize he₁ : e.node retain s.childCount s.terminal = e₁ at *
    generalize he₂ : e₁.specialEdge L params e.cur s.special = e₂ at *
    generalize he₃ : e₂.trailingEdge e.cur s.trailing = e₃ at *
    obtain ⟨hcur₄, hlen₄, hterm₄, hsorted₄, hencs₄, hframe₄⟩ := literals_stage (L := L)
      retain (e := e₃) hn hl ihc ⟨by omega, by omega, fun j h1 h2 => by
        rw [hframe₃ j (by omega)]
        exact hroom.zero j (by omega) (by omega)⟩
    simp only [hcur₃, ← hcb, ← hsb] at hcur₄ hlen₄ hterm₄ hsorted₄ hencs₄ hframe₄
    rw [hcur₁, hcur₂, hcur₃]
    generalize he₄ : (if s.childCount ≠ 0 then
        (graphCompileChildren L literals params retain s.children (s.literalBase e.cur)
          (emitSymbols L literals s.children e₃)).sortEdges L (s.literalBase e.cur) s.childCount
      else e₃) = e₄ at *
    obtain ⟨hcur₅, hlen₅, hterm₅, hparam₅, hwild₅, hframe₅⟩ := special_stage (L := L)
      literals params retain (e.cur + 1) (e := e₄)
      hn.special ihp ⟨by omega, by omega, fun j h1 h2 => by
        rw [hframe₄ j (by omega), hframe₃ j (by omega)]
        exact hroom.zero j (by omega) (by omega)⟩ (by omega)
    generalize he₅ : graphCompileSpecial L literals params retain s.special (e.cur + 1) e₄ = e₅ at *
    obtain ⟨hcur₆, hlen₆, hterm₆, htrail₆, hframe₆⟩ := trailingNode_stage retain
      (s.trailingEdge e.cur) s.trailing (e := e₅)
      ⟨by omega, by omega, fun j h1 h2 => by
        obtain ⟨hparam, hwild, -⟩ := hslots j (by omega)
        rw [hframe₅ j hparam hwild (by omega), hframe₄ j (by omega), hframe₃ j (by omega)]
        exact hroom.zero j (by omega) (by omega)⟩ (fun h => by have := htw h; omega)
    generalize he₆ : e₅.trailingNode retain (s.trailingEdge e.cur) s.trailing = e₆ at *
    -- what the later stages leave alone: everything below the node's last stage but the edges
    have hkeep₅ : ∀ j, (s.trailing.isSome → j ≠ s.trailingEdge e.cur) → j < s.trailingBase e.cur →
        cell e₆.cells j = cell e₅.cells j := fun j hne hj => hframe₆ j hne (by omega)
    have hkeep₄ : ∀ j, j = e.cur ∨ s.literalBase e.cur ≤ j → j < s.specialBase e.cur →
        cell e₆.cells j = cell e₄.cells j := by
      intro j hlo hhi
      obtain ⟨hparam, hwild, htrail⟩ := hslots j (by omega)
      rw [hkeep₅ j htrail (by omega), hframe₅ j hparam hwild (by omega)]
    refine ⟨rfl, by dsimp only; omega, by dsimp only; omega, ?_, ?_, ?_⟩
    · rw [hterm₆, hterm₅, hterm₄, hterm₃, hcur₅, hcur₄, terms_eq]
      simp only [appendAll_append]
      rfl
    · intro j hj
      obtain ⟨hparam, hwild, htrail⟩ := hslots j (by omega)
      rw [hframe₆ j htrail (by omega), hframe₅ j hparam hwild (by omega), hframe₄ j (by omega),
        hframe₃ j (by omega)]
    · refine .node ?_ ?_ ?_ ?_ ?_ ?_ ?_
      · rw [hkeep₄ _ (Or.inl rfl) (by omega), hframe₄ _ (by omega), hword₃]
      · intro p hp
        have hw := hpw (by simp [hp, Special.isParam])
        constructor
        · rw [hkeep₅ _ (fun h => by omega) (by omega), hframe₅ _ (by omega) (fun h => ?_) (by omega),
            hframe₄ _ (by omega), hsym₃ p hp]
          simp [hp, Special.isWildcard] at h
        · rw [hkeep₅ _ (fun h => by omega) (by omega), (hparam₅ p hp).1, hcur₄]
      · intro r hr
        have hw := hww (by simp [hr, Special.isWildcard])
        have hnode : specialNodes s.special = 1 := by simp [hr, specialNodes]
        obtain ⟨hedge, hterminal⟩ := hwild₅ r hr
        rw [hcur₄] at hedge hterminal
        rw [hkeep₅ _ (fun h => by omega) (by omega), hedge,
          hkeep₅ _ (hslots _ (by omega)).2.2 (by omega), hterminal]
        exact ⟨rfl, rfl⟩
      · intro ht
        have hcur : e₅.cur = s.trailingBase e.cur := by rw [hcur₅, hcur₄, htb]
        rw [hcur] at htrail₆
        exact htrail₆ ht
      · rw [readEdges_congr (fun j h1 h2 => hkeep₄ j (by omega) (by omega))]
        exact hsorted₄
      · intro x hx
        obtain ⟨-, hlo, hhi⟩ := placed_mem hx
        exact (hencs₄ x hx).congr (fun j h1 h2 => hkeep₄ j (by omega) (by omega))
      · intro p hp
        have hsize : specialNodes s.special = p.size := by simp [hp, specialNodes]
        have hw := hpw (by simp [hp, Special.isParam])
        rw [← hcur₄]
        exact (hparam₅ p hp).2.congr (fun j h1 h2 => hkeep₅ j (hslots j (by omega)).2.2 (by omega))

/-- Into an empty dictionary with room for the routes, exactly the terminals are written. -/
theorem Written.terminals_hold {s : Segment} (hs : s.Sound) (hsize : s.size ≤ 65535)
    {r : Nat × Emit} (hw : Written L literals params s e r) (hcur : e.cur = 0) {n : Nat}
    {refs base : Block} (hfresh : e.terminals = ⟨some ⟨refs, List.replicate n 0⟩,
      some ⟨base, List.replicate n ⟨0, 0⟩⟩, 0⟩) (hn : n = s.routes.length) (hle : n ≤ 65535) :
    r.2.terminals.Holds n (s.terms 0) := by
  have hholds := appendAll_holds (l := s.terms 0) (terminals_holds_nil refs base hle)
    (by simp [terms_length hs, hn]) (fun x hx => by
      have := terms_range hs 0 x hx
      omega)
  rw [hw.terminals, hfresh, hcur]
  simpa using hholds

end Whole

/-! ## The compiled router -/

/-- The router has the tree in its graph at the offset, its terminals in the dictionary
and its strings in the symbols. -/
structure Packed (L : Libc) (router : Router) (g : List Nat) (s : Segment) (o : Nat) : Prop where
  sound : s.Sound
  encodes : Encodes L router.literals router.params g s o
  terms : ∀ x ∈ s.terms o, terminalLookup router.terminals x.1 = some x.2
  literals : ∀ e ∈ s.routes, ∀ x, Tok.literal x ∈ e.1 → x ∈ router.literals.texts
  params : ∀ e ∈ s.routes, ∀ x, Tok.param x ∈ e.1 → x ∈ router.params.texts

variable {L : Libc} {router : Router} {g : List Nat} {s : Segment} {o : Nat}

theorem termsChildren_mem {l : List Segment} {b : Nat} {x : Segment × Nat} (hx : x ∈ placed b l) :
    ∀ y ∈ x.1.terms x.2, y ∈ termsChildren l b := by
  induction l generalizing b with
  | nil => simp [placed] at hx
  | cons c l ih =>
    intro y hy
    rw [termsChildren, List.mem_append]
    rcases List.mem_cons.mp hx with rfl | hx
    · exact Or.inl hy
    · exact Or.inr (ih hx y hy)

/-- A child of a packed node is packed at its place. -/
theorem Packed.child (h : Packed L router g s o) {x : Segment × Nat}
    (hx : x ∈ placed (s.childBase o) s.children) : Packed L router g x.1 x.2 := by
  obtain ⟨hmem, -, -⟩ := placed_mem hx
  have hroutes : ∀ e ∈ x.1.routes, push (.literal x.1.label) e ∈ s.routes :=
    fun e he => mem_routes.mpr (Or.inr (Or.inl ⟨x.1, hmem, e, he, rfl⟩))
  refine ⟨h.sound.child hmem, ?_, ?_, ?_, ?_⟩
  · cases h.encodes with
    | node _ _ _ _ _ hc _ => exact hc x hx
  · intro y hy
    refine h.terms y ?_
    rw [terms_eq]
    simp only [List.mem_append]
    exact Or.inl (Or.inl (Or.inr (termsChildren_mem hx y hy)))
  · exact fun e he z hz => h.literals _ (hroutes e he) z (List.mem_cons_of_mem _ hz)
  · exact fun e he z hz => h.params _ (hroutes e he) z (List.mem_cons_of_mem _ hz)

/-- So is the parameter's node. -/
theorem Packed.param (h : Packed L router g s o) {p : Segment} (hp : s.special = .param p) :
    Packed L router g p (s.specialBase o) := by
  have hroutes : ∀ e ∈ p.routes, push (.param p.label) e ∈ s.routes := by
    intro e he
    exact mem_routes.mpr (Or.inr (Or.inr (Or.inl
      (mem_routesSpecial.mpr (Or.inl ⟨p, hp, e, he, rfl⟩)))))
  refine ⟨h.sound.param hp, ?_, ?_, ?_, ?_⟩
  · cases h.encodes with
    | node _ _ _ _ _ _ hb => exact hb p hp
  · intro y hy
    refine h.terms y ?_
    rw [terms_eq, hp]
    simp only [List.mem_append]
    exact Or.inl (Or.inr hy)
  · exact fun e he z hz => h.literals _ (hroutes e he) z (List.mem_cons_of_mem _ hz)
  · exact fun e he z hz => h.params _ (hroutes e he) z (List.mem_cons_of_mem _ hz)

/-- The graph of a compiled router was written from its first cell, into memory of the
counted sizes. -/
theorem written_of_compiled {builder : Builder} {added : List Entry} (hb : builder.Holds added)
    (h : CompiledFrom L builder router) : ∃ (block refs base : Block) (w : World),
    let e : Emit := ⟨List.replicate router.graphSize 0,
      ⟨some ⟨refs, List.replicate router.numRoutes 0⟩,
        some ⟨base, List.replicate router.numRoutes ⟨0, 0⟩⟩, 0⟩, 0, w⟩
    let r := graphCompile L router.literals router.params builder.retain builder.root e
    router.graph = some ⟨block, r.2.cells⟩ ∧ router.terminals = r.2.terminals ∧
      router.graphSize = builder.root.size ∧
      Written L router.literals router.params builder.root e r := by
  obtain ⟨w, w', hl⟩ := h.literals
  obtain ⟨v, v', hp⟩ := h.params
  obtain ⟨block, refs, base, u, hgraph, hterm⟩ := h.graph
  have hsize : router.graphSize = builder.root.size := by
    rw [h.graphSize, graphStats_zero hb.sound]
  refine ⟨block, refs, base, u, hgraph, hterm, hsize, graphCompile_written builder.retain
    (symbolCompile_ok hb.literalsOk hl).1 (symbolCompile_ok hb.paramsOk hp).1 hb.sound _ ?_⟩
  refine ⟨by simp [hsize], by simpa [← hsize] using h.size_le, fun j _ hj => ?_⟩
  simp [cell, List.getD_eq_getElem?_getD, List.getElem?_replicate]
  split <;> rfl

/-- Its dictionary holds the terminals of the tree, and nothing else. -/
theorem terminals_of_compiled {builder : Builder} {added : List Entry} (hb : builder.Holds added)
    (h : CompiledFrom L builder router) :
    router.terminals.Holds router.numRoutes (builder.root.terms 0) := by
  obtain ⟨block, refs, base, w, -, hterm, hsize, hw⟩ := written_of_compiled hb h
  rw [hterm]
  refine hw.terminals_hold hb.sound (hsize ▸ h.size_le) rfl rfl ?_ h.terminals_le
  rw [h.numRoutes, graphStats_zero hb.sound]

/-- A compiled router packs its builder's tree. -/
theorem packed_of_compiled {builder : Builder} {added : List Entry} (hb : builder.Holds added)
    (h : CompiledFrom L builder router) : ∃ block g, router.graph = some ⟨block, g⟩ ∧
      g.length = builder.root.size ∧ router.literals.Ok ∧ router.params.Ok ∧
      Packed L router g builder.root 0 := by
  obtain ⟨w, w', hl⟩ := h.literals
  obtain ⟨v, v', hp⟩ := h.params
  obtain ⟨hlok, hlperm⟩ := symbolCompile_ok hb.literalsOk hl
  obtain ⟨hpok, hpperm⟩ := symbolCompile_ok hb.paramsOk hp
  obtain ⟨block, refs, base, u, hgraph, -, hsize, hw⟩ := written_of_compiled hb h
  refine ⟨block, _, hgraph, by rw [hw.length]; simp [hsize], hlok, hpok, hb.sound, hw.encodes,
    ?_, ?_, ?_⟩
  · exact fun x hx => terminalLookup_of_mem (terminals_of_compiled hb h)
      (terms_sorted hb.sound 0) hx
  · intro e he x hx
    exact hlperm.mem_iff.mpr ((hb.literals x).mpr ⟨e, hb.routes.mem_iff.mp he, hx⟩)
  · intro e he x hx
    exact hpperm.mem_iff.mpr ((hb.params x).mpr ⟨e, hb.routes.mem_iff.mp he, hx⟩)

end Wrouter
