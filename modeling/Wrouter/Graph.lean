import Wrouter.Segment
import Wrouter.Terminal

/-!
# Graph

The route tree is packed into one array of 16-bit cells. A node is a cell with
its number of literal children in the low 12 bits and four flags above them; its
edges follow it, and the nodes they lead to come after.
-/
namespace Wrouter

open CLib

def nodeLiteralsMask : Nat := 2 ^ 12 - 1
def nodeFlagTerminal : Nat := 2 ^ 12
def nodeFlagHasParam : Nat := 2 ^ 13
def nodeFlagHasWildcard : Nat := 2 ^ 14
def nodeFlagHasTrailing : Nat := 2 ^ 15

structure GraphStats where
  terminals : Nat
  size : Nat
  paramDepth : Nat
  maxParams : Nat
  deriving DecidableEq, Repr

def GraphStats.zero : GraphStats := ⟨0, 0, 0, 0⟩

mutual
def graphStats : Segment → GraphStats → GraphStats
  | ⟨_, children, _, terminal, trailing, special, childCount, _⟩, st =>
    let st := { st with size := st.size + 1 }
    let st := if terminal.isSome then { st with terminals := st.terminals + 1 } else st
    let st := if trailing.isSome then
      { st with terminals := st.terminals + 1, size := st.size + 2 } else st
    let st := graphStatsSpecial special st
    let st := { st with size := st.size + 2 * childCount }
    graphStatsChildren children st

def graphStatsSpecial : Special Segment → GraphStats → GraphStats
  | .param p, st =>
    let st := { st with size := st.size + 2, paramDepth := st.paramDepth + 1 }
    let st := if st.paramDepth > st.maxParams then { st with maxParams := st.maxParams + 1 } else st
    let st := graphStats p st
    { st with paramDepth := st.paramDepth - 1 }
  | .wildcard _, st =>
    let st := { st with size := st.size + 2, terminals := st.terminals + 1 }
    if st.paramDepth ≥ st.maxParams then { st with maxParams := st.maxParams + 1 } else st
  | .wildcardNull, st =>
    let st := { st with size := st.size + 2, terminals := st.terminals + 1 }
    if st.paramDepth ≥ st.maxParams then { st with maxParams := st.maxParams + 1 } else st
  | .paramNull, st => st
  | .none, st => st

def graphStatsChildren : List Segment → GraphStats → GraphStats
  | [], st => st
  | child :: rest, st => graphStatsChildren rest (graphStats child st)
end

def cell (g : List Nat) (i : Nat) : Nat := g.getD i 0
def setCell (g : List Nat) (i v : Nat) : List Nat := g.set i (u16 v)

structure Emit where
  cells : List Nat
  terminals : Terminals
  cur : Nat
  world : World
  deriving DecidableEq, Repr

/-- `(*pcur)++`, `n` times. -/
def Emit.advance (e : Emit) (n : Nat) : Emit := { e with cur := e.cur + n }

def Emit.set (e : Emit) (i v : Nat) : Emit := { e with cells := setCell e.cells i v }

/-- `*node |= bits`. -/
def Emit.or (e : Emit) (i bits : Nat) : Emit := e.set i (cell e.cells i ||| bits)

/-- `terminal_append` and `router_retain`. -/
def Emit.terminate (e : Emit) (retain : Bool) (ref : Nat) (route : Route) : Emit :=
  { e with terminals := terminalAppend e.terminals ref route
           world := e.world.retain retain route.ctx }

def edgeCmp (a b : Nat × Nat) : Int :=
  if a.1 < b.1 then -1 else if a.1 > b.1 then 1 else 0

/-- The `n` pairs of cells from `base` on. -/
def readEdges (g : List Nat) (base : Nat) : Nat → List (Nat × Nat)
  | 0 => []
  | n + 1 => (cell g base, cell g (base + 1)) :: readEdges g (base + 2) n

def writeEdges (g : List Nat) (base : Nat) : List (Nat × Nat) → List Nat
  | [] => g
  | p :: rest => writeEdges (setCell (setCell g base p.1) (base + 1) p.2) (base + 2) rest

/-- `qsort(l_edge_base, child_count, 2 * sizeof(uint16_t), edge_cmp)`. -/
def Emit.sortEdges (L : Libc) (e : Emit) (base n : Nat) : Emit :=
  { e with cells := writeEdges e.cells base (L.qsort edgeCmp (readEdges e.cells base n)) }

/-- Reserve two cells for each child and store its symbol in the first. -/
def emitSymbols (L : Libc) (literals : Symbols) : List Segment → Emit → Emit
  | [], e => e
  | child :: rest, e =>
    let sym := e.cur
    emitSymbols L literals rest
      ((e.advance 2).set sym (symbolResolve L literals (child.str.getD [])))

/-- The node's own cell: the number of its literals, and the terminal flag. -/
def Emit.node (e : Emit) (retain : Bool) (childCount : Nat) (terminal : Option Route) : Emit :=
  let node := e.cur
  let e := (e.advance 1).or node childCount
  match terminal with
  | some route => (e.or node nodeFlagTerminal).terminate retain node route
  | none => e

/-- The flag and the cells of the special edge; a parameter's symbol is stored at once. -/
def Emit.specialEdge (L : Libc) (params : Symbols) (e : Emit) (node : Nat) :
    Special Segment → Emit
  | .param p =>
    let pSym := e.cur
    ((e.or node nodeFlagHasParam).advance 2).set pSym (symbolResolve L params (p.str.getD []))
  | .wildcard _ => (e.or node nodeFlagHasWildcard).advance 1
  | .wildcardNull => (e.or node nodeFlagHasWildcard).advance 1
  | .paramNull => e
  | .none => e

def Emit.trailingEdge (e : Emit) (node : Nat) (trailing : Option Route) : Emit :=
  if trailing.isSome then (e.or node nodeFlagHasTrailing).advance 1 else e

/-- The node a trailing slash leads to, and the edge that leads there. -/
def Emit.trailingNode (e : Emit) (retain : Bool) (tEdge : Nat) : Option Route → Emit
  | some route =>
    let tNode := e.cur
    (((e.advance 1).or tNode nodeFlagTerminal).set tEdge tNode).terminate retain tNode route
  | none => e

mutual
/-- The offset of the node, and what was written for its whole subtree. The special
edge and the trailing edge take their cells before the literal edges. -/
def graphCompile (L : Libc) (literals params : Symbols) (retain : Bool) :
    Segment → Emit → Nat × Emit
  | ⟨_, children, _, terminal, trailing, special, childCount, _⟩, e =>
    let node := e.cur
    let e := e.node retain childCount terminal
    let edge := e.cur
    let e := e.specialEdge L params node special
    let tEdge := e.cur
    let e := e.trailingEdge node trailing
    let lEdgeBase := e.cur
    let e := if childCount ≠ 0 then
        (graphCompileChildren L literals params retain children lEdgeBase
          (emitSymbols L literals children e)).sortEdges L lEdgeBase childCount
      else e
    let e := graphCompileSpecial L literals params retain special edge e
    (node, e.trailingNode retain tEdge trailing)

/-- The parameter's subtree or the wildcard's node, and the edge that leads there. -/
def graphCompileSpecial (L : Libc) (literals params : Symbols) (retain : Bool) :
    Special Segment → Nat → Emit → Emit
  | .param p, edge, e =>
    let r := graphCompile L literals params retain p e
    r.2.set (edge + 1) r.1
  | .wildcard route, edge, e =>
    let wNode := e.cur
    (((e.advance 1).or wNode nodeFlagTerminal).set edge wNode).terminate retain wNode route
  | .wildcardNull, _, e => e
  | .paramNull, _, e => e
  | .none, _, e => e

/-- Recurse into the literal nodes and save their offsets beside their symbols. -/
def graphCompileChildren (L : Libc) (literals params : Symbols) (retain : Bool) :
    List Segment → Nat → Emit → Emit
  | [], _, e => e
  | child :: rest, slot, e =>
    let r := graphCompile L literals params retain child e
    graphCompileChildren L literals params retain rest (slot + 2) (r.2.set (slot + 1) r.1)
end

/-! ## Cells -/

@[simp] theorem length_setCell (g : List Nat) (i v : Nat) : (setCell g i v).length = g.length :=
  List.length_set

theorem cell_setCell {g : List Nat} {i v : Nat} (hi : i < g.length) (hv : v < 65536) (j : Nat) :
    cell (setCell g i v) j = if j = i then v else cell g j := by
  unfold cell setCell
  rw [List.getD_eq_getElem?_getD, List.getD_eq_getElem?_getD, List.getElem?_set, u16_eq hv]
  by_cases h : i = j
  · subst h
    simp [hi]
  · rw [if_neg h, if_neg (Ne.symm h)]

section Emit

variable (e : Emit) (i v n : Nat)

@[simp] theorem advance_cells : (e.advance n).cells = e.cells := rfl
@[simp] theorem advance_cur : (e.advance n).cur = e.cur + n := rfl
@[simp] theorem advance_terminals : (e.advance n).terminals = e.terminals := rfl
@[simp] theorem set_cells : (e.set i v).cells = setCell e.cells i v := rfl
@[simp] theorem set_cur : (e.set i v).cur = e.cur := rfl
@[simp] theorem set_terminals : (e.set i v).terminals = e.terminals := rfl
@[simp] theorem or_cells : (e.or i v).cells = setCell e.cells i (cell e.cells i ||| v) := rfl
@[simp] theorem or_cur : (e.or i v).cur = e.cur := rfl
@[simp] theorem or_terminals : (e.or i v).terminals = e.terminals := rfl

variable (retain : Bool) (route : Route)

@[simp] theorem terminate_cells : (e.terminate retain i route).cells = e.cells := rfl
@[simp] theorem terminate_cur : (e.terminate retain i route).cur = e.cur := rfl
@[simp] theorem terminate_terminals :
    (e.terminate retain i route).terminals = terminalAppend e.terminals i route := rfl

end Emit

/-- Pairs that stand in the cells are what the edges read as. -/
theorem readEdges_eq (g : List Nat) (base : Nat) {l : List (Nat × Nat)}
    (h : ∀ i p, l[i]? = some p → cell g (base + i * 2) = p.1 ∧ cell g (base + i * 2 + 1) = p.2) :
    readEdges g base l.length = l := by
  induction l generalizing base with
  | nil => rfl
  | cons p l ih =>
    obtain ⟨h1, h2⟩ := h 0 p rfl
    simp only [Nat.zero_mul, Nat.add_zero] at h1 h2
    rw [List.length_cons, readEdges, h1, h2]
    congr 1
    refine ih (base + 2) (fun i q hq => ?_)
    have := h (i + 1) q hq
    rwa [Nat.succ_mul, Nat.add_comm (i * 2) 2, ← Nat.add_assoc] at this

@[simp] theorem length_readEdges (g : List Nat) (base n : Nat) :
    (readEdges g base n).length = n := by
  induction n generalizing base with
  | zero => rfl
  | succ n ih => simp [readEdges, ih]

theorem readEdges_getElem? (g : List Nat) (base : Nat) {n i : Nat} (hi : i < n) :
    (readEdges g base n)[i]? = some (cell g (base + i * 2), cell g (base + i * 2 + 1)) := by
  induction n generalizing base i with
  | zero => omega
  | succ n ih =>
    cases i with
    | zero => simp [readEdges]
    | succ i =>
      rw [readEdges, List.getElem?_cons_succ, ih (base + 2) (by omega)]
      simp only [Nat.succ_mul, Nat.add_comm (i * 2) 2, ← Nat.add_assoc]

@[simp] theorem length_writeEdges (g : List Nat) (base : Nat) (l : List (Nat × Nat)) :
    (writeEdges g base l).length = g.length := by
  induction l generalizing g base with
  | nil => rfl
  | cons p l ih => simp [writeEdges, ih]

/-- Writing edges changes their cells only. -/
theorem cell_writeEdges {g : List Nat} (base : Nat) {l : List (Nat × Nat)}
    (hroom : base + l.length * 2 ≤ g.length) (hl : ∀ p ∈ l, p.1 < 65536 ∧ p.2 < 65536) :
    (∀ j, j < base ∨ base + l.length * 2 ≤ j → cell (writeEdges g base l) j = cell g j) ∧
      ∀ i p, l[i]? = some p → cell (writeEdges g base l) (base + i * 2) = p.1 ∧
        cell (writeEdges g base l) (base + i * 2 + 1) = p.2 := by
  induction l generalizing g base with
  | nil => simp [writeEdges]
  | cons p l ih =>
    obtain ⟨⟨h1, h2⟩, hl⟩ := List.forall_mem_cons.mp hl
    rw [List.length_cons] at hroom
    obtain ⟨hframe, hread⟩ := ih (g := setCell (setCell g base p.1) (base + 1) p.2)
      (base + 2) (by simp; omega) hl
    have hcell (j : Nat) : cell (setCell (setCell g base p.1) (base + 1) p.2) j =
        if j = base + 1 then p.2 else if j = base then p.1 else cell g j := by
      rw [cell_setCell (by simp; omega) h2, cell_setCell (by omega) h1]
    constructor
    · intro j hj
      rw [List.length_cons] at hj
      rw [writeEdges, hframe j (by omega), hcell, if_neg (by omega), if_neg (by omega)]
    · intro i q hq
      cases i with
      | zero =>
        obtain rfl : p = q := by simpa using hq
        rw [writeEdges, hframe _ (by omega), hframe _ (by omega), hcell, hcell]
        simp
      | succ i =>
        have := hread i q hq
        rw [writeEdges, show base + (i + 1) * 2 = base + 2 + i * 2 by omega]
        exact this

end Wrouter
