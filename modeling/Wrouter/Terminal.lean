import Wrouter.Token
import Wrouter.Lib.Search

/-!
# Terminal dictionary

Two arrays side by side: the offsets of terminating nodes, and their routes. The
offsets are appended in increasing order, which the lookup relies on.
-/
namespace Wrouter

structure Terminals where
  refs : Option (Ptr (List Nat))
  base : Option (Ptr (List Route))
  count : Nat
  deriving DecidableEq, Repr

def Terminals.zero : Terminals := ⟨none, none, 0⟩

def Terminals.refsData (t : Terminals) : List Nat := (t.refs.map Ptr.data).getD []
def Terminals.baseData (t : Terminals) : List Route := (t.base.map Ptr.data).getD []

def terminalsFree (t : Terminals) (w : World) : World :=
  (w.free (t.base.map Ptr.block)).free (t.refs.map Ptr.block)

/-- False on failure; what was allocated is freed, but the fields keep their pointers. -/
def terminalAlloc (t : Terminals) (n : Nat) (w : World) : Bool × Terminals × World :=
  match w.malloc (n * 2) with
  | (none, w) => (false, { t with refs := none }, terminalsFree { t with refs := none } w)
  | (some b, w) =>
    let t := { t with refs := some ⟨b, List.replicate n 0⟩ }
    match w.malloc (n * 16) with
    | (none, w) => (false, { t with base := none }, terminalsFree { t with base := none } w)
    | (some b, w) => (true, { t with base := some ⟨b, List.replicate n ⟨0, 0⟩⟩ }, w)

def terminalAppend (t : Terminals) (ref : Nat) (route : Route) : Terminals :=
  { refs := t.refs.map (fun p => { p with data := p.data.set t.count (u16 ref) })
    base := t.base.map (fun p => { p with data := p.data.set t.count route })
    count := u16 (t.count + 1) }

/-- Binary search above 16 entries, a linear scan up to it. -/
def terminalLookup (t : Terminals) (ref : Nat) : Option Route :=
  match Search.search 16 (fun i => t.refsData.getD i 0) ref t.count with
  | some i => t.baseData[i]?
  | none => none

/-! ## The dictionary as a list of pairs -/

def appendAll (t : Terminals) (l : List (Nat × Route)) : Terminals :=
  l.foldl (fun t x => terminalAppend t x.1 x.2) t

@[simp] theorem appendAll_nil (t : Terminals) : appendAll t [] = t := rfl

@[simp] theorem appendAll_append (t : Terminals) (l m : List (Nat × Route)) :
    appendAll t (l ++ m) = appendAll (appendAll t l) m := List.foldl_append

@[simp] theorem appendAll_singleton (t : Terminals) (x : Nat × Route) :
    appendAll t [x] = terminalAppend t x.1 x.2 := rfl

structure Terminals.Holds (t : Terminals) (cap : Nat) (ts : List (Nat × Route)) : Prop where
  count : t.count = ts.length
  le : ts.length ≤ cap
  short : cap ≤ 65535
  refsLength : t.refsData.length = cap
  baseLength : t.baseData.length = cap
  refs : ∀ (i : Nat) (x : Nat × Route), ts[i]? = some x → t.refsData.getD i 0 = x.1
  base : ∀ (i : Nat) (x : Nat × Route), ts[i]? = some x → t.baseData[i]? = some x.2

theorem refsData_append (t : Terminals) (ref : Nat) (route : Route) :
    (terminalAppend t ref route).refsData = t.refsData.set t.count (u16 ref) := by
  obtain ⟨refs, base, count⟩ := t
  cases refs <;> rfl

theorem baseData_append (t : Terminals) (ref : Nat) (route : Route) :
    (terminalAppend t ref route).baseData = t.baseData.set t.count route := by
  obtain ⟨refs, base, count⟩ := t
  cases base <;> rfl

/-- An appended pair comes last. -/
theorem terminalAppend_holds {t : Terminals} {cap ref : Nat} {ts : List (Nat × Route)}
    (route : Route) (h : t.Holds cap ts) (hcap : ts.length < cap) (href : ref < 65536) :
    (terminalAppend t ref route).Holds cap (ts ++ [(ref, route)]) := by
  have hshort := h.short
  have hrl := h.refsLength
  have hbl := h.baseLength
  have hcount := h.count
  refine ⟨?_, by simp; omega, hshort, ?_, ?_, ?_, ?_⟩
  · simp only [terminalAppend, hcount, List.length_append, List.length_singleton]
    exact u16_eq (by omega)
  · rw [refsData_append, List.length_set, hrl]
  · rw [baseData_append, List.length_set, hbl]
  · intro i x hx
    rw [refsData_append, List.getD_eq_getElem?_getD, List.getElem?_set, hcount, u16_eq href]
    by_cases hi : i < ts.length
    · rw [if_neg (by omega), ← List.getD_eq_getElem?_getD]
      exact h.refs i x (by simpa [List.getElem?_append_left hi] using hx)
    · obtain rfl : i = ts.length := by
        have := (List.getElem?_eq_some_iff.mp hx).1
        simp at this
        omega
      obtain rfl : (ref, route) = x := by simpa using hx
      rw [if_pos rfl, hrl, if_pos hcap, Option.getD_some]
  · intro i x hx
    rw [baseData_append, List.getElem?_set, hcount]
    by_cases hi : i < ts.length
    · rw [if_neg (by omega)]
      exact h.base i x (by simpa [List.getElem?_append_left hi] using hx)
    · obtain rfl : i = ts.length := by
        have := (List.getElem?_eq_some_iff.mp hx).1
        simp at this
        omega
      obtain rfl : (ref, route) = x := by simpa using hx
      rw [if_pos rfl, hbl, if_pos hcap]

/-- So do pairs that are appended one after the other. -/
theorem appendAll_holds {t : Terminals} {cap : Nat} {ts l : List (Nat × Route)}
    (h : t.Holds cap ts) (hcap : ts.length + l.length ≤ cap) (hl : ∀ x ∈ l, x.1 < 65536) :
    (appendAll t l).Holds cap (ts ++ l) := by
  induction l generalizing t ts with
  | nil => simpa using h
  | cons x l ih =>
    obtain ⟨hx, hl⟩ := List.forall_mem_cons.mp hl
    rw [List.length_cons] at hcap
    have := ih (terminalAppend_holds x.2 h (by omega) hx) (by simp; omega) hl
    rw [List.append_assoc, List.singleton_append] at this
    exact this

/-- The freshly allocated dictionary holds nothing yet. -/
theorem terminals_holds_nil (refs base : Block) {n : Nat} (hn : n ≤ 65535) :
    Terminals.Holds ⟨some ⟨refs, List.replicate n 0⟩, some ⟨base, List.replicate n ⟨0, 0⟩⟩, 0⟩
      n [] :=
  ⟨rfl, Nat.zero_le _, hn, by simp [Terminals.refsData], by simp [Terminals.baseData], by simp,
    by simp⟩

/-- The routes of the dictionary, in its order. -/
theorem Terminals.Holds.routes {t : Terminals} {cap : Nat} {ts : List (Nat × Route)}
    (h : t.Holds cap ts) : t.baseData.take t.count = ts.map Prod.snd := by
  refine List.ext_getElem? (fun i => ?_)
  rw [List.getElem?_take, h.count, List.getElem?_map]
  split
  · rename_i hi
    rw [List.getElem?_eq_getElem hi]
    exact h.base i _ (List.getElem?_eq_getElem hi)
  · rename_i hi
    rw [List.getElem?_eq_none (Nat.le_of_not_lt hi)]
    rfl

/-- What the lookup finds is one of the dictionary's routes. -/
theorem terminalLookup_mem {t : Terminals} {ref : Nat} {route : Route}
    (h : terminalLookup t ref = some route) : route ∈ t.baseData.take t.count := by
  unfold terminalLookup at h
  split at h
  · rename_i i hsearch
    have hi := (Search.search_some hsearch).1
    rw [List.mem_iff_getElem?]
    exact ⟨i, by rw [List.getElem?_take, if_pos hi, h]⟩
  · simp at h

/-- In increasing order of offsets, the lookup finds every pair. -/
theorem terminalLookup_of_mem {t : Terminals} {cap ref : Nat} {ts : List (Nat × Route)}
    {route : Route} (h : t.Holds cap ts) (hs : ts.Pairwise (fun x y => x.1 < y.1))
    (hmem : (ref, route) ∈ ts) : terminalLookup t ref = some route := by
  have hinc : Search.Increasing (fun i => t.refsData.getD i 0) t.count := by
    intro i j hij hj
    rw [h.count] at hj
    have hi : i < ts.length := by omega
    dsimp only
    rw [h.refs i _ (List.getElem?_eq_getElem hi), h.refs j _ (List.getElem?_eq_getElem hj)]
    exact List.pairwise_iff_getElem.mp hs i j hi hj hij
  obtain ⟨i, hi⟩ := List.getElem?_of_mem hmem
  have hlt := (List.getElem?_eq_some_iff.mp hi).1
  have hfound := (Search.search_eq_some hinc 16 (x := ref) i).mpr
    ⟨by rw [h.count]; exact hlt, h.refs i _ hi⟩
  rw [terminalLookup, hfound]
  exact h.base i _ hi

end Wrouter
