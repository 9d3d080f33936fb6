import Wrouter.Cleanup
import Wrouter.Lib.Ledger

/-!
# The builder on the heap

The tree, the tables and the arenas once more, with the block behind every pointer, so that
the functions which free them can be written down. Forgetting the blocks gives the builder
without them, call by call.
-/
namespace Wrouter

open CLib Machine Ownership

/-! ## Arenas and tables -/

structure HeapBlock where
  header : Block
  base : Block
  used : Nat
  size : Nat
  deriving DecidableEq, Repr

structure HeapArena where
  blocks : List HeapBlock
  tail : Option Nat
  deriving DecidableEq, Repr

def HeapArena.empty : HeapArena := ⟨[], none⟩

def HeapBlock.erase (b : HeapBlock) : ArenaBlock := ⟨b.base.addr, b.used, b.size⟩

def HeapArena.erase (a : HeapArena) : Arena := ⟨a.blocks.map HeapBlock.erase, a.tail⟩

def heapNewBlock (minSize : Nat) (w : World) : Option HeapBlock × World :=
  let size := if minSize > arenaBlockSize then minSize else arenaBlockSize
  match w.malloc 1 with
  | (none, w) => (none, w)
  | (some header, w) =>
    match w.malloc size with
    | (none, w) => (none, w.free (some header))
    | (some base, w) => (some ⟨header, base, 0, size⟩, w)

def heapArenaLoop (size align : Nat) :
    Nat → Nat → HeapArena → World → Option Nat × HeapArena × World
  | 0, _, a, w => (none, a, w)
  | fuel + 1, b, a, w =>
    match a.blocks[b]? with
    | none => (none, a, w)
    | some blk =>
      let base := addWord 64 blk.base.addr blk.used
      let aligned := alignWord 64 base align
      let padding := subWord 64 aligned base
      let total := addWord 64 padding size
      let used := addWord 64 blk.used total
      if used ≤ blk.size then
        (some aligned, { a with blocks := a.blocks.set b { blk with used := used } }, w)
      else if b + 1 < a.blocks.length then heapArenaLoop size align fuel (b + 1) a w
      else
        match heapNewBlock (subWord 64 (addWord 64 size align) 1) w with
        | (none, w) => (none, a, w)
        | (some blk, w) => heapArenaLoop size align fuel (b + 1) ⟨a.blocks ++ [blk], some (b + 1)⟩ w

def heapArenaAlloc (a : HeapArena) (length : Nat) (w : World) : Option Nat × HeapArena × World :=
  match a.blocks with
  | [] =>
    match heapNewBlock (subWord 64 (addWord 64 length 1) 1) w with
    | (none, w) => (none, .empty, w)
    | (some blk, w) => heapArenaLoop length 1 (a.blocks.length + 2) 0 ⟨[blk], some 0⟩ w
  | _ :: _ => heapArenaLoop length 1 (a.blocks.length + 2) (a.tail.getD 0) a w

/-- The bytes of a block, then its header, from the head on. -/
def arenaFree (a : HeapArena) (w : World) : World :=
  a.blocks.foldl (fun w b => (w.free (some b.base)).free (some b.header)) w

structure HeapTable where
  base : List (Option CString)
  block : Option Block
  count : Nat
  capacity : Nat
  arena : HeapArena
  deriving DecidableEq, Repr

def HeapTable.empty : HeapTable := ⟨[], none, 0, 0, .empty⟩

def HeapTable.erase (tbl : HeapTable) : SymbolTable :=
  ⟨tbl.base, tbl.block, tbl.count, tbl.capacity, tbl.arena.erase⟩

/-- Claiming a slot does not look at the arena. -/
def heapNextSlot (tbl : HeapTable) (len : Nat) (w : World) : Option Nat × HeapTable × World :=
  let r := symbolTableNextSlot tbl.erase len w
  (r.1, { tbl with
    base := r.2.1.base, block := r.2.1.block, count := r.2.1.count, capacity := r.2.1.capacity }, r.2.2)

def heapAppend (tbl : HeapTable) (str : Bytes) (len : Nat) (w : World) :
    Except WrouterError CString × HeapTable × World :=
  if tbl.count ≥ 65535 then (.error .outOfRange, tbl, w)
  else match symbolDuplicate str len tbl.base with
    | some e => (.ok e, tbl, w)
    | none =>
      match heapNextSlot tbl 1 w with
      | (none, tbl, w) => (.error .noMemory, tbl, w)
      | (some slot, tbl, w) =>
        match heapArenaAlloc tbl.arena (len + 1) w with
        | (none, arena, w) => (.error .noMemory, { tbl with arena := arena }, w)
        | (some addr, arena, w) =>
          let a : CString := ⟨addr, str.take len⟩
          (.ok a, { tbl with arena := arena, base := tbl.base.set slot (some a) }, w)

def symbolTableFree (tbl : HeapTable) (w : World) : World := arenaFree tbl.arena (w.free tbl.block)

/-! ## The tree -/

inductive HeapSpecial (σ : Type) where
  | none
  | param (p : σ)
  | paramNull
  | wildcard (route : Ptr Route)
  | wildcardNull
  deriving Repr

structure HeapSegment where
  block : Block
  str : Option Bytes
  children : List HeapSegment
  tail : Option Nat
  terminal : Option (Ptr Route)
  trailing : Option (Ptr Route)
  special : HeapSpecial HeapSegment
  childCount : Nat
  strLength : Nat
  deriving Repr

def HeapSegment.zero (block : Block) : HeapSegment :=
  ⟨block, none, [], none, none, none, .none, 0, 0⟩

mutual
def HeapSegment.erase : HeapSegment → Segment
  | ⟨_, str, children, tail, terminal, trailing, special, childCount, strLength⟩ =>
    ⟨str, eraseChildren children, tail, terminal.map Ptr.data, trailing.map Ptr.data,
      eraseSpecial special, childCount, strLength⟩

def eraseSpecial : HeapSpecial HeapSegment → Special Segment
  | .none => .none
  | .param p => .param p.erase
  | .paramNull => .paramNull
  | .wildcard route => .wildcard route.data
  | .wildcardNull => .wildcardNull

def eraseChildren : List HeapSegment → List Segment
  | [] => []
  | c :: cs => c.erase :: eraseChildren cs
end

def heapSegmentCreate (tbl : HeapTable) (tok : Token) (w : World) :
    Except WrouterError HeapSegment × HeapTable × World :=
  match w.malloc 1 with
  | (none, w) => (.error .noMemory, tbl, w)
  | (some b, w) =>
    match heapAppend tbl (tok.ptr.getD []) tok.length w with
    | (.error e, tbl, w) => (.error e, tbl, w.free (some b))
    | (.ok s, tbl, w) =>
      (.ok { HeapSegment.zero b with str := some s.text, strLength := tok.length }, tbl, w)

def heapAppendChild (cur child : HeapSegment) : Except WrouterError HeapSegment :=
  if cur.childCount ≥ nodeMaxChildCount then .error .outOfRange
  else match cur.children with
    | [] => .ok { cur with children := [child], tail := some 0, childCount := u16 (cur.childCount + 1) }
    | _ :: _ =>
      let t := cur.tail.getD 0
      .ok { cur with
        children := cur.children.take (t + 1) ++ [child]
        tail := some (t + 1)
        childCount := u16 (cur.childCount + 1) }

mutual
/-- The special edge by its type, the children in order, then the node's own routes and itself. -/
def segmentFree : HeapSegment → World → World
  | ⟨block, _, children, _, terminal, trailing, special, _, _⟩, w =>
    let w := segmentFreeSpecial special w
    let w := segmentFreeChildren children w
    ((w.free (trailing.map Ptr.block)).free (terminal.map Ptr.block)).free (some block)

def segmentFreeSpecial : HeapSpecial HeapSegment → World → World
  | .wildcard route, w => w.free (some route.block)
  | .param p, w => segmentFree p w
  -- `free(NULL)`, and the null test of `segment_free`
  | .wildcardNull, w => w
  | .paramNull, w => w
  | .none, w => w

def segmentFreeChildren : List HeapSegment → World → World
  | [], w => w
  | child :: rest, w => segmentFreeChildren rest (segmentFree child w)
end

/-! ## The builder -/

structure HeapState where
  literals : HeapTable
  params : HeapTable
  world : World
  deriving Repr

def HeapState.erase (st : HeapState) : AddState := ⟨st.literals.erase, st.params.erase, st.world⟩

def heapTerminate (retain : Bool) (route : Route) (st : HeapState) :
    Option (Ptr Route) × HeapState :=
  match st.world.malloc 1 with
  | (none, w) => (none, { st with world := w })
  | (some b, w) => (some ⟨b, route⟩, { st with world := w.retain retain route.ctx })

/-- `cur` moves down the tree; comparisons look at the nodes without their blocks. -/
def heapWalk (retain : Bool) (route : Route) :
    List Token → HeapSegment → HeapState → WrouterError × HeapSegment × HeapState
  | [], cur, st => (.illegalPattern, cur, st)
  | tok :: toks, cur, st =>
    match tok.type with
    | .end_ =>
      if cur.terminal.isSome then (.duplicateRoute, cur, st)
      else
        let r := heapTerminate retain route st
        (terminateError (r.1.map Ptr.data), { cur with terminal := r.1 }, r.2)
    | .literal =>
      let descend (i : Nat) (cur : HeapSegment) (st : HeapState) :=
        let r := heapWalk retain route toks (cur.children.getD i (.zero ⟨0, 0⟩)) st
        (r.1, { cur with children := cur.children.set i r.2.1 }, r.2.2)
      let missing (cur : HeapSegment) :=
        match segmentFindChildByToken cur.erase tok with
        | some i => descend i cur st
        | none =>
          match heapSegmentCreate st.literals tok st.world with
          | (.error e, tbl, w) => (e, cur, { st with literals := tbl, world := w })
          | (.ok child, tbl, w) =>
            let st := { st with literals := tbl, world := w }
            match heapAppendChild cur child with
            | .error e => (e, cur, { st with world := w.free (some child.block) })
            | .ok cur => descend (cur.tail.getD 0) cur st
      match cur.special with
      | .param _ => (.literalConflictsWithParam, cur, st)
      | .paramNull => (.literalConflictsWithParam, cur, st)
      | _ => missing cur
    | .param =>
      match cur.special with
      | .wildcard _ => (.paramConflictsWithWildcard, cur, st)
      | .wildcardNull => (.paramConflictsWithWildcard, cur, st)
      | .none =>
        if cur.childCount ≠ 0 then (.paramConflictsWithLiteral, cur, st)
        else
          match heapSegmentCreate st.params tok st.world with
          | (.error e, tbl, w) =>
            (e, { cur with special := .paramNull }, { st with params := tbl, world := w })
          | (.ok p, tbl, w) =>
            let r := heapWalk retain route toks p { st with params := tbl, world := w }
            (r.1, { cur with special := .param r.2.1 }, r.2.2)
      | .param p =>
        if cur.childCount ≠ 0 then (.paramConflictsWithLiteral, cur, st)
        else if ¬ tokenMatchesSegment tok p.erase then (.paramNameMismatch, cur, st)
        else
          let r := heapWalk retain route toks p st
          (r.1, { cur with special := .param r.2.1 }, r.2.2)
      | .paramNull => (.paramNameMismatch, cur, st)
    | .wildcard =>
      match cur.special with
      | .wildcard _ => (.duplicateRoute, cur, st)
      | .wildcardNull => (.duplicateRoute, cur, st)
      | .param _ => (.wildcardConflictsWithParam, cur, st)
      | .paramNull => (.wildcardConflictsWithParam, cur, st)
      | .none =>
        if (toks.headD (.bare .illegal)).type ≠ .end_ then (.wildcardNotFinal, cur, st)
        else
          let r := heapTerminate retain route st
          let special : HeapSpecial HeapSegment :=
            match r.1 with
            | some route => .wildcard route
            | none => .wildcardNull
          (terminateError (r.1.map Ptr.data), { cur with special := special }, r.2)
    | .trailing =>
      if cur.trailing.isSome then (.duplicateRoute, cur, st)
      else
        let r := heapTerminate retain route st
        (terminateError (r.1.map Ptr.data), { cur with trailing := r.1 }, r.2)
    | .illegal => (.illegalPattern, cur, st)

structure HeapBuilder where
  block : Block
  root : HeapSegment
  literals : HeapTable
  params : HeapTable
  fallback : Route
  retain : Bool
  release : Bool
  paramSyntax : ParamSyntax
  corrupted : Bool
  deriving Repr

def HeapBuilder.erase (b : HeapBuilder) : Builder :=
  ⟨b.root.erase, b.literals.erase, b.params.erase, b.fallback, b.retain, b.release, b.paramSyntax,
    b.corrupted⟩

def heapBuilderAddRoute (b : HeapBuilder) (pattern : Option Bytes) (route : Route) (w : World) :
    WrouterError × HeapBuilder × World :=
  if b.corrupted then (.builderCorrupted, b, w)
  else
    let r := heapWalk b.retain route (patternTokens b.paramSyntax pattern) b.root
      ⟨b.literals, b.params, w⟩
    (r.1, { b with root := r.2.1, literals := r.2.2.literals, params := r.2.2.params }, r.2.2.world)

def heapAddRoute (b : HeapBuilder) (pattern : Option Bytes) (route : Route) (w : World) :
    WrouterError × HeapBuilder × World :=
  let r := heapBuilderAddRoute b pattern route w
  if r.1 ≠ .ok then (r.1, { r.2.1 with corrupted := true }, r.2.2) else r

/-- The whole of `wrouter_builder_free`; none where the release of the tree follows a null
pointer. -/
def heapBuilderFree (b : HeapBuilder) (w : World) : Option World :=
  (builderRelease b.erase w).map fun w =>
    (segmentFree b.root (symbolTableFree b.params (symbolTableFree b.literals w))).free (some b.block)

/-- Without memory for the root the builder is freed again; with a release callback that
follows the null root. -/
def heapBuilderCreate (options : Options) (w : World) : Option (Option HeapBuilder × World) :=
  match w.malloc 1 with
  | (none, w) => some (none, w)
  | (some block, w) =>
    let fallback : Route := ⟨options.fallbackHandler, options.fallbackCtx⟩
    let w := w.retain options.retain fallback.ctx
    match w.malloc 1 with
    | (none, w) =>
      if options.release then none
      else some (none, (symbolTableFree .empty (symbolTableFree .empty w)).free (some block))
    | (some root, w) =>
      some (some ⟨block, .zero root, .empty, .empty, fallback, options.retain, options.release,
        options.paramSyntax, false⟩, w)

/-- The builder is granted, its root segment is not. -/
def rootRefused : List (Option Nat) → Prop
  | some _ :: none :: _ => True
  | _ => False

/-- Creating a builder follows a null pointer only without memory for the root. -/
theorem heapBuilderCreate_eq_none {options : Options} {w : World} :
    heapBuilderCreate options w = none ↔ options.release = true ∧ rootRefused w.answers := by
  obtain ⟨handler, ctx, σ, retain, release⟩ := options
  obtain ⟨answers, next, trace⟩ := w
  rcases answers with _ | ⟨_ | addr, _ | ⟨_ | addr', rest⟩⟩ <;> cases retain <;> cases release <;>
    simp [heapBuilderCreate, World.malloc, World.retain, rootRefused]

/-! ## Forgetting the blocks -/

/-- Without its blocks the arena is the one of the plain model. -/
theorem heapNewBlock_erase (n : Nat) (w : World) : arenaNewBlock n w =
    ((heapNewBlock n w).1.map HeapBlock.erase, (heapNewBlock n w).2) := by
  unfold arenaNewBlock heapNewBlock
  dsimp only
  obtain ⟨_ | header, w'⟩ := w.malloc 1
  · rfl
  · dsimp only
    obtain ⟨_ | base, w''⟩ := w'.malloc (if n > arenaBlockSize then n else arenaBlockSize) <;> rfl

theorem heapArenaLoop_erase (size align fuel b : Nat) (a : HeapArena) (w : World) :
    arenaLoop size align fuel b a.erase w =
      let r := heapArenaLoop size align fuel b a w
      (r.1, r.2.1.erase, r.2.2) := by
  induction fuel generalizing b a w with
  | zero => rfl
  | succ fuel ih =>
    rw [arenaLoop, heapArenaLoop]
    have hget : a.erase.blocks[b]? = a.blocks[b]?.map HeapBlock.erase := List.getElem?_map
    have hlen : a.erase.blocks.length = a.blocks.length := List.length_map _
    rw [hget, hlen]
    cases a.blocks[b]? with
    | none => rfl
    | some blk =>
      dsimp only [Option.map_some, HeapBlock.erase]
      split
      · simp [HeapArena.erase, List.map_set, HeapBlock.erase]
      split
      · exact ih _ _ _
      rw [heapNewBlock_erase]
      cases heapNewBlock (subWord 64 (addWord 64 size align) 1) w with
      | mk blk w =>
        cases blk with
        | none => rfl
        | some blk =>
          dsimp only [Option.map_some]
          rw [← ih]
          simp [HeapArena.erase]

theorem heapArenaAlloc_erase (a : HeapArena) (n : Nat) (w : World) :
    arenaAlloc a.erase n w =
      let r := heapArenaAlloc a n w
      (r.1, r.2.1.erase, r.2.2) := by
  have hlen : a.erase.blocks.length = a.blocks.length := List.length_map _
  obtain ⟨blocks, tail⟩ := a
  rw [arenaAlloc, arenaAllocAligned, arenaAllocPasses, heapArenaAlloc, hlen]
  cases blocks with
  | nil =>
    dsimp only [HeapArena.erase, List.map_nil]
    rw [heapNewBlock_erase]
    cases heapNewBlock (subWord 64 (addWord 64 n 1) 1) w with
    | mk blk w =>
      cases blk with
      | none => rfl
      | some blk => exact heapArenaLoop_erase n 1 _ 0 ⟨[blk], some 0⟩ w
  | cons b blocks => exact heapArenaLoop_erase n 1 _ _ ⟨b :: blocks, tail⟩ w

theorem symbolTableNextSlot_arena (tbl : SymbolTable) (len : Nat) (w : World) :
    (symbolTableNextSlot tbl len w).2.1.arena = tbl.arena := by
  unfold symbolTableNextSlot
  dsimp only
  split
  · split <;> rfl
  · rfl

theorem heapNextSlot_erase (tbl : HeapTable) (len : Nat) (w : World) :
    symbolTableNextSlot tbl.erase len w =
      let r := heapNextSlot tbl len w
      (r.1, r.2.1.erase, r.2.2) := by
  have harena := symbolTableNextSlot_arena tbl.erase len w
  unfold heapNextSlot
  generalize symbolTableNextSlot tbl.erase len w = r at harena ⊢
  obtain ⟨slot, ⟨base, block, count, capacity, arena⟩, w'⟩ := r
  obtain rfl : arena = tbl.erase.arena := harena
  rfl

theorem heapAppend_erase (tbl : HeapTable) (str : Bytes) (len : Nat) (w : World) :
    symbolAppend tbl.erase str len w =
      let r := heapAppend tbl str len w
      (r.1, r.2.1.erase, r.2.2) := by
  rw [symbolAppend, heapAppend, heapNextSlot_erase]
  have hcount : tbl.erase.count = tbl.count := rfl
  have hbase : tbl.erase.base = tbl.base := rfl
  rw [hcount, hbase]
  split
  · rfl
  cases symbolDuplicate str len tbl.base with
  | some e => rfl
  | none =>
    dsimp only
    obtain ⟨_ | slot, tbl', w'⟩ := heapNextSlot tbl 1 w
    · rfl
    · dsimp only
      have harena : tbl'.erase.arena = tbl'.arena.erase := rfl
      rw [harena, heapArenaAlloc_erase]
      obtain ⟨_ | addr, arena, w''⟩ := heapArenaAlloc tbl'.arena (len + 1) w' <;> rfl

theorem heapSegmentCreate_erase (tbl : HeapTable) (tok : Token) (w : World) :
    segmentCreate tbl.erase tok w =
      let r := heapSegmentCreate tbl tok w
      (r.1.map fun c => (c.erase, c.block), r.2.1.erase, r.2.2) := by
  rw [segmentCreate, heapSegmentCreate]
  obtain ⟨_ | b, w'⟩ := w.malloc 1
  · rfl
  · dsimp only
    rw [heapAppend_erase]
    obtain ⟨_ | s, tbl', w''⟩ := heapAppend tbl (tok.ptr.getD []) tok.length w' <;> rfl

theorem eraseChildren_eq (l : List HeapSegment) : eraseChildren l = l.map HeapSegment.erase := by
  induction l with
  | nil => rfl
  | cons c l ih => rw [eraseChildren, ih, List.map_cons]

theorem erase_eq (s : HeapSegment) : s.erase = ⟨s.str, s.children.map HeapSegment.erase, s.tail,
    s.terminal.map Ptr.data, s.trailing.map Ptr.data, eraseSpecial s.special, s.childCount,
    s.strLength⟩ := by
  cases s
  rw [HeapSegment.erase, eraseChildren_eq]

theorem heapAppendChild_erase (cur child : HeapSegment) :
    segmentAppendChild cur.erase child.erase = (heapAppendChild cur child).map HeapSegment.erase := by
  unfold segmentAppendChild heapAppendChild
  rw [erase_eq cur]
  dsimp only
  split
  · rfl
  cases hchildren : cur.children with
  | nil => simp [Except.map, erase_eq]
  | cons c cs => simp [Except.map, erase_eq]

theorem heapTerminate_erase (retain : Bool) (route : Route) (st : HeapState) :
    builderTerminate retain route st.erase =
      let r := heapTerminate retain route st
      (r.1.map Ptr.data, r.2.erase) := by
  have hworld : st.erase.world = st.world := rfl
  rw [builderTerminate, heapTerminate, hworld]
  obtain ⟨_ | b, w⟩ := st.world.malloc 1 <;> rfl

section Erase

variable (s : HeapSegment)

@[simp] theorem erase_children : s.erase.children = s.children.map HeapSegment.erase := by rw [erase_eq]
@[simp] theorem erase_tail : s.erase.tail = s.tail := by rw [erase_eq]
@[simp] theorem erase_terminal : s.erase.terminal = s.terminal.map Ptr.data := by rw [erase_eq]
@[simp] theorem erase_trailing : s.erase.trailing = s.trailing.map Ptr.data := by rw [erase_eq]
@[simp] theorem erase_special : s.erase.special = eraseSpecial s.special := by rw [erase_eq]
@[simp] theorem erase_childCount : s.erase.childCount = s.childCount := by rw [erase_eq]

theorem erase_set_children (l : List HeapSegment) : { s with children := l }.erase =
    { s.erase with children := l.map HeapSegment.erase } := by
  rw [erase_eq, erase_eq]

theorem erase_set_terminal (t : Option (Ptr Route)) : { s with terminal := t }.erase =
    { s.erase with terminal := t.map Ptr.data } := by
  rw [erase_eq, erase_eq]

theorem erase_set_trailing (t : Option (Ptr Route)) : { s with trailing := t }.erase =
    { s.erase with trailing := t.map Ptr.data } := by
  rw [erase_eq, erase_eq]

theorem erase_set_special (sp : HeapSpecial HeapSegment) : { s with special := sp }.erase =
    { s.erase with special := eraseSpecial sp } := by
  rw [erase_eq, erase_eq]

end Erase

/-- The walk down one literal edge, with and without blocks. -/
theorem descend_erase {retain : Bool} {route : Route} {toks : List Token}
    (ih : ∀ (cur : HeapSegment) (st : HeapState), builderWalk retain route toks cur.erase st.erase =
      let r := heapWalk retain route toks cur st
      (r.1, r.2.1.erase, r.2.2.erase)) (i : Nat) (cur : HeapSegment) (st : HeapState) :
    (let r := builderWalk retain route toks (cur.erase.children.getD i .zero) st.erase
     (r.1, { cur.erase with children := cur.erase.children.set i r.2.1 }, r.2.2)) =
    let r := heapWalk retain route toks (cur.children.getD i (.zero ⟨0, 0⟩)) st
    (r.1, { cur with children := cur.children.set i r.2.1 }.erase, r.2.2.erase) := by
  have hzero : Segment.zero = (HeapSegment.zero ⟨0, 0⟩).erase := by rw [erase_eq]; rfl
  have hget : cur.erase.children.getD i .zero =
      (cur.children.getD i (.zero ⟨0, 0⟩)).erase := by
    rw [erase_children, hzero, List.getD_eq_getElem?_getD, List.getD_eq_getElem?_getD,
      List.getElem?_map, Option.getD_map]
  rw [hget, ih]
  dsimp only
  rw [erase_set_children, erase_children, List.map_set]

/-- The walk with its blocks forgotten is the walk without them. -/
theorem heapWalk_erase (retain : Bool) (route : Route) (toks : List Token) (cur : HeapSegment)
    (st : HeapState) : builderWalk retain route toks cur.erase st.erase =
      let r := heapWalk retain route toks cur st
      (r.1, r.2.1.erase, r.2.2.erase) := by
  induction toks generalizing cur st with
  | nil => rfl
  | cons tok toks ih =>
    have hworld : st.erase.world = st.world := rfl
    rw [builderWalk, heapWalk]
    cases tok.type with
    | illegal => rfl
    | end_ =>
      dsimp only
      rw [erase_terminal, Option.isSome_map, heapTerminate_erase]
      split
      · rfl
      · rw [erase_set_terminal]
    | trailing =>
      dsimp only
      rw [erase_trailing, Option.isSome_map, heapTerminate_erase]
      split
      · rfl
      · rw [erase_set_trailing]
    | wildcard =>
      dsimp only
      rw [erase_special, heapTerminate_erase]
      cases hspecial : cur.special with
      | none =>
        dsimp only [eraseSpecial]
        split
        · rfl
        · obtain ⟨_ | p, st'⟩ := heapTerminate retain route st <;>
            (rw [erase_set_special]; rfl)
      | _ => rfl
    | param =>
      have hcount : cur.erase.childCount ≠ 0 ↔ cur.childCount ≠ 0 := by rw [erase_childCount]
      dsimp only
      rw [erase_special]
      cases hspecial : cur.special with
      | none =>
        dsimp only [eraseSpecial]
        by_cases hn : cur.childCount ≠ 0
        · rw [if_pos hn, if_pos (hcount.mpr hn)]
        · rw [if_neg hn, if_neg (mt hcount.mp hn)]
          have hparams : st.erase.params = st.params.erase := rfl
          rw [hparams, hworld, heapSegmentCreate_erase]
          obtain ⟨_ | p, tbl, w⟩ := heapSegmentCreate st.params tok st.world
          · dsimp only [Except.map]
            rw [erase_set_special]
            rfl
          · dsimp only [Except.map]
            have hst : { st.erase with params := tbl.erase, world := w } =
              HeapState.erase { st with params := tbl, world := w } := rfl
            rw [hst, ih]
            dsimp only
            rw [erase_set_special]
            rfl
      | param p =>
        dsimp only [eraseSpecial]
        by_cases hn : cur.childCount ≠ 0
        · rw [if_pos hn, if_pos (hcount.mpr hn)]
        · rw [if_neg hn, if_neg (mt hcount.mp hn)]
          split
          · rfl
          · rw [ih]
            dsimp only
            rw [erase_set_special]
            rfl
      | _ => rfl
    | literal =>
      dsimp only
      rw [erase_special]
      cases hspecial : cur.special with
      | param p => rfl
      | paramNull => rfl
      | none | wildcard _ | wildcardNull =>
        dsimp only [eraseSpecial]
        cases segmentFindChildByToken cur.erase tok with
        | some i =>
          have hdescend := descend_erase ih i cur st
          dsimp only at hdescend
          rw [erase_special, hspecial] at hdescend
          exact hdescend
        | none =>
          have hliterals : st.erase.literals = st.literals.erase := rfl
          dsimp only
          rw [hliterals, hworld, heapSegmentCreate_erase]
          obtain ⟨_ | child, tbl, w⟩ := heapSegmentCreate st.literals tok st.world
          · rfl
          · dsimp only [Except.map]
            rw [heapAppendChild_erase]
            cases heapAppendChild cur child with
            | error e => rfl
            | ok cur' =>
              have hdescend := descend_erase ih (cur'.tail.getD 0) cur'
                { st with literals := tbl, world := w }
              dsimp only [Except.map] at hdescend ⊢
              rw [erase_tail] at hdescend ⊢
              exact hdescend

/-- Adding a route on the heap is adding it to the plain builder. -/
theorem heapAddRoute_erase (b : HeapBuilder) (pattern : Option Bytes) (route : Route) (w : World) :
    wrouterAddRoute b.erase pattern route w =
      let r := heapAddRoute b pattern route w
      (r.1, r.2.1.erase, r.2.2) := by
  have hbuilder : builderAddRoute b.erase pattern route w =
      let r := heapBuilderAddRoute b pattern route w
      (r.1, r.2.1.erase, r.2.2) := by
    have hwalk := heapWalk_erase b.retain route (patternTokens b.paramSyntax pattern) b.root
      ⟨b.literals, b.params, w⟩
    have hstate : HeapState.erase ⟨b.literals, b.params, w⟩ =
      ⟨b.erase.literals, b.erase.params, w⟩ := rfl
    have hroot : b.root.erase = b.erase.root := rfl
    rw [hstate, hroot] at hwalk
    have hcorrupted : b.erase.corrupted = b.corrupted := rfl
    rw [builderAddRoute, heapBuilderAddRoute, hcorrupted]
    split
    · rfl
    · have hretain : b.erase.retain = b.retain := rfl
      have hparamSyntax : b.erase.paramSyntax = b.paramSyntax := rfl
      rw [hretain, hparamSyntax, hwalk]
      rfl
  rw [wrouterAddRoute, heapAddRoute, hbuilder]
  dsimp only
  split <;> rfl

/-- A builder that is created is a fresh one on two blocks. -/
theorem heapBuilderCreate_erase {options : Options} {w w' : World} {b : HeapBuilder}
    (h : heapBuilderCreate options w = some (some b, w')) :
    wrouterBuilderCreate options w = (some b.erase, w') := by
  unfold heapBuilderCreate at h
  unfold wrouterBuilderCreate
  rcases hblock : w.malloc 1 with ⟨_ | block, w₁⟩
  · simp [hblock] at h
  simp only [hblock] at h ⊢
  rcases hroot : (w₁.retain options.retain options.fallbackCtx).malloc 1 with ⟨_ | root, w₂⟩
  · simp only [hroot] at h
    split at h <;> simp at h
  · simp only [hroot, Option.some.injEq, Prod.mk.injEq] at h
    obtain ⟨rfl, rfl⟩ := h
    have hzero : (HeapSegment.zero root).erase = .zero := by
      rw [erase_eq]
      rfl
    simp only [HeapBuilder.erase, hzero, Builder.fresh, hroot]
    rfl

end Wrouter
