import Wrouter.Compiler

/-!
# The callbacks in the trace

Which retains and releases an operation makes, and in which order. Most operations only
allocate and free, which leaves the callbacks alone.
-/
namespace Wrouter

open CLib Machine

def Event.isCallback : Event → Bool
  | .retain _ => true
  | .release _ => true
  | _ => false

def World.callbacks (w : World) : List Event := w.trace.filter Event.isCallback

def World.retains (w : World) (ctx : Nat) : Nat := w.callbacks.count (.retain ctx)
def World.releases (w : World) (ctx : Nat) : Nat := w.callbacks.count (.release ctx)

def World.NoFail (w : World) : Prop := none ∉ w.answers

theorem retain_callbacks (w : World) (installed : Bool) (ctx : Nat) :
    (w.retain installed ctx).callbacks =
      w.callbacks ++ if installed then [.retain ctx] else [] := by
  cases installed <;> simp [World.retain, World.callbacks, Event.isCallback]

theorem release_callbacks (w : World) (installed : Bool) (ctx : Nat) :
    (w.release installed ctx).callbacks =
      w.callbacks ++ if installed then [.release ctx] else [] := by
  cases installed <;> simp [World.release, World.callbacks, Event.isCallback]

structure Quiet (w w' : World) : Prop where
  callbacks : w'.callbacks = w.callbacks
  answers : w'.answers <:+ w.answers

theorem Quiet.refl (w : World) : Quiet w w := ⟨rfl, List.suffix_rfl⟩

theorem Quiet.trans {u v w : World} (h : Quiet u v) (h' : Quiet v w) : Quiet u w :=
  ⟨h'.callbacks.trans h.callbacks, h'.answers.trans h.answers⟩

theorem noFail_of_suffix {w w' : World} (h : w.NoFail) (hs : w'.answers <:+ w.answers) :
    w'.NoFail := fun hmem => h (hs.subset hmem)

theorem malloc_ne_none {w w' : World} (h : w.NoFail) {n : Nat} : w.malloc n ≠ (none, w') := by
  unfold World.malloc
  split
  · simp
  · simp
  · rename_i hanswers
    exact absurd (by rw [hanswers]; exact List.mem_cons_self) h

theorem quiet_malloc (w : World) (n : Nat) : Quiet w (w.malloc n).2 := by
  unfold World.malloc
  split
  · refine ⟨by simp [World.callbacks, Event.isCallback], ?_⟩
    exact List.suffix_rfl
  · rename_i hanswers
    refine ⟨by simp [World.callbacks, Event.isCallback], ?_⟩
    rw [hanswers]
    exact List.suffix_cons _ _
  · rename_i hanswers
    refine ⟨rfl, ?_⟩
    rw [hanswers]
    exact List.suffix_cons _ _

theorem quiet_of_malloc {w w' : World} {n : Nat} {b : Option Block} (h : w.malloc n = (b, w')) :
    Quiet w w' := by
  have hq := quiet_malloc w n
  rwa [h] at hq

theorem quiet_free (w : World) (b : Option Block) : Quiet w (w.free b) := by
  cases b with
  | none => exact .refl w
  | some b => exact ⟨by simp [World.free, World.callbacks, Event.isCallback], List.suffix_rfl⟩

theorem Quiet.free {w w' : World} (h : Quiet w w') (b : Option Block) : Quiet w (w'.free b) :=
  h.trans (quiet_free w' b)

/-- From one world to the other these contexts were retained and these released, in any
order. -/
structure Moves (up down : List Nat) (w w' : World) : Prop where
  retains : ∀ ctx, w'.retains ctx = w.retains ctx + up.count ctx
  releases : ∀ ctx, w'.releases ctx = w.releases ctx + down.count ctx
  answers : w'.answers <:+ w.answers

theorem Moves.trans {up up' down down' : List Nat} {u v w : World} (h : Moves up down u v)
    (h' : Moves up' down' v w) : Moves (up ++ up') (down ++ down') u w := by
  refine ⟨fun ctx => ?_, fun ctx => ?_, h'.answers.trans h.answers⟩
  · rw [h'.retains, h.retains, List.count_append, Nat.add_assoc]
  · rw [h'.releases, h.releases, List.count_append, Nat.add_assoc]

theorem Quiet.moves {w w' : World} (h : Quiet w w') : Moves [] [] w w' := by
  refine ⟨fun ctx => ?_, fun ctx => ?_, h.answers⟩
  · rw [World.retains, h.callbacks]
    rfl
  · rw [World.releases, h.callbacks]
    rfl

/-! ## Interning -/

theorem quiet_arenaNewBlock (n : Nat) (w : World) : Quiet w (arenaNewBlock n w).2 := by
  unfold arenaNewBlock
  dsimp only
  split
  · rename_i h
    exact quiet_of_malloc h
  · rename_i header w₁ h
    split
    · rename_i h'
      exact ((quiet_of_malloc h).trans (quiet_of_malloc h')).free (some header)
    · rename_i h'
      exact (quiet_of_malloc h).trans (quiet_of_malloc h')

theorem quiet_of_arenaNewBlock {w w' : World} {n : Nat} {blk : Option ArenaBlock}
    (h : arenaNewBlock n w = (blk, w')) : Quiet w w' := by
  have hq := quiet_arenaNewBlock n w
  rwa [h] at hq

theorem quiet_arenaLoop (size align fuel b : Nat) (a : Arena) (w : World) :
    Quiet w (arenaLoop size align fuel b a w).2.2 := by
  induction fuel generalizing b a w with
  | zero => exact .refl w
  | succ fuel ih =>
    rw [arenaLoop]
    cases a.blocks[b]? with
    | none => exact .refl w
    | some blk =>
      dsimp only
      split
      · exact .refl w
      split
      · exact ih _ _ _
      split
      · rename_i h
        exact quiet_of_arenaNewBlock h
      · rename_i h
        exact (quiet_of_arenaNewBlock h).trans (ih _ _ _)

theorem quiet_arenaAllocPasses (passes : Nat) (a : Arena) (size align : Nat) (w : World) :
    Quiet w (arenaAllocPasses passes a size align w).2.2 := by
  unfold arenaAllocPasses
  split
  · split
    · rename_i h
      exact quiet_of_arenaNewBlock h
    · rename_i h
      exact (quiet_of_arenaNewBlock h).trans (quiet_arenaLoop _ _ _ _ _ _)
  · exact quiet_arenaLoop _ _ _ _ _ _

theorem quiet_arenaAlloc (a : Arena) (n : Nat) (w : World) : Quiet w (arenaAlloc a n w).2.2 :=
  quiet_arenaAllocPasses _ a n 1 w

theorem quiet_nextSlot (tbl : SymbolTable) (len : Nat) (w : World) :
    Quiet w (symbolTableNextSlot tbl len w).2.2 := by
  unfold symbolTableNextSlot
  dsimp only
  split
  · split
    · rename_i h
      exact quiet_of_malloc h
    · rename_i h
      exact (quiet_of_malloc h).free _
  · exact .refl w

/-- Interning makes no callback. -/
theorem quiet_symbolAppend (tbl : SymbolTable) (str : Bytes) (len : Nat) (w : World) :
    Quiet w (symbolAppend tbl str len w).2.2 := by
  have hslot := quiet_nextSlot tbl 1 w
  unfold symbolAppend
  split
  · exact .refl w
  split
  · exact .refl w
  split
  · rename_i h
    rwa [h] at hslot
  · rename_i slot tbl₁ w₁ h
    rw [h] at hslot
    have harena := quiet_arenaAlloc tbl₁.arena (len + 1) w₁
    split
    · rename_i h'
      rw [h'] at harena
      exact hslot.trans harena
    · rename_i h'
      rw [h'] at harena
      exact hslot.trans harena

theorem quiet_segmentCreate (tbl : SymbolTable) (tok : Token) (w : World) :
    Quiet w (segmentCreate tbl tok w).2.2 := by
  unfold segmentCreate
  split
  · rename_i h
    exact quiet_of_malloc h
  · rename_i b w₁ h
    have happend := quiet_symbolAppend tbl (tok.ptr.getD []) tok.length w₁
    split
    · rename_i h'
      rw [h'] at happend
      exact ((quiet_of_malloc h).trans happend).free (some b)
    · rename_i h'
      rw [h'] at happend
      exact (quiet_of_malloc h).trans happend

theorem quiet_of_segmentCreate {tbl tbl' : SymbolTable} {tok : Token} {w w' : World}
    {r : Except WrouterError (Segment × Block)} (h : segmentCreate tbl tok w = (r, tbl', w')) :
    Quiet w w' := by
  have hq := quiet_segmentCreate tbl tok w
  rwa [h] at hq

/-! ## Where interning succeeds

The tail of an arena is one of its blocks, and a fresh block fits what it was made for. So
with memory left only a full table refuses a string. -/

def Arena.Ok (a : Arena) : Prop := a.blocks ≠ [] → a.tail.getD 0 < a.blocks.length

theorem arenaLoop_ok {a : Arena} (ha : a.Ok) (size align fuel b : Nat) (w : World) :
    (arenaLoop size align fuel b a w).2.1.Ok := by
  induction fuel generalizing b a w with
  | zero => exact ha
  | succ fuel ih =>
    rw [arenaLoop]
    cases hblk : a.blocks[b]? with
    | none => exact ha
    | some blk =>
      have hb : b < a.blocks.length := (List.getElem?_eq_some_iff.mp hblk).1
      dsimp only
      split
      · intro _
        simpa using ha (List.ne_nil_of_length_pos (by omega))
      split
      · exact ih ha _ _
      split
      · exact ha
      · exact ih (fun _ => by simpa using hb) _ _

theorem arenaAlloc_ok {a : Arena} (ha : a.Ok) (n : Nat) (w : World) : (arenaAlloc a n w).2.1.Ok := by
  unfold arenaAlloc arenaAllocAligned arenaAllocPasses
  split
  · split
    · exact fun h => absurd rfl h
    · exact arenaLoop_ok (fun _ => by simp) _ _ _ _ _
  · exact arenaLoop_ok ha _ _ _ _ _

theorem malloc_some {w : World} (hw : w.NoFail) (n : Nat) :
    ∃ b w', w.malloc n = (some b, w') ∧ w'.NoFail := by
  rcases hm : w.malloc n with ⟨_ | b, w'⟩
  · exact absurd hm (malloc_ne_none hw)
  · exact ⟨b, w', rfl, noFail_of_suffix hw (quiet_of_malloc hm).answers⟩

theorem arenaNewBlock_some {w : World} (hw : w.NoFail) (n : Nat) :
    ∃ base size w', arenaNewBlock n w = (some ⟨base, 0, size⟩, w') ∧ n ≤ size := by
  obtain ⟨header, w₁, hheader, hw₁⟩ := malloc_some hw 1
  obtain ⟨base, w₂, hbase, -⟩ :=
    malloc_some hw₁ (if n > arenaBlockSize then n else arenaBlockSize)
  refine ⟨base.addr, if n > arenaBlockSize then n else arenaBlockSize, w₂, ?_, ?_⟩
  · simp only [arenaNewBlock, hheader, hbase]
  · split <;> omega

/-- A request without alignment takes its own size, which may wrap. -/
theorem unaligned_used (base used size : Nat) :
    addWord 64 used (addWord 64 (subWord 64 (alignWord 64 (addWord 64 base used) 1)
      (addWord 64 base used)) size) = addWord 64 used size := by
  have hword := addWord_lt 64 base used
  rw [alignWord_one (by omega) hword, subWord_eq hword (Nat.le_refl _), Nat.sub_self,
    addWord_zero_add]

/-- A block with room serves the request at once. -/
theorem arenaLoop_fits {a : Arena} {blk : ArenaBlock} {b size : Nat} (fuel : Nat) (w : World)
    (hblk : a.blocks[b]? = some blk) (hfit : addWord 64 blk.used size ≤ blk.size) :
    (arenaLoop size 1 (fuel + 1) b a w).1.isSome := by
  rw [arenaLoop, hblk]
  dsimp only
  simp only [unaligned_used blk.base blk.used size, if_pos hfit, Option.isSome_some]

/-- A fresh block has room for the request it was made for. -/
theorem fresh_fits {size blkSize : Nat} (h : subWord 64 (addWord 64 size 1) 1 ≤ blkSize) :
    addWord 64 0 size ≤ blkSize := by
  refine Nat.le_trans (Nat.le_of_eq ?_) h
  unfold subWord addWord
  omega

theorem arenaLoop_some {a : Arena} {size fuel b : Nat} {w : World} (hw : w.NoFail)
    (hb : b < a.blocks.length) (hfuel : a.blocks.length - b < fuel) :
    (arenaLoop size 1 fuel b a w).1.isSome := by
  induction fuel generalizing b with
  | zero => omega
  | succ fuel ih =>
    have hblk := List.getElem?_eq_getElem hb
    by_cases hfit : addWord 64 a.blocks[b].used size ≤ a.blocks[b].size
    · exact arenaLoop_fits fuel w hblk hfit
    rw [arenaLoop, hblk]
    dsimp only
    simp only [unaligned_used a.blocks[b].base a.blocks[b].used size, if_neg hfit]
    split
    · exact ih (by omega) (by omega)
    · obtain ⟨base, blkSize, w', hnew, hle⟩ :=
        arenaNewBlock_some hw (subWord 64 (addWord 64 size 1) 1)
      obtain ⟨fuel, rfl⟩ : ∃ k, fuel = k + 1 := ⟨fuel - 1, by omega⟩
      have hlast : b + 1 = a.blocks.length := by omega
      rw [hnew]
      dsimp only
      have hblk' : (a.blocks ++ [⟨base, 0, blkSize⟩])[b + 1]? = some ⟨base, 0, blkSize⟩ := by
        simp [hlast]
      exact arenaLoop_fits fuel w' hblk' (fresh_fits hle)

theorem arenaAllocPasses_some {a : Arena} (ha : a.Ok) {w : World} (hw : w.NoFail) {passes : Nat}
    (hpasses : a.blocks.length < passes) (n : Nat) :
    (arenaAllocPasses passes a n 1 w).1.isSome := by
  unfold arenaAllocPasses
  split
  · obtain ⟨base, size, w', hnew, hle⟩ := arenaNewBlock_some hw (subWord 64 (addWord 64 n 1) 1)
    obtain ⟨fuel, rfl⟩ : ∃ k, passes = k + 1 := ⟨passes - 1, by omega⟩
    rw [hnew]
    dsimp only
    have hblk : [ArenaBlock.mk base 0 size][0]? = some ⟨base, 0, size⟩ := rfl
    exact arenaLoop_fits fuel w' hblk (fresh_fits hle)
  · rename_i blk rest hblocks
    refine arenaLoop_some hw (ha (by simp [hblocks])) ?_
    omega

/-- With memory left an arena grants what is asked. -/
theorem arenaAlloc_some {a : Arena} (ha : a.Ok) {w : World} (hw : w.NoFail) (n : Nat) :
    (arenaAlloc a n w).1.isSome := by
  rw [arenaAlloc, arenaAllocAligned]
  exact arenaAllocPasses_some ha hw (by omega) n

structure Grown (tbl tbl' : SymbolTable) : Prop where
  count : tbl.count ≤ tbl'.count
  arena : tbl.arena.Ok → tbl'.arena.Ok

theorem Grown.refl (tbl : SymbolTable) : Grown tbl tbl := ⟨Nat.le_refl _, id⟩

theorem Grown.trans {s t u : SymbolTable} (h : Grown s t) (h' : Grown t u) : Grown s u :=
  ⟨h.count.trans h'.count, fun hs => h'.arena (h.arena hs)⟩

theorem grown_nextSlot (tbl : SymbolTable) (len : Nat) (w : World) :
    Grown tbl (symbolTableNextSlot tbl len w).2.1 := by
  unfold symbolTableNextSlot
  dsimp only
  split
  · split
    · exact .refl tbl
    · exact ⟨Nat.le_add_right _ _, id⟩
  · exact ⟨Nat.le_add_right _ _, id⟩

theorem grown_symbolAppend (tbl : SymbolTable) (str : Bytes) (len : Nat) (w : World) :
    Grown tbl (symbolAppend tbl str len w).2.1 := by
  have hslot := grown_nextSlot tbl 1 w
  unfold symbolAppend
  split
  · exact .refl tbl
  split
  · exact .refl tbl
  split
  · rename_i h
    rwa [h] at hslot
  · rename_i slot tbl₁ w₁ h
    rw [h] at hslot
    have harena (ha : tbl.arena.Ok) := arenaAlloc_ok (hslot.arena ha) (len + 1) w₁
    split
    · rename_i h'
      rw [h'] at harena
      exact ⟨hslot.count, harena⟩
    · rename_i h'
      rw [h'] at harena
      exact ⟨hslot.count, harena⟩

theorem grown_segmentCreate (tbl : SymbolTable) (tok : Token) (w : World) :
    Grown tbl (segmentCreate tbl tok w).2.1 := by
  unfold segmentCreate
  split
  · exact .refl tbl
  · rename_i b w₁ h
    have happend := grown_symbolAppend tbl (tok.ptr.getD []) tok.length w₁
    split
    · rename_i h'
      rwa [h'] at happend
    · rename_i h'
      rwa [h'] at happend

theorem grown_of_segmentCreate {tbl tbl' : SymbolTable} {tok : Token} {w w' : World}
    {r : Except WrouterError (Segment × Block)} (h : segmentCreate tbl tok w = (r, tbl', w')) :
    Grown tbl tbl' := by
  have hg := grown_segmentCreate tbl tok w
  rwa [h] at hg

/-- With memory left only a full table refuses a string. -/
theorem symbolAppend_full {tbl tbl' : SymbolTable} {str : Bytes} {len : Nat} {w w' : World}
    {e : WrouterError} (hw : w.NoFail) (ha : tbl.arena.Ok)
    (h : symbolAppend tbl str len w = (.error e, tbl', w')) : 65535 ≤ tbl.count := by
  by_contra hroom
  unfold symbolAppend at h
  rw [if_neg (by omega)] at h
  split at h
  · simp at h
  have hslot := quiet_nextSlot tbl 1 w
  have hgrown := grown_nextSlot tbl 1 w
  split at h
  · rename_i hnext
    unfold symbolTableNextSlot at hnext
    dsimp only at hnext
    split at hnext
    · split at hnext
      · rename_i hm
        exact malloc_ne_none hw hm
      · simp at hnext
    · simp at hnext
  · rename_i slot tbl₁ w₁ hnext
    rw [hnext] at hslot hgrown
    have hsome := arenaAlloc_some (hgrown.arena ha) (noFail_of_suffix hw hslot.answers) (len + 1)
    split at h
    · rename_i halloc
      rw [halloc] at hsome
      simp at hsome
    · simp at h

/-- With memory left a segment is refused only by a full table. -/
theorem segmentCreate_full {tbl tbl' : SymbolTable} {tok : Token} {w w' : World}
    {e : WrouterError} (hw : w.NoFail) (ha : tbl.arena.Ok)
    (h : segmentCreate tbl tok w = (.error e, tbl', w')) : 65535 ≤ tbl.count := by
  unfold segmentCreate at h
  split at h
  · rename_i hm
    exact absurd hm (malloc_ne_none hw)
  · rename_i b w₁ hm
    split at h
    · rename_i happend
      exact symbolAppend_full (noFail_of_suffix hw (quiet_of_malloc hm).answers) ha happend
    · simp at h

end Wrouter
