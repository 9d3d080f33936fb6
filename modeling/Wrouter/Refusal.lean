import Wrouter.Allocation
import Wrouter.Lib.Answers

/-!
# Refused memory

Adding routes stops at the first allocation that is refused, and says so; it never says so
without one. No refusal is swallowed, wherever in the tables, the arenas or the tree it comes.
-/
namespace Wrouter

open Answers CLib Machine

/-! ## One operation -/

theorem malloc_used (w : World) (n : Nat) :
    Used w.answers (w.malloc n).2.answers (w.malloc n).1.isNone := by
  obtain ⟨hnone, hanswers⟩ := malloc_refused w n
  rw [hanswers]
  refine used_tail ?_
  rw [Option.isNone_iff_eq_none, hnone, List.head?_eq_getElem?]

theorem used_of_malloc {w w' : World} {n : Nat} {b : Option Block} (h : w.malloc n = (b, w')) :
    Used w.answers w'.answers b.isNone := by
  have hused := malloc_used w n
  rwa [h] at hused

theorem arenaNewBlock_used {n : Nat} {w w' : World} {blk : Option ArenaBlock}
    (h : arenaNewBlock n w = (blk, w')) : Used w.answers w'.answers blk.isNone := by
  unfold arenaNewBlock at h
  dsimp only at h
  rcases hheader : w.malloc 1 with ⟨_ | header, w₁⟩ <;> rw [hheader] at h
  · obtain ⟨rfl, rfl⟩ := by simpa only [Prod.mk.injEq] using h
    exact used_of_malloc hheader
  dsimp only at h
  rcases hbase : w₁.malloc (if n > arenaBlockSize then n else arenaBlockSize) with ⟨_ | base, w₂⟩ <;>
    rw [hbase] at h <;> obtain ⟨rfl, rfl⟩ := by simpa only [Prod.mk.injEq] using h
  · rw [free_answers]
    exact (used_of_malloc hheader).trans (used_of_malloc hbase)
  · exact (used_of_malloc hheader).trans (used_of_malloc hbase)

/-- A block with room serves the request without asking for memory. -/
theorem arenaLoop_serves {a : Arena} {blk : ArenaBlock} {b size : Nat} (fuel : Nat) (w : World)
    (hblk : a.blocks[b]? = some blk) (hfit : addWord 64 blk.used size ≤ blk.size) :
    Used w.answers (arenaLoop size 1 (fuel + 1) b a w).2.2.answers
      (arenaLoop size 1 (fuel + 1) b a w).1.isNone := by
  rw [arenaLoop, hblk]
  dsimp only
  simp only [unaligned_used blk.base blk.used size, if_pos hfit]
  exact .refl _

theorem arenaLoop_used {a : Arena} {size fuel b : Nat} {w : World} (hb : b < a.blocks.length)
    (hfuel : a.blocks.length - b < fuel) :
    Used w.answers (arenaLoop size 1 fuel b a w).2.2.answers
      (arenaLoop size 1 fuel b a w).1.isNone := by
  induction fuel generalizing b with
  | zero => omega
  | succ fuel ih =>
    rw [arenaLoop, List.getElem?_eq_getElem hb]
    dsimp only
    split
    · exact .refl _
    split
    · exact ih (by omega) (by omega)
    rcases hnew : arenaNewBlock (subWord 64 (addWord 64 size 1) 1) w with ⟨_ | blk, w₁⟩
    · exact arenaNewBlock_used hnew
    obtain ⟨hused, hle⟩ := arenaNewBlock_fresh hnew
    obtain ⟨fuel, rfl⟩ : ∃ k, fuel = k + 1 := ⟨fuel - 1, by omega⟩
    have hlast : (a.blocks ++ [blk])[b + 1]? = some blk := by
      have hlen : b + 1 = a.blocks.length := by omega
      simp [hlen]
    refine (arenaNewBlock_used hnew).trans (arenaLoop_serves fuel w₁ hlast ?_)
    rw [hused]
    exact fresh_fits hle

theorem arenaAlloc_used {a : Arena} (ha : a.Ok) (n : Nat) (w : World) :
    Used w.answers (arenaAlloc a n w).2.2.answers (arenaAlloc a n w).1.isNone := by
  rw [arenaAlloc, arenaAllocAligned, arenaAllocPasses]
  split
  · rcases hnew : arenaNewBlock (subWord 64 (addWord 64 n 1) 1) w with ⟨_ | blk, w₁⟩
    · exact arenaNewBlock_used hnew
    obtain ⟨hused, hle⟩ := arenaNewBlock_fresh hnew
    refine (arenaNewBlock_used hnew).trans (arenaLoop_serves _ w₁ rfl ?_)
    rw [hused]
    exact fresh_fits hle
  · rename_i blk rest hblocks
    refine arenaLoop_used (ha (by simp [hblocks])) ?_
    omega

theorem nextSlot_used (tbl : SymbolTable) (len : Nat) (w : World) :
    Used w.answers (symbolTableNextSlot tbl len w).2.2.answers
      (symbolTableNextSlot tbl len w).1.isNone := by
  unfold symbolTableNextSlot
  dsimp only
  split
  · split
    · rename_i hm
      exact used_of_malloc hm
    · rename_i hm
      rw [free_answers]
      exact used_of_malloc hm
  · exact .refl _

def outOfMemory {α : Type} : Except WrouterError α → Bool
  | .error e => decide (e = .noMemory)
  | .ok _ => false

/-- An append asks until the first refusal, and says so. -/
theorem symbolAppend_used {tbl : SymbolTable} (ha : tbl.arena.Ok) (str : Bytes) (len : Nat)
    (w : World) : Used w.answers (symbolAppend tbl str len w).2.2.answers
      (outOfMemory (symbolAppend tbl str len w).1) := by
  have hslot := nextSlot_used tbl 1 w
  have hgrown := grown_nextSlot tbl 1 w
  unfold symbolAppend
  split
  · exact .refl _
  split
  · exact .refl _
  rcases hnext : symbolTableNextSlot tbl 1 w with ⟨_ | slot, tbl', w₁⟩ <;> rw [hnext] at hslot hgrown
  · exact hslot
  have harena := arenaAlloc_used (hgrown.arena ha) (len + 1) w₁
  dsimp only
  rcases halloc : arenaAlloc tbl'.arena (len + 1) w₁ with ⟨_ | addr, arena, w₂⟩ <;>
    rw [halloc] at harena <;> exact hslot.trans harena

/-- So does making a segment: its own block, then its string. -/
theorem segmentCreate_used {tbl : SymbolTable} (ha : tbl.arena.Ok) (tok : Token) (w : World) :
    Used w.answers (segmentCreate tbl tok w).2.2.answers
      (outOfMemory (segmentCreate tbl tok w).1) := by
  unfold segmentCreate
  rcases hm : w.malloc 1 with ⟨_ | b, w₁⟩
  · exact used_of_malloc hm
  have happend := symbolAppend_used ha (tok.ptr.getD []) tok.length w₁
  dsimp only
  rcases hstr : symbolAppend tbl (tok.ptr.getD []) tok.length w₁ with ⟨e | s, tbl', w₂⟩ <;>
    rw [hstr] at happend
  · dsimp only
    rw [free_answers]
    exact (used_of_malloc hm).trans happend
  · exact (used_of_malloc hm).trans happend

theorem builderTerminate_used (retain : Bool) (route : Route) (st : AddState) :
    Used st.world.answers (builderTerminate retain route st).2.world.answers
      (decide (terminateError (builderTerminate retain route st).1 = .noMemory)) := by
  unfold builderTerminate
  rcases hm : st.world.malloc 1 with ⟨_ | b, w⟩
  · exact used_of_malloc hm
  · dsimp only
    rw [retain_answers]
    exact used_of_malloc hm

/-! ## The walk -/

/-- The walk stops at the first refusal, and its code says whether there was one. -/
def Truthful (st : AddState) (r : WrouterError × Segment × AddState) : Prop :=
  Used st.world.answers r.2.2.world.answers (decide (r.1 = .noMemory))

theorem truthful_stop {e : WrouterError} (he : e ≠ .noMemory) (cur : Segment) (st : AddState) :
    Truthful st (e, cur, st) := by
  unfold Truthful
  rw [decide_eq_false he]
  exact .refl _

/-- From here on, wherever the tables' arenas are in order. -/
def WalksTruthful (retain : Bool) (route : Route) (toks : List Token) : Prop :=
  ∀ (cur : Segment) (st : AddState), st.literals.arena.Ok → st.params.arena.Ok →
    Truthful st (builderWalk retain route toks cur st)

section Walk

variable {retain : Bool} {route : Route} {tok : Token} {toks : List Token}

theorem truthful_end (htype : tok.type = .end_) : WalksTruthful retain route (tok :: toks) := by
  intro cur st _ _
  rw [builderWalk, htype]
  dsimp only
  split
  · exact truthful_stop (by simp) _ _
  · exact builderTerminate_used retain route st

theorem truthful_trailing (htype : tok.type = .trailing) :
    WalksTruthful retain route (tok :: toks) := by
  intro cur st _ _
  rw [builderWalk, htype]
  dsimp only
  split
  · exact truthful_stop (by simp) _ _
  · exact builderTerminate_used retain route st

theorem truthful_wildcard (htype : tok.type = .wildcard) :
    WalksTruthful retain route (tok :: toks) := by
  intro cur st _ _
  rw [builderWalk, htype]
  dsimp only
  split
  · exact truthful_stop (by simp) _ _
  · exact truthful_stop (by simp) _ _
  · exact truthful_stop (by simp) _ _
  · exact truthful_stop (by simp) _ _
  split
  · exact truthful_stop (by simp) _ _
  · exact builderTerminate_used retain route st

theorem truthful_param (ih : WalksTruthful retain route toks) (htype : tok.type = .param) :
    WalksTruthful retain route (tok :: toks) := by
  intro cur st hl hp
  rw [builderWalk, htype]
  dsimp only
  split
  · exact truthful_stop (by simp) _ _
  · exact truthful_stop (by simp) _ _
  · split
    · exact truthful_stop (by simp) _ _
    have hcreate := segmentCreate_used hp tok st.world
    rcases hsegment : segmentCreate st.params tok st.world with ⟨e | ⟨p, block⟩, tbl, w⟩ <;>
      rw [hsegment] at hcreate
    · exact hcreate
    · exact hcreate.trans (ih p { st with params := tbl, world := w } hl
        ((grown_of_segmentCreate hsegment).arena hp))
  · split
    · exact truthful_stop (by simp) _ _
    split
    · exact truthful_stop (by simp) _ _
    · exact ih _ st hl hp
  · exact truthful_stop (by simp) _ _

theorem truthful_literal (ih : WalksTruthful retain route toks) (htype : tok.type = .literal) :
    WalksTruthful retain route (tok :: toks) := by
  intro cur st hl hp
  rw [builderWalk, htype]
  dsimp only
  split
  · exact truthful_stop (by simp) _ _
  · exact truthful_stop (by simp) _ _
  split
  · exact ih _ st hl hp
  have hcreate := segmentCreate_used hl tok st.world
  rcases hsegment : segmentCreate st.literals tok st.world with ⟨e | ⟨child, block⟩, tbl, w⟩ <;>
    rw [hsegment] at hcreate
  · exact hcreate
  dsimp only
  rcases happend : segmentAppendChild cur child with e | cur'
  · -- a full node is not a matter of memory
    obtain rfl := segmentAppendChild_error happend
    unfold Truthful
    dsimp only
    rw [free_answers]
    exact hcreate
  · exact hcreate.trans (ih _ { st with literals := tbl, world := w }
      ((grown_of_segmentCreate hsegment).arena hl) hp)

end Walk

/-- The walk, by induction on the tokens. -/
theorem builderWalk_truthful (retain : Bool) (route : Route) (toks : List Token) :
    WalksTruthful retain route toks := by
  induction toks with
  | nil =>
    intro cur st _ _
    exact truthful_stop (by simp) _ _
  | cons tok toks ih =>
    cases htype : tok.type with
    | end_ => exact truthful_end htype
    | trailing => exact truthful_trailing htype
    | wildcard => exact truthful_wildcard htype
    | param => exact truthful_param ih htype
    | literal => exact truthful_literal ih htype
    | illegal =>
      intro cur st _ _
      rw [builderWalk, htype]
      exact truthful_stop (by simp) _ _

end Wrouter
