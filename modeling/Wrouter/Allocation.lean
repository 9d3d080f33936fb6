import Wrouter.Lib.Runs
import Wrouter.Trace

/-!
# Ranges of an arena

Every request is served from the tail block or from a fresh one, and what was handed out
stays below what the block counts as used. The count is a machine word: a request so large
that the sum wraps passes for one that fits.
-/
namespace Wrouter

open Machine Runs

structure ArenaRequest where
  size : Nat
  align : Nat
  deriving DecidableEq, Repr

structure ArenaRequest.Proper (r : ArenaRequest) : Prop where
  align : ∃ k < 64, r.align = 2 ^ k
  size : r.size + r.align - 1 < 2 ^ 64

def arenaStep (r : ArenaRequest) (s : Arena × World) : Option Nat × Arena × World :=
  arenaAllocAligned s.1 r.size r.align s.2

def arenaServe (reqs : List ArenaRequest) (w : World) : List (Option Nat) × Arena × World :=
  run arenaStep reqs (.empty, w)

def ArenaBlock.span (b : ArenaBlock) : Nat × Nat := (b.base, b.size)

def Arena.spans (a : Arena) : List (Nat × Nat) := a.blocks.map ArenaBlock.span

def Apart (r s : Nat × Nat) : Prop := r.1 + r.2 ≤ s.1 ∨ s.1 + s.2 ≤ r.1

/-- What `malloc` promises: ranges inside the address space, none of them at NULL, and no
two that overlap. -/
structure Placed (ranges : List (Nat × Nat)) : Prop where
  inside : ∀ r ∈ ranges, 0 < r.1 ∧ r.1 + r.2 < 2 ^ 64
  apart : ranges.Pairwise Apart

def Arena.TailLast (a : Arena) : Prop :=
  a.tail = if a.blocks = [] then none else some (a.blocks.length - 1)

/-- Blocks stay where they are, and what is used of them stays used. -/
def Kept (a a' : Arena) : Prop :=
  ∀ (i : Nat) (b : ArenaBlock), a.blocks[i]? = some b →
    ∃ b' : ArenaBlock, a'.blocks[i]? = some b' ∧ b'.span = b.span ∧ b.used ≤ b'.used

/-- What holds of an arena and the ranges it handed out. -/
structure Sound (served : List (ArenaRequest × Nat)) (a : Arena) : Prop where
  aligned : ∀ s ∈ served, s.1.align ∣ s.2
  inside : ∀ s ∈ served, 0 < s.1.size →
    ∃ b ∈ a.blocks, b.base ≤ s.2 ∧ s.2 + s.1.size ≤ b.base + b.size
  apart : served.Pairwise fun s t =>
    0 < s.1.size → 0 < t.1.size → Apart (s.2, s.1.size) (t.2, t.1.size)
  used : ∀ b ∈ a.blocks, b.used ≤ b.size
  tail : a.TailLast

structure Filled (served : List (ArenaRequest × Nat)) (a : Arena) : Prop extends
    Sound served a where
  filled : ∀ s ∈ served, 0 < s.1.size →
    ∃ b ∈ a.blocks, b.base ≤ s.2 ∧ s.2 + s.1.size ≤ b.base + b.used

/-- What the block counts as used if it takes the request. -/
def taken (blk : ArenaBlock) (size align : Nat) : Nat :=
  blk.used + padding (blk.base + blk.used) align + size

/-- The request passes the check of the tail block only because the sum wrapped. -/
def Wraps (a : Arena) (r : ArenaRequest) : Prop :=
  ∃ b ∈ a.blocks.getLast?,
    2 ^ 64 ≤ taken b r.size r.align ∧ taken b r.size r.align % 2 ^ 64 ≤ b.size

instance (a : Arena) (r : ArenaRequest) : Decidable (Wraps a r) :=
  inferInstanceAs (Decidable (∃ b ∈ a.blocks.getLast?, _))

/-! ## One pass -/

section Pass

variable {a : Arena} {blk : ArenaBlock} {b k size : Nat}

theorem used_taken (size : Nat) (hk : k < 64) (hspace : blk.base + blk.used < 2 ^ 64) :
    addWord 64 blk.used (addWord 64 (subWord 64 (alignWord 64 (addWord 64 blk.base blk.used)
      (2 ^ k)) (addWord 64 blk.base blk.used)) size) = taken blk size (2 ^ k) % 2 ^ 64 := by
  rw [addWord_eq hspace, subWord_alignWord hk hspace, addWord_assoc, taken]

/-- A block inside the address space that takes the request. -/
theorem arenaLoop_hit (fuel : Nat) (w : World) (hblk : a.blocks[b]? = some blk) (hk : k < 64)
    (hspace : blk.base + blk.used < 2 ^ 64) (hfit : taken blk size (2 ^ k) % 2 ^ 64 ≤ blk.size) :
    arenaLoop size (2 ^ k) (fuel + 1) b a w =
      (some (addWord 64 (blk.base + blk.used) (padding (blk.base + blk.used) (2 ^ k))),
        ⟨a.blocks.set b { blk with used := taken blk size (2 ^ k) % 2 ^ 64 }, a.tail⟩, w) := by
  have hused := used_taken size hk hspace
  rw [arenaLoop, hblk]
  dsimp only
  rw [hused, if_pos hfit, addWord_eq hspace, alignWord_eq hk hspace]

/-- The last block passes the request on to a fresh one. -/
theorem arenaLoop_miss {new : ArenaBlock} (fuel : Nat) {w w' : World}
    (hblk : a.blocks[b]? = some blk) (hk : k < 64) (hspace : blk.base + blk.used < 2 ^ 64)
    (hfull : blk.size < taken blk size (2 ^ k) % 2 ^ 64) (hlast : b + 1 = a.blocks.length)
    (hnew : arenaNewBlock (subWord 64 (addWord 64 size (2 ^ k)) 1) w = (some new, w')) :
    arenaLoop size (2 ^ k) (fuel + 1) b a w =
      arenaLoop size (2 ^ k) fuel (b + 1) ⟨a.blocks ++ [new], some (b + 1)⟩ w' := by
  have hused := used_taken size hk hspace
  rw [arenaLoop, hblk]
  dsimp only
  rw [hused, if_neg (by omega), if_neg (by omega), hnew]

/-- The size asked of a new block. -/
theorem request_size {r : ArenaRequest} (hr : r.Proper) :
    subWord 64 (addWord 64 r.size r.align) 1 = r.size + r.align - 1 := by
  obtain ⟨k, -, hk⟩ := hr.align
  have hsize := hr.size
  have := Nat.two_pow_pos k
  unfold subWord addWord
  omega

/-- A fresh block takes the request it was made for, at any address. -/
theorem fresh_taken {r : ArenaRequest} (hr : r.Proper) (hfresh : blk.used = 0) :
    padding blk.base r.align + r.size ≤ r.size + r.align - 1 ∧
      taken blk r.size r.align % 2 ^ 64 = padding blk.base r.align + r.size := by
  obtain ⟨k, -, hk⟩ := hr.align
  have hsize := hr.size
  have hpad := padding_lt blk.base (show 0 < r.align by rw [hk]; exact Nat.two_pow_pos k)
  refine ⟨by omega, ?_⟩
  rw [taken, hfresh, Nat.zero_add, Nat.add_zero, Nat.mod_eq_of_lt (by omega)]

end Pass

/-! ## One call -/

theorem arenaNewBlock_fresh {n : Nat} {w w' : World} {b : ArenaBlock}
    (h : arenaNewBlock n w = (some b, w')) : b.used = 0 ∧ n ≤ b.size := by
  unfold arenaNewBlock at h
  dsimp only at h
  split at h
  · simp at h
  split at h
  · simp at h
  · simp only [Prod.mk.injEq, Option.some.injEq] at h
    obtain ⟨rfl, -⟩ := h
    refine ⟨rfl, ?_⟩
    dsimp only
    split <;> omega

theorem set_same {α : Type} {l : List α} {i : Nat} {x : α} (h : l[i]? = some x) :
    l.set i x = l := by
  obtain ⟨hi, rfl⟩ := List.getElem?_eq_some_iff.mp h
  exact List.set_getElem_self hi

/-- Blocks are only appended, and none of them changes its range. -/
theorem arenaLoop_spans (size align fuel b : Nat) (a : Arena) (w : World) :
    a.spans <+: (arenaLoop size align fuel b a w).2.1.spans := by
  induction fuel generalizing b a w with
  | zero => exact List.prefix_rfl
  | succ fuel ih =>
    rw [arenaLoop]
    cases hblk : a.blocks[b]? with
    | none => exact List.prefix_rfl
    | some blk =>
      dsimp only
      split
      · refine ⟨[], ?_⟩
        rw [List.append_nil, Arena.spans, Arena.spans, List.map_set]
        refine (set_same ?_).symm
        rw [List.getElem?_map, hblk, Option.map_some, ArenaBlock.span, ArenaBlock.span]
      split
      · exact ih _ _ _
      split
      · exact List.prefix_rfl
      · refine List.IsPrefix.trans ?_ (ih _ _ _)
        simp [Arena.spans]

/-- An allocation hands out new blocks behind those there are, and moves none. -/
theorem arenaAllocPasses_spans (passes : Nat) (a : Arena) (size align : Nat) (w : World) :
    a.spans <+: (arenaAllocPasses passes a size align w).2.1.spans := by
  unfold arenaAllocPasses
  cases hblocks : a.blocks with
  | nil => exact ⟨_, by rw [Arena.spans, hblocks, List.map_nil, List.nil_append]⟩
  | cons b rest => exact arenaLoop_spans _ _ _ _ _ _

inductive Grant (r : ArenaRequest) : Arena → Nat → Arena → Prop
  | tail (init : List ArenaBlock) (b : ArenaBlock) :
    b.base + b.used < 2 ^ 64 → taken b r.size r.align % 2 ^ 64 ≤ b.size →
    Grant r ⟨init ++ [b], some init.length⟩
      (addWord 64 (b.base + b.used) (padding (b.base + b.used) r.align))
      ⟨init ++ [{ b with used := taken b r.size r.align % 2 ^ 64 }], some init.length⟩
  | fresh (a : Arena) (b : ArenaBlock) :
    (∀ l ∈ a.blocks.getLast?, l.size < taken l r.size r.align % 2 ^ 64) →
    b.base + b.size < 2 ^ 64 → r.size + r.align - 1 ≤ b.size →
    Grant r a (b.base + padding b.base r.align)
      ⟨a.blocks ++ [{ b with used := padding b.base r.align + r.size }], some a.blocks.length⟩

/-- The pass over a block that was just appended. -/
theorem arenaLoop_fresh {r : ArenaRequest} (hr : r.Proper) (blocks : List ArenaBlock)
    {b : ArenaBlock} (hfresh : b.used = 0) (fuel : Nat) (w : World)
    (hsize : r.size + r.align - 1 ≤ b.size) (hspace : b.base + b.size < 2 ^ 64) :
    arenaLoop r.size r.align (fuel + 1) blocks.length ⟨blocks ++ [b], some blocks.length⟩ w =
      (some (b.base + padding b.base r.align),
        ⟨blocks ++ [{ b with used := padding b.base r.align + r.size }],
          some blocks.length⟩, w) := by
  obtain ⟨hle, htaken⟩ := fresh_taken hr hfresh
  obtain ⟨k, hk, halign⟩ := hr.align
  have hblk : (blocks ++ [b])[blocks.length]? = some b := by simp
  have hsum : b.base + b.used = b.base := by rw [hfresh, Nat.add_zero]
  rw [halign] at hle htaken ⊢
  rw [arenaLoop_hit fuel w hblk hk (by omega) (by omega), htaken, hsum, addWord_eq (by omega)]
  simp

/-- From the last block on the loop starts at once. -/
theorem arenaAllocPasses_concat (passes : Nat) (init : List ArenaBlock) (b : ArenaBlock)
    (size align : Nat) (w : World) :
    arenaAllocPasses passes ⟨init ++ [b], some init.length⟩ size align w =
      arenaLoop size align passes init.length ⟨init ++ [b], some init.length⟩ w := by
  unfold arenaAllocPasses
  cases init <;> rfl

/-- The block the loop starts at. -/
theorem Arena.TailLast.concat {init : List ArenaBlock} {b : ArenaBlock} {t : Option Nat}
    (h : (Arena.mk (init ++ [b]) t).TailLast) : t = some init.length := by
  simpa [Arena.TailLast] using h

/-- The tail block takes the request in the first pass. -/
theorem grant_tail {r : ArenaRequest} (hr : r.Proper) {init : List ArenaBlock} {b : ArenaBlock}
    (hspace : b.base + b.used < 2 ^ 64) (hfit : taken b r.size r.align % 2 ^ 64 ≤ b.size)
    (fuel : Nat) (w : World) :
    arenaAllocPasses (fuel + 1) ⟨init ++ [b], some init.length⟩ r.size r.align w =
      (some (addWord 64 (b.base + b.used) (padding (b.base + b.used) r.align)),
        ⟨init ++ [{ b with used := taken b r.size r.align % 2 ^ 64 }], some init.length⟩, w) := by
  obtain ⟨k, hk, halign⟩ := hr.align
  have hblk : (init ++ [b])[init.length]? = some b := by simp
  rw [halign] at hfit ⊢
  rw [arenaAllocPasses_concat, arenaLoop_hit fuel w hblk hk hspace hfit]
  simp

/-- Without room in the tail block the request waits for a fresh one. -/
theorem grant_fresh {r : ArenaRequest} (hr : r.Proper) {a : Arena} (htail : a.TailLast)
    (hspace : ∀ l ∈ a.blocks.getLast?, l.base + l.used < 2 ^ 64)
    (hfull : ∀ l ∈ a.blocks.getLast?, l.size < taken l r.size r.align % 2 ^ 64)
    {new : ArenaBlock} {w w' : World}
    (hnew : arenaNewBlock (r.size + r.align - 1) w = (some new, w')) :
    ∀ fuel, ∃ fuel', fuel ≤ fuel' ∧ arenaAllocPasses (fuel + 1) a r.size r.align w =
      arenaLoop r.size r.align fuel' a.blocks.length
        ⟨a.blocks ++ [new], some a.blocks.length⟩ w' := by
  intro fuel
  obtain ⟨blocks, tail⟩ := a
  rw [← request_size hr] at hnew
  rcases List.eq_nil_or_concat' blocks with rfl | ⟨init, b, rfl⟩
  · refine ⟨fuel + 1, by omega, ?_⟩
    rw [arenaAllocPasses, hnew]
    rfl
  · obtain rfl := htail.concat
    obtain ⟨k, hk, halign⟩ := hr.align
    have hblk : (init ++ [b])[init.length]? = some b := by simp
    have hb := hspace b (by simp)
    have hmiss := hfull b (by simp)
    refine ⟨fuel, Nat.le_refl _, ?_⟩
    rw [halign] at hmiss hnew ⊢
    rw [arenaAllocPasses_concat, arenaLoop_miss fuel hblk hk hb hmiss (by simp) hnew,
      List.length_append, List.length_singleton]

/-- A call that needs a block and gets none fails. -/
theorem grant_none {r : ArenaRequest} (hr : r.Proper) {a : Arena} (htail : a.TailLast)
    (hspace : ∀ l ∈ a.blocks.getLast?, l.base + l.used < 2 ^ 64)
    (hfull : ∀ l ∈ a.blocks.getLast?, l.size < taken l r.size r.align % 2 ^ 64) {w w' : World}
    (hnew : arenaNewBlock (r.size + r.align - 1) w = (none, w')) (fuel : Nat) :
    (arenaAllocPasses (fuel + 1) a r.size r.align w).1 = none := by
  obtain ⟨blocks, tail⟩ := a
  rw [← request_size hr] at hnew
  rcases List.eq_nil_or_concat' blocks with rfl | ⟨init, b, rfl⟩
  · rw [arenaAllocPasses, hnew]
  · obtain rfl := htail.concat
    obtain ⟨k, hk, halign⟩ := hr.align
    have hblk : (init ++ [b])[init.length]? = some b := by simp
    have hb := hspace b (by simp)
    have hmiss := hfull b (by simp)
    have hused := used_taken r.size hk hb
    rw [halign] at hmiss hnew ⊢
    rw [arenaAllocPasses_concat, arenaLoop, hblk]
    dsimp only
    rw [hused, if_neg (by omega), if_neg (by simp), hnew]

/-- Whatever memory does, a proper request is granted or fails, and two passes are enough. -/
theorem arenaAllocAligned_cases {r : ArenaRequest} (hr : r.Proper) {a : Arena} (w : World)
    (htail : a.TailLast) (hused : ∀ b ∈ a.blocks, b.used ≤ b.size)
    (hspace : ∀ s ∈ (arenaAllocAligned a r.size r.align w).2.1.spans, s.1 + s.2 < 2 ^ 64) :
    (∃ addr a' w', Grant r a addr a' ∧ ∀ passes, 2 ≤ passes →
      arenaAllocPasses passes a r.size r.align w = (some addr, a', w')) ∨
    ((arenaNewBlock (r.size + r.align - 1) w).1 = none ∧
      (arenaAllocAligned a r.size r.align w).1 = none) := by
  have hblocks : ∀ l ∈ a.blocks, l.base + l.used < 2 ^ 64 := by
    intro l hl
    have := hspace l.span ((arenaAllocPasses_spans _ _ _ _ _).subset (List.mem_map_of_mem hl))
    have := hused l hl
    simp only [ArenaBlock.span] at *
    omega
  have hlast : ∀ l ∈ a.blocks.getLast?, l.base + l.used < 2 ^ 64 :=
    fun l hl => hblocks l (List.mem_of_getLast? hl)
  by_cases hfit : ∃ l ∈ a.blocks.getLast?, taken l r.size r.align % 2 ^ 64 ≤ l.size
  · obtain ⟨b, hb, hfit⟩ := hfit
    obtain ⟨blocks, tail⟩ := a
    rcases List.eq_nil_or_concat' blocks with rfl | ⟨init, c, rfl⟩
    · simp at hb
    obtain rfl : c = b := by simpa using hb
    obtain rfl := htail.concat
    have hc := hblocks c (by simp)
    refine Or.inl ⟨_, _, w, .tail init c hc hfit, fun passes h2 => ?_⟩
    obtain ⟨fuel, rfl⟩ : ∃ fuel, passes = fuel + 1 := ⟨passes - 1, by omega⟩
    exact grant_tail hr hc hfit fuel w
  · have hfull : ∀ l ∈ a.blocks.getLast?, l.size < taken l r.size r.align % 2 ^ 64 := by
      intro l hl
      by_contra hle
      exact hfit ⟨l, hl, by omega⟩
    rcases hnew : arenaNewBlock (r.size + r.align - 1) w with ⟨_ | new, w'⟩
    · exact Or.inr ⟨rfl, grant_none hr htail hlast hfull hnew _⟩
    obtain ⟨hfresh, hsize⟩ := arenaNewBlock_fresh hnew
    have hnext := grant_fresh hr htail hlast hfull hnew
    have hnewSpace : new.base + new.size < 2 ^ 64 := by
      obtain ⟨fuel', -, heq⟩ := hnext (a.blocks.length + 1)
      rw [arenaAllocAligned, heq] at hspace
      exact hspace new.span ((arenaLoop_spans _ _ _ _ _ _).subset (by simp [Arena.spans]))
    refine Or.inl ⟨_, _, w', .fresh a new hfull hnewSpace hsize, fun passes h2 => ?_⟩
    obtain ⟨fuel, rfl⟩ : ∃ fuel, passes = fuel + 1 + 1 := ⟨passes - 2, by omega⟩
    obtain ⟨fuel', hle, heq⟩ := hnext (fuel + 1)
    obtain ⟨rest, rfl⟩ : ∃ rest, fuel' = rest + 1 := ⟨fuel' - 1, by omega⟩
    rw [heq]
    exact arenaLoop_fresh hr a.blocks hfresh rest w' hsize hnewSpace

/-! ## What a call keeps -/

/-- Ranges handed out so far are placed if all that follow are. -/
theorem Placed.of_prefix {l m : List (Nat × Nat)} (h : l <+: m) (hm : Placed m) : Placed l :=
  ⟨fun r hr => hm.inside r (h.subset hr), hm.apart.sublist h.sublist⟩

/-- Parts of ranges that lie apart lie apart. -/
theorem Apart.anti {r s r' s' : Nat × Nat} (h : Apart r s) (hr : r.1 ≤ r'.1)
    (hr' : r'.1 + r'.2 ≤ r.1 + r.2) (hs : s.1 ≤ s'.1) (hs' : s'.1 + s'.2 ≤ s.1 + s.2) :
    Apart r' s' := by
  unfold Apart at h ⊢
  omega

theorem filled_empty : Filled [] Arena.empty where
  aligned := by simp
  inside := by simp
  apart := .nil
  used := by simp [Arena.empty]
  tail := rfl
  filled := by simp

theorem Kept.refl (a : Arena) : Kept a a := fun _ b hb => ⟨b, hb, rfl, Nat.le_refl _⟩

theorem Kept.trans {a b c : Arena} (h : Kept a b) (h' : Kept b c) : Kept a c := by
  intro i x hx
  obtain ⟨y, hy, hspan, hused⟩ := h i x hx
  obtain ⟨z, hz, hspan', hused'⟩ := h' i y hy
  exact ⟨z, hz, hspan'.trans hspan, hused.trans hused'⟩

/-- The blocks of the grown arena, each with a range of its own. -/
theorem Kept.block {a a' : Arena} (h : Kept a a') {b : ArenaBlock} (hb : b ∈ a.blocks) :
    ∃ b' ∈ a'.blocks, b'.span = b.span ∧ b.used ≤ b'.used := by
  obtain ⟨i, hi⟩ := List.mem_iff_getElem?.mp hb
  obtain ⟨b', hb', hspan, hle⟩ := h i b hi
  exact ⟨b', List.mem_of_getElem? hb', hspan, hle⟩

/-- A range that stays away from everything in use may be handed out. -/
theorem Filled.grant {served : List (ArenaRequest × Nat)} {a a' : Arena} {r : ArenaRequest}
    {addr : Nat} (h : Filled served a) (hkept : Kept a a') (haligned : r.align ∣ addr)
    (hin : ∃ b ∈ a'.blocks, b.base ≤ addr ∧ addr + r.size ≤ b.base + b.used)
    (haway : ∀ b ∈ a.blocks, Apart (b.base, b.used) (addr, r.size))
    (hused : ∀ b ∈ a'.blocks, b.used ≤ b.size) (htail : a'.TailLast) :
    Filled (served ++ [(r, addr)]) a' := by
  have hfilled : ∀ s ∈ served ++ [(r, addr)], 0 < s.1.size →
      ∃ b ∈ a'.blocks, b.base ≤ s.2 ∧ s.2 + s.1.size ≤ b.base + b.used := by
    intro s hs hpos
    rcases List.mem_append.mp hs with hs | hs
    · obtain ⟨b, hb, hlo, hhi⟩ := h.filled s hs hpos
      obtain ⟨b', hb', hspan, hle⟩ := hkept.block hb
      obtain ⟨hbase, -⟩ := Prod.mk.inj hspan
      exact ⟨b', hb', by omega, by omega⟩
    · obtain rfl := List.mem_singleton.mp hs
      exact hin
  refine ⟨⟨?_, ?_, ?_, hused, htail⟩, hfilled⟩
  · intro s hs
    rcases List.mem_append.mp hs with hs | hs
    · exact h.aligned s hs
    · obtain rfl := List.mem_singleton.mp hs
      exact haligned
  · intro s hs hpos
    obtain ⟨b, hb, hlo, hhi⟩ := hfilled s hs hpos
    have := hused b hb
    exact ⟨b, hb, hlo, by omega⟩
  · refine List.pairwise_append.mpr ⟨h.apart, List.pairwise_singleton _ _, ?_⟩
    intro s hs t ht hspos htpos
    obtain rfl := List.mem_singleton.mp ht
    obtain ⟨b, hb, hlo, hhi⟩ := h.filled s hs hspos
    exact (haway b hb).anti hlo hhi (Nat.le_refl _) (Nat.le_refl _)

/-- Using more of the last block keeps all blocks. -/
theorem kept_tail {init : List ArenaBlock} {b b' : ArenaBlock} (t t' : Option Nat)
    (hspan : b'.span = b.span) (hused : b.used ≤ b'.used) :
    Kept ⟨init ++ [b], t⟩ ⟨init ++ [b'], t'⟩ := by
  intro i c hc
  rcases Nat.lt_or_ge i init.length with hi | hi
  · refine ⟨c, ?_, rfl, Nat.le_refl _⟩
    rw [List.getElem?_append_left hi] at hc ⊢
    exact hc
  · rw [List.getElem?_append_right hi] at hc
    obtain ⟨hz, rfl⟩ := List.getElem?_eq_some_iff.mp hc
    have hzero : i - init.length = 0 := by simpa using hz
    refine ⟨b', ?_, by simpa using hspan, by simpa using hused⟩
    rw [List.getElem?_append_right hi, hzero]
    rfl

theorem kept_append (a : Arena) (new : List ArenaBlock) (t : Option Nat) :
    Kept a ⟨a.blocks ++ new, t⟩ := by
  intro i c hc
  refine ⟨c, ?_, rfl, Nat.le_refl _⟩
  have hi := (List.getElem?_eq_some_iff.mp hc).1
  rw [List.getElem?_append_left hi]
  exact hc

/-- The last block lies apart from those before it. -/
theorem Placed.last {init : List ArenaBlock} {b : ArenaBlock} {t : Option Nat}
    (h : Placed (Arena.mk (init ++ [b]) t).spans) :
    b.base + b.size < 2 ^ 64 ∧ ∀ c ∈ init, Apart c.span b.span := by
  have hapart := h.apart
  rw [Arena.spans, List.map_append, List.pairwise_append] at hapart
  refine ⟨(h.inside b.span (by simp [Arena.spans])).2, fun c hc => ?_⟩
  exact hapart.2.2 c.span (List.mem_map_of_mem hc) b.span (by simp)

/-- One call: the blocks are kept and the range is a new one, unless the request overruns. -/
theorem Grant.filled {served : List (ArenaRequest × Nat)} {a a' : Arena} {r : ArenaRequest}
    {addr : Nat} (hg : Grant r a addr a') (hr : r.Proper) (h : Filled served a)
    (hplaced : Placed a'.spans) (hfit : ¬ Wraps a r) :
    Kept a a' ∧ Filled (served ++ [(r, addr)]) a' := by
  have hpos : 0 < r.align := by
    obtain ⟨k, -, hk⟩ := hr.align
    rw [hk]
    exact Nat.two_pow_pos k
  cases hg with
  | tail init b hspace hle =>
    have htaken : taken b r.size r.align < 2 ^ 64 := by
      by_contra hover
      exact hfit ⟨b, by simp, by omega, hle⟩
    rw [Nat.mod_eq_of_lt htaken] at hle hplaced ⊢
    have hsum : taken b r.size r.align =
        b.used + padding (b.base + b.used) r.align + r.size := rfl
    obtain ⟨hend, hlast⟩ := hplaced.last
    dsimp only at hend
    rw [addWord_eq (by omega)]
    have hkept : Kept ⟨init ++ [b], some init.length⟩
        ⟨init ++ [{ b with used := taken b r.size r.align }], some init.length⟩ :=
      kept_tail _ _ rfl (by dsimp only; omega)
    refine ⟨hkept, h.grant hkept (dvd_add_padding _ hpos) ?_ ?_ ?_ ?_⟩
    · exact ⟨{ b with used := taken b r.size r.align }, by simp, by dsimp only; omega,
        by dsimp only; omega⟩
    · intro c hc
      have hcused := h.used c hc
      rcases List.mem_append.mp hc with hc | hc
      · exact (hlast c hc).anti (Nat.le_refl _) (by simp only [ArenaBlock.span]; omega)
          (by simp only [ArenaBlock.span]; omega) (by simp only [ArenaBlock.span]; omega)
      · obtain rfl := List.mem_singleton.mp hc
        exact Or.inl (by dsimp only; omega)
    · intro c hc
      rcases List.mem_append.mp hc with hc | hc
      · exact h.used c (List.mem_append_left _ hc)
      · obtain rfl := List.mem_singleton.mp hc
        exact hle
    · simp [Arena.TailLast]
  | fresh _ b hfull hspace hle =>
    have hpad := padding_lt b.base hpos
    obtain ⟨-, hlast⟩ := hplaced.last
    have hkept := kept_append a [{ b with used := padding b.base r.align + r.size }]
      (some a.blocks.length)
    refine ⟨hkept, h.grant hkept (dvd_add_padding _ hpos) ?_ ?_ ?_ ?_⟩
    · exact ⟨{ b with used := padding b.base r.align + r.size }, by simp, by dsimp only; omega,
        by dsimp only; omega⟩
    · intro c hc
      have hcused := h.used c hc
      exact (hlast c hc).anti (Nat.le_refl _) (by simp only [ArenaBlock.span]; omega)
        (by simp only [ArenaBlock.span]; omega) (by simp only [ArenaBlock.span]; omega)
    · intro c hc
      rcases List.mem_append.mp hc with hc | hc
      · exact h.used c hc
      · obtain rfl := List.mem_singleton.mp hc
        dsimp only
        omega
    · simp [Arena.TailLast]

/-- Without alignment the blocks count just what was asked for. -/
theorem Grant.used_sum {a a' : Arena} {r : ArenaRequest} {addr : Nat} (hg : Grant r a addr a')
    (halign : r.align = 1) (hfit : ¬ Wraps a r) :
    (a'.blocks.map ArenaBlock.used).sum = (a.blocks.map ArenaBlock.used).sum + r.size := by
  cases hg with
  | tail init b _ hle =>
    have htaken : taken b r.size r.align < 2 ^ 64 := by
      by_contra hover
      exact hfit ⟨b, by simp, by omega, hle⟩
    have hsum : taken b r.size r.align = b.used + r.size := by
      rw [taken, halign, padding_one, Nat.add_zero]
    rw [Nat.mod_eq_of_lt htaken, hsum]
    simp [Nat.add_assoc]
  | fresh _ b _ _ _ => simp [halign, padding_one]

/-- A request that overruns gets a range that lies in no block at all. -/
theorem Grant.wraps {a a' : Arena} {r : ArenaRequest} {addr : Nat} (hg : Grant r a addr a')
    (hr : r.Proper) (hover : Wraps a r) (hused : ∀ b ∈ a.blocks, b.used ≤ b.size)
    {ranges : List (Nat × Nat)} (hplaced : Placed ranges) (hspans : a.spans <+: ranges) :
    0 < r.size ∧ ∀ s ∈ ranges, ¬ (s.1 ≤ addr ∧ addr + r.size ≤ s.1 + s.2) := by
  obtain ⟨l, hl, hwrap, hle⟩ := hover
  cases hg with
  | fresh _ b hfull _ _ =>
    have := hfull l hl
    omega
  | tail init b hspace _ =>
    obtain rfl : b = l := by simpa using hl
    obtain ⟨k, hk, halign⟩ := hr.align
    have hdvd : r.align ∣ 2 ^ 64 := by
      rw [halign]
      exact Nat.pow_dvd_pow 2 (by omega)
    have hnext := padding_le hdvd (Nat.le_of_lt hspace)
    have hsum : taken b r.size r.align =
        b.used + padding (b.base + b.used) r.align + r.size := rfl
    have hbase := (hplaced.inside b.span (hspans.subset (by simp [Arena.spans]))).1
    dsimp only [ArenaBlock.span] at hbase
    refine ⟨by omega, fun s hs ⟨hlo, hhi⟩ => ?_⟩
    obtain ⟨hpos, hend⟩ := hplaced.inside s hs
    -- either the address itself wrapped to NULL, or the range leaves the address space
    rcases Nat.lt_or_ge (b.base + b.used + padding (b.base + b.used) r.align) (2 ^ 64) with h | h
    · rw [addWord_eq h] at hhi
      omega
    · have hzero : addWord 64 (b.base + b.used) (padding (b.base + b.used) r.align) = 0 := by
        rw [addWord, Nat.le_antisymm hnext h, Nat.mod_self]
      omega

/-! ## Runs -/

structure Continues (s t : Arena × World) : Prop where
  spans : s.1.spans <+: t.1.spans
  quiet : Quiet s.2 t.2

theorem Continues.refl (s : Arena × World) : Continues s s := ⟨List.prefix_rfl, .refl _⟩

theorem Continues.trans {s t u : Arena × World} (h : Continues s t) (h' : Continues t u) :
    Continues s u :=
  ⟨h.spans.trans h'.spans, h.quiet.trans h'.quiet⟩

/-- The step lemma: no call moves a block, uses less of one or runs a callback. -/
theorem arenaStep_continues (r : ArenaRequest) (s : Arena × World) :
    Continues s (arenaStep r s).2 :=
  ⟨arenaAllocPasses_spans _ s.1 r.size r.align s.2, quiet_arenaAllocPasses _ s.1 r.size r.align s.2⟩

/-- More requests only add blocks. -/
theorem arenaServe_spans {pre reqs : List ArenaRequest} (h : pre <+: reqs) (w : World) :
    (arenaServe pre w).2.1.spans <+: (arenaServe reqs w).2.1.spans :=
  (run_prefix_rel Continues.refl Continues.trans arenaStep_continues h (.empty, w)).spans

theorem arenaServe_quiet (reqs : List ArenaRequest) (w : World) :
    Quiet w (arenaServe reqs w).2.2 :=
  (run_prefix_rel Continues.refl Continues.trans arenaStep_continues reqs.nil_prefix
    (.empty, w)).quiet

structure CallSound (w : World) (pre : List ArenaRequest) (r : ArenaRequest) : Prop where
  passes : ∀ passes, 2 ≤ passes → arenaAllocPasses passes (arenaServe pre w).2.1 r.size r.align
    (arenaServe pre w).2.2 = arenaStep r (arenaServe pre w).2
  kept : Kept (arenaServe pre w).2.1 (arenaServe (pre ++ [r]) w).2.1
  sound : ∃ addrs : List Nat, (arenaServe (pre ++ [r]) w).1 = addrs.map some ∧
    Sound ((pre ++ [r]).zip addrs) (arenaServe (pre ++ [r]) w).2.1

section Run

variable {reqs : List ArenaRequest} {w : World}

/-- One more call of a run. -/
theorem arenaServe_step (hw : w.NoFail) (hreqs : ∀ r ∈ reqs, r.Proper)
    (hplaced : Placed (arenaServe reqs w).2.1.spans) {pre : List ArenaRequest} {r : ArenaRequest}
    (hpre : pre ++ [r] <+: reqs) (hused : ∀ b ∈ (arenaServe pre w).2.1.blocks, b.used ≤ b.size)
    (htail : (arenaServe pre w).2.1.TailLast) :
    ∃ addr, (arenaStep r (arenaServe pre w).2).1 = some addr ∧
      Grant r (arenaServe pre w).2.1 addr (arenaServe (pre ++ [r]) w).2.1 ∧
      ∀ passes, 2 ≤ passes → arenaAllocPasses passes (arenaServe pre w).2.1 r.size r.align
        (arenaServe pre w).2.2 = arenaStep r (arenaServe pre w).2 := by
  have hw' := noFail_of_suffix hw (arenaServe_quiet pre w).answers
  have hplaced' := hplaced.of_prefix (arenaServe_spans hpre w)
  have hnext : (arenaServe (pre ++ [r]) w).2 = (arenaStep r (arenaServe pre w).2).2 :=
    congrArg Prod.snd (run_snoc arenaStep pre r _)
  rw [hnext] at hplaced' ⊢
  rcases arenaAllocAligned_cases (hreqs r (hpre.subset (by simp))) (arenaServe pre w).2.2 htail hused
    (fun s hs => (hplaced'.inside s hs).2) with ⟨addr, a', w₁, hgrant, hrun⟩ | ⟨hnone, -⟩
  · have halloc : arenaStep r (arenaServe pre w).2 = (some addr, a', w₁) := hrun _ (by omega)
    rw [halloc]
    exact ⟨addr, rfl, hgrant, hrun⟩
  · obtain ⟨base, size, w₁, hnew, -⟩ := arenaNewBlock_some hw' (r.size + r.align - 1)
    rw [hnew] at hnone
    exact absurd hnone (Option.some_ne_none _)

theorem arenaServe_snoc {pre : List ArenaRequest} {r : ArenaRequest} {addr : Nat}
    (h : (arenaStep r (arenaServe pre w).2).1 = some addr) :
    (arenaServe (pre ++ [r]) w).1 = (arenaServe pre w).1 ++ [some addr] := by
  rw [arenaServe, run_snoc, ← arenaServe, h]

/-- As long as no request overruns, every range lies in the used part of its block. -/
theorem arenaServe_filled (hw : w.NoFail) (hreqs : ∀ r ∈ reqs, r.Proper)
    (hplaced : Placed (arenaServe reqs w).2.1.spans)
    (hfit : ∀ pre r, pre ++ [r] <+: reqs → ¬ Wraps (arenaServe pre w).2.1 r)
    {pre : List ArenaRequest} (hpre : pre <+: reqs) :
    ∃ addrs : List Nat, (arenaServe pre w).1 = addrs.map some ∧
      addrs.length = pre.length ∧ Filled (pre.zip addrs) (arenaServe pre w).2.1 := by
  refine run_invariant (fun pre answers (s : Arena × World) => ∃ addrs : List Nat,
    answers = addrs.map some ∧ addrs.length = pre.length ∧ Filled (pre.zip addrs) s.1)
    ?_ (fun pre r hpre hkept => ?_) hpre
  · exact ⟨[], rfl, rfl, filled_empty⟩
  · obtain ⟨addrs, haddrs, hlen, hfilled⟩ := hkept
    obtain ⟨addr, hreturn, hgrant, -⟩ :=
      arenaServe_step hw hreqs hplaced hpre hfilled.used hfilled.tail
    refine ⟨addrs ++ [addr], ?_, by simp [hlen], ?_⟩
    · rw [haddrs, List.map_append]
      exact congrArg (addrs.map some ++ [·]) hreturn
    · have hnext := (hgrant.filled (hreqs r (hpre.subset (by simp))) hfilled
        (hplaced.of_prefix (arenaServe_spans hpre w)) (hfit pre r hpre)).2
      rw [← zip_snoc hlen, arenaServe, run_snoc] at hnext
      exact hnext

/-- In a run without failures every call keeps its promises, exactly when none of the requests
overruns the tail block it finds. -/
theorem arena_sound (hw : w.NoFail) (hreqs : ∀ r ∈ reqs, r.Proper)
    (hplaced : Placed (arenaServe reqs w).2.1.spans) :
    (∀ pre r, pre ++ [r] <+: reqs → CallSound w pre r) ↔
      ∀ pre r, pre ++ [r] <+: reqs → ¬ Wraps (arenaServe pre w).2.1 r := by
  constructor
  · intro hsound pre r hpre hover
    have hstate : (∀ b ∈ (arenaServe pre w).2.1.blocks, b.used ≤ b.size) ∧
        (arenaServe pre w).2.1.TailLast := by
      rcases List.eq_nil_or_concat' pre with rfl | ⟨init, q, rfl⟩
      · exact ⟨filled_empty.used, filled_empty.tail⟩
      · obtain ⟨addrs, -, h⟩ := (hsound init q ((List.prefix_append _ [r]).trans hpre)).sound
        exact ⟨h.used, h.tail⟩
    obtain ⟨addr, hreturn, hgrant, -⟩ :=
      arenaServe_step hw hreqs hplaced hpre hstate.1 hstate.2
    obtain ⟨hpos, hnowhere⟩ := hgrant.wraps (hreqs r (hpre.subset (by simp))) hover hstate.1
      (hplaced.of_prefix (arenaServe_spans hpre w)) (arenaServe_spans (List.prefix_append pre [r]) w)
    obtain ⟨addrs, haddrs, h⟩ := (hsound pre r hpre).sound
    obtain ⟨before, last, rfl, hbefore, hlast⟩ :=
      List.append_eq_map_iff.mp ((arenaServe_snoc hreturn).symm.trans haddrs)
    obtain rfl : last = [addr] := by
      rwa [← List.map_singleton, (List.map_injective_iff.mpr (Option.some_injective Nat)).eq_iff]
        at hlast
    have hlen : before.length = pre.length := by
      rw [← length_run arenaStep pre (.empty, w), ← arenaServe, ← hbefore, List.length_map]
    rw [zip_snoc hlen] at h
    obtain ⟨b, hb, hlo, hhi⟩ := h.inside (r, addr) (by simp) hpos
    exact hnowhere b.span (List.mem_map_of_mem hb) ⟨hlo, hhi⟩
  · intro hfit pre r hpre
    obtain ⟨addrs, haddrs, hlen, hfilled⟩ :=
      arenaServe_filled hw hreqs hplaced hfit ((List.prefix_append pre [r]).trans hpre)
    obtain ⟨addr, hreturn, hgrant, hpasses⟩ :=
      arenaServe_step hw hreqs hplaced hpre hfilled.used hfilled.tail
    obtain ⟨hkept, hnext⟩ := hgrant.filled (hreqs r (hpre.subset (by simp))) hfilled
      (hplaced.of_prefix (arenaServe_spans hpre w)) (hfit pre r hpre)
    refine ⟨hpasses, hkept, addrs ++ [addr], ?_, ?_⟩
    · rw [arenaServe_snoc hreturn, haddrs, List.map_append]
      rfl
    · rw [zip_snoc hlen]
      exact hnext.toSound

end Run

/-- Three alignments in one block at an odd address. -/
theorem arena_sound_mixed : CallSound ⟨[some 16, some 4097], 0, []⟩ [] ⟨1, 1⟩ ∧
    CallSound ⟨[some 16, some 4097], 0, []⟩ [⟨1, 1⟩] ⟨4, 4⟩ ∧
    CallSound ⟨[some 16, some 4097], 0, []⟩ [⟨1, 1⟩, ⟨4, 4⟩] ⟨8, 8⟩ := by
  have hproper : ∀ r ∈ [(⟨1, 1⟩ : ArenaRequest), ⟨4, 4⟩, ⟨8, 8⟩], r.Proper := by
    simp only [List.mem_cons, List.not_mem_nil, or_false, forall_eq_or_imp, forall_eq]
    exact ⟨⟨⟨0, by decide, rfl⟩, by decide⟩, ⟨⟨2, by decide, rfl⟩, by decide⟩,
      ⟨⟨3, by decide, rfl⟩, by decide⟩⟩
  have hplaced : Placed (arenaServe [⟨1, 1⟩, ⟨4, 4⟩, ⟨8, 8⟩]
      ⟨[some 16, some 4097], 0, []⟩).2.1.spans := by
    have hspans : (arenaServe [⟨1, 1⟩, ⟨4, 4⟩, ⟨8, 8⟩]
        ⟨[some 16, some 4097], 0, []⟩).2.1.spans = [(4097, 4096)] := by decide +kernel
    rw [hspans]
    exact ⟨by decide, List.pairwise_singleton _ _⟩
  have hfit : ∀ i < 3, ∀ r ∈ [(⟨1, 1⟩ : ArenaRequest), ⟨4, 4⟩, ⟨8, 8⟩][i]?,
      ¬ Wraps (arenaServe ([⟨1, 1⟩, ⟨4, 4⟩, ⟨8, 8⟩].take i)
        ⟨[some 16, some 4097], 0, []⟩).2.1 r := by decide +kernel
  have hsound := (arena_sound (by unfold World.NoFail; decide) hproper hplaced).mpr fun pre r hpre => by
    obtain ⟨htake, hget⟩ := prefix_snoc hpre
    rw [htake]
    exact hfit pre.length (by simpa using (List.getElem?_eq_some_iff.mp hget).1) r hget
  exact ⟨hsound [] _ ⟨[⟨4, 4⟩, ⟨8, 8⟩], rfl⟩, hsound [⟨1, 1⟩] _ ⟨[⟨8, 8⟩], rfl⟩,
    hsound [⟨1, 1⟩, ⟨4, 4⟩] _ List.prefix_rfl⟩

/-- A request for all but one byte of the address space passes for one that fits. -/
theorem arena_overrun : ∃ w : World, w.NoFail ∧
    (∀ r ∈ [(⟨1, 1⟩ : ArenaRequest), ⟨2 ^ 64 - 1, 1⟩], r.Proper) ∧
    Placed (arenaServe [⟨1, 1⟩, ⟨2 ^ 64 - 1, 1⟩] w).2.1.spans ∧
    (arenaServe [⟨1, 1⟩, ⟨2 ^ 64 - 1, 1⟩] w).1 = [some 4096, some 4097] ∧
    (arenaServe [⟨1, 1⟩, ⟨2 ^ 64 - 1, 1⟩] w).2.1 = ⟨[⟨4096, 0, 4096⟩], some 0⟩ ∧
    ¬ CallSound w [⟨1, 1⟩] ⟨2 ^ 64 - 1, 1⟩ := by
  have hreturn : (arenaServe [⟨1, 1⟩, ⟨2 ^ 64 - 1, 1⟩] ⟨[some 16, some 4096], 0, []⟩).1 =
      [some 4096, some 4097] := by decide +kernel
  have harena : (arenaServe [⟨1, 1⟩, ⟨2 ^ 64 - 1, 1⟩] ⟨[some 16, some 4096], 0, []⟩).2.1 =
      ⟨[⟨4096, 0, 4096⟩], some 0⟩ := by decide +kernel
  refine ⟨⟨[some 16, some 4096], 0, []⟩, by unfold World.NoFail; decide, ?_, ?_, hreturn, harena,
    fun h => ?_⟩
  · simp only [List.mem_cons, List.not_mem_nil, or_false, forall_eq_or_imp, forall_eq]
    exact ⟨⟨⟨0, by decide, rfl⟩, by decide⟩, ⟨⟨0, by decide, rfl⟩, by decide⟩⟩
  · rw [harena]
    exact ⟨by decide, List.pairwise_singleton _ _⟩
  · obtain ⟨addrs, haddrs, hsound⟩ := h.sound
    rw [List.singleton_append] at haddrs hsound
    rw [hreturn] at haddrs
    obtain rfl : [4096, 4097] = addrs := List.map_injective_iff.mpr (Option.some_injective Nat) haddrs
    rw [harena] at hsound
    obtain ⟨b, hb, hlo, hhi⟩ := hsound.inside (⟨2 ^ 64 - 1, 1⟩, 4097) (by simp) (by decide)
    obtain rfl := List.mem_singleton.mp hb
    exact absurd hhi (by decide)

end Wrouter
