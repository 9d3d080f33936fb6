import Wrouter.Allocation

/-!
# Interning runs

A call to intern finds an equal entry, or claims a slot of the pointer array and then bytes
of the arena. When all goes well the entries are the strings in order of first appearance,
and the arena holds just their bytes. When the second allocation fails the slot stays claimed.
-/
namespace Wrouter

open CLib Machine Runs

structure Intern where
  str : Bytes
  len : Nat
  deriving DecidableEq, Repr

def Intern.key (c : Intern) : Bytes := c.str.take c.len

structure Intern.Proper (c : Intern) : Prop where
  len : c.len ≤ c.str.length
  nulFree : NulFree c.key

theorem Intern.Proper.length_key {c : Intern} (h : c.Proper) : c.key.length = c.len := by
  rw [Intern.key, List.length_take, Nat.min_eq_left h.len]

def internStep (c : Intern) (s : SymbolTable × World) :
    Except WrouterError CString × SymbolTable × World :=
  symbolAppend s.1 c.str c.len s.2

def internRun (calls : List Intern) (w : World) :
    List (Except WrouterError CString) × SymbolTable × World :=
  run internStep calls (.empty, w)

/-! ## What memory decides -/

/-- The answers that are left once a slot was claimed. -/
def slotAnswers (tbl : SymbolTable) (w : World) : List (Option Nat) :=
  if tbl.capacity ≤ tbl.count then w.answers.tail else w.answers

/-- A new block takes two allocations, and one of the next two answers is a refusal. -/
def BlockRefused (answers : List (Option Nat)) : Prop :=
  answers[0]? = some none ∨ answers[1]? = some none

/-- A slot is claimed, unless growing the array was refused. -/
theorem nextSlot_cases (tbl : SymbolTable) (w : World) :
    (∃ w', symbolTableNextSlot tbl 1 w = (none, tbl, w') ∧
      tbl.capacity ≤ tbl.count ∧ w.answers[0]? = some none) ∨
    ∃ tbl₁ w₁, symbolTableNextSlot tbl 1 w = (some tbl.count, tbl₁, w₁) ∧
      (tbl.capacity ≤ tbl.count → w.answers[0]? ≠ some none) ∧
      tbl₁.base = tbl.base ++ [none] ∧ tbl₁.count = tbl.count + 1 ∧ tbl₁.arena = tbl.arena ∧
      w₁.answers = slotAnswers tbl w := by
  unfold symbolTableNextSlot slotAnswers
  dsimp only
  by_cases hcap : tbl.capacity ≤ tbl.count
  · rw [if_pos (by omega), if_pos hcap]
    generalize growCapacity _ _ _ * 8 = n
    obtain ⟨hnone, hanswers⟩ := malloc_refused w n
    rcases hm : w.malloc n with ⟨_ | b, w'⟩
    · exact Or.inl ⟨w', rfl, hcap, hnone.mp (by rw [hm])⟩
    · rw [hm] at hnone hanswers
      refine Or.inr ⟨_, _, rfl, fun _ h => ?_, rfl, rfl, rfl, ?_⟩
      · exact absurd (hnone.mpr h) (Option.some_ne_none b)
      · rw [free_answers]
        exact hanswers
  · rw [if_neg (by omega), if_neg hcap]
    exact Or.inr ⟨_, _, rfl, fun h => absurd h hcap, rfl, rfl, rfl, rfl⟩

theorem arenaNewBlock_refused (n : Nat) (w : World) :
    (arenaNewBlock n w).1 = none ↔ BlockRefused w.answers := by
  obtain ⟨hheader, hrest⟩ := malloc_refused w 1
  unfold arenaNewBlock BlockRefused
  dsimp only
  generalize (if n > arenaBlockSize then n else arenaBlockSize) = size
  rcases hm : w.malloc 1 with ⟨_ | b, w'⟩
  · exact ⟨fun _ => Or.inl (hheader.mp (by rw [hm])), fun _ => rfl⟩
  · obtain ⟨hbase, -⟩ := malloc_refused w' size
    rw [hm] at hheader hrest
    have hfirst : w.answers[0]? ≠ some none := fun h => Option.some_ne_none b (hheader.mpr h)
    have hsecond : w'.answers[0]? = w.answers[1]? := by rw [hrest, List.getElem?_tail]
    rw [hsecond] at hbase
    dsimp only
    rcases hm' : w'.malloc size with ⟨_ | c, w''⟩
    · exact ⟨fun _ => Or.inr (hbase.mp (by rw [hm'])), fun _ => rfl⟩
    · rw [hm'] at hbase
      refine ⟨fun h => absurd h (Option.some_ne_none _), fun h => ?_⟩
      rcases h with h | h
      · exact absurd h hfirst
      · exact absurd (hbase.mpr h) (Option.some_ne_none c)

/-- Without alignment a request fails exactly when the tail has no room and no block is had. -/
theorem arenaAlloc_refused {a : Arena} (htail : a.TailLast) (n : Nat) (w : World) :
    (arenaAlloc a n w).1 = none ↔
      (∀ b ∈ a.blocks.getLast?, b.size < addWord 64 b.used n) ∧ BlockRefused w.answers := by
  rw [← arenaNewBlock_refused (subWord 64 (addWord 64 n 1) 1)]
  have hfresh : ∀ {blk : ArenaBlock} {w' : World},
      arenaNewBlock (subWord 64 (addWord 64 n 1) 1) w = (some blk, w') →
      addWord 64 blk.used n ≤ blk.size := by
    intro blk w' hnew
    obtain ⟨hzero, hsize⟩ := arenaNewBlock_fresh hnew
    rw [hzero]
    exact fresh_fits hsize
  obtain ⟨blocks, tail⟩ := a
  rcases List.eq_nil_or_concat' blocks with rfl | ⟨init, b, rfl⟩
  · rw [arenaAlloc, arenaAllocAligned, arenaAllocPasses]
    rcases hnew : arenaNewBlock (subWord 64 (addWord 64 n 1) 1) w with ⟨_ | blk, w'⟩
    · simp
    · have hsome := arenaLoop_fits (a := ⟨[blk], some 0⟩) (b := 0) 1 w' rfl (hfresh hnew)
      simpa [Option.isSome_iff_ne_none] using hsome
  · obtain rfl := htail.concat
    have hblk : (init ++ [b])[init.length]? = some b := by simp
    have hlast : (∀ c ∈ (init ++ [b]).getLast?, c.size < addWord 64 c.used n) ↔
        b.size < addWord 64 b.used n := by simp
    rw [hlast, arenaAlloc, arenaAllocAligned, arenaAllocPasses_concat]
    by_cases hfit : addWord 64 b.used n ≤ b.size
    · have hsome := arenaLoop_fits (a := ⟨init ++ [b], some init.length⟩)
        ((init ++ [b]).length + 1) w hblk hfit
      refine ⟨fun h => ?_, fun h => absurd h.1 (by omega)⟩
      rw [h] at hsome
      exact absurd hsome (by decide)
    · rw [arenaLoop, hblk]
      dsimp only
      rw [unaligned_used b.base b.used n, if_neg hfit, if_neg (by simp)]
      rcases hnew : arenaNewBlock (subWord 64 (addWord 64 n 1) 1) w with ⟨_ | blk, w'⟩
      · simpa using by omega
      · have hsome := arenaLoop_fits (a := ⟨init ++ [b] ++ [blk], some (init.length + 1)⟩)
          (b := init.length + 1) (init ++ [b]).length w' (by simp) (hfresh hnew)
        simpa [Option.isSome_iff_ne_none] using hsome

theorem arenaLoop_tailLast {a : Arena} (htail : a.TailLast) (size align fuel b : Nat) (w : World) :
    (arenaLoop size align fuel b a w).2.1.TailLast := by
  induction fuel generalizing b a w with
  | zero => exact htail
  | succ fuel ih =>
    rw [arenaLoop]
    cases hblk : a.blocks[b]? with
    | none => exact htail
    | some blk =>
      have hb : b < a.blocks.length := (List.getElem?_eq_some_iff.mp hblk).1
      dsimp only
      split
      · simpa [Arena.TailLast] using htail
      split
      · exact ih htail _ _
      split
      · exact htail
      · refine ih ?_ _ _
        simp [Arena.TailLast]
        omega

theorem arenaAlloc_tailLast {a : Arena} (htail : a.TailLast) (n : Nat) (w : World) :
    (arenaAlloc a n w).2.1.TailLast := by
  unfold arenaAlloc arenaAllocAligned arenaAllocPasses
  cases a.blocks with
  | nil =>
    dsimp only
    split
    · exact filled_empty.tail
    · exact arenaLoop_tailLast (by simp [Arena.TailLast]) _ _ _ _ _
  | cons b rest => exact arenaLoop_tailLast htail _ _ _ _ _

/-! ## One call -/

/-- The string is new and there is a slot for it, but no room for its bytes and no block. -/
structure StrandsSlot (tbl : SymbolTable) (c : Intern) (w : World) : Prop where
  room : tbl.count < 65535
  new : c.key ∉ tbl.texts
  slot : tbl.capacity ≤ tbl.count → w.answers[0]? ≠ some none
  full : ∀ b ∈ tbl.arena.blocks.getLast?, b.size < (b.used + (c.len + 1)) % 2 ^ 64
  refused : BlockRefused (slotAnswers tbl w)

instance (answers : List (Option Nat)) : Decidable (BlockRefused answers) :=
  inferInstanceAs (Decidable (_ ∨ _))

instance (tbl : SymbolTable) (c : Intern) (w : World) : Decidable (StrandsSlot tbl c w) :=
  decidable_of_iff (tbl.count < 65535 ∧ (∀ s ∈ tbl.texts, s ≠ c.key) ∧
    (tbl.capacity ≤ tbl.count → w.answers[0]? ≠ some none) ∧
    (∀ b ∈ tbl.arena.blocks.getLast?, b.size < (b.used + (c.len + 1)) % 2 ^ 64) ∧
    BlockRefused (slotAnswers tbl w))
    ⟨fun h => ⟨h.1, fun hmem => h.2.1 _ hmem rfl, h.2.2.1, h.2.2.2.1, h.2.2.2.2⟩,
      fun h => ⟨h.room, fun _ hs he => h.new (he ▸ hs), h.slot, h.full, h.refused⟩⟩

inductive Appended (c : Intern) (tbl : SymbolTable) (w : World) :
    Except WrouterError CString → SymbolTable → World → Prop
  | full : 65535 ≤ tbl.count → Appended c tbl w (.error .outOfRange) tbl w
  | duplicate (e : CString) : some e ∈ tbl.base → e.text = c.key → Appended c tbl w (.ok e) tbl w
  | noSlot (w' : World) : tbl.capacity ≤ tbl.count → w.answers[0]? = some none →
    Appended c tbl w (.error .noMemory) tbl w'
  | stranded (tbl' : SymbolTable) (w' : World) : StrandsSlot tbl c w →
    tbl'.count = tbl.count + 1 → Appended c tbl w (.error .noMemory) tbl' w'
  | stored (addr : Nat) (tbl' : SymbolTable) (w₁ w' : World) : tbl.count < 65535 →
    c.key ∉ tbl.texts → ¬ StrandsSlot tbl c w →
    arenaAlloc tbl.arena (c.len + 1) w₁ = (some addr, tbl'.arena, w') →
    tbl'.base = tbl.base ++ [some ⟨addr, c.key⟩] → tbl'.count = tbl.count + 1 →
    Appended c tbl w (.ok ⟨addr, c.key⟩) tbl' w'

/-- The step lemma: what one append does to a good table. -/
theorem internStep_cases {tbl : SymbolTable} (ht : tbl.Ok) (htail : tbl.arena.TailLast)
    {c : Intern} (hc : c.Proper) (w : World) :
    Appended c tbl w (internStep c (tbl, w)).1 (internStep c (tbl, w)).2.1
      (internStep c (tbl, w)).2.2 ∧ (internStep c (tbl, w)).2.1.arena.TailLast := by
  unfold internStep symbolAppend
  dsimp only
  split
  · rename_i hfull
    exact ⟨.full hfull, htail⟩
  rename_i hroom
  cases hdup : symbolDuplicate c.str c.len tbl.base with
  | some e =>
    obtain ⟨hmem, htext⟩ := symbolDuplicate_some ht.nulFree hc.len hc.nulFree hdup
    exact ⟨.duplicate e hmem htext, htail⟩
  | none =>
    have hnew : c.key ∉ tbl.texts :=
      symbolDuplicate_none ht.written ht.nulFree hc.len hc.nulFree hdup
    dsimp only
    rcases nextSlot_cases tbl w with ⟨w', hslot, hcap, hrefused⟩ |
      ⟨tbl₁, w₁, hslot, hgranted, hbase, hcount, harena, hanswers⟩
    · rw [hslot]
      exact ⟨.noSlot w' hcap hrefused, htail⟩
    rw [hslot]
    dsimp only
    rw [harena]
    have hrefused := arenaAlloc_refused htail (c.len + 1) w₁
    have hkeeps := arenaAlloc_tailLast htail (c.len + 1) w₁
    have hstrands : StrandsSlot tbl c w ↔ (arenaAlloc tbl.arena (c.len + 1) w₁).1 = none := by
      rw [hrefused, hanswers]
      constructor
      · exact fun h => ⟨fun b hb => by rw [addWord]; exact h.full b hb, h.refused⟩
      · rintro ⟨hno, hblock⟩
        exact ⟨by omega, hnew, hgranted, fun b hb => by simpa only [addWord] using hno b hb, hblock⟩
    rcases halloc : arenaAlloc tbl.arena (c.len + 1) w₁ with ⟨_ | addr, arena, w'⟩
    · rw [halloc] at hstrands hkeeps
      exact ⟨.stranded _ w' (hstrands.mpr rfl) hcount, hkeeps⟩
    · rw [halloc] at hstrands hkeeps
      refine ⟨.stored addr _ w₁ w' (by omega) hnew (fun h => ?_) halloc ?_ hcount, hkeeps⟩
      · exact Option.some_ne_none addr (hstrands.mp h)
      · dsimp only
        rw [hbase, ht.count_eq, List.set_append_right _ _ (Nat.le_refl _), Nat.sub_self]
        rfl

/-- A call leaves a good table good and a failed call leaves it alone, unless it strands a slot. -/
theorem internStep_keeps {tbl : SymbolTable} (ht : tbl.Ok) (htail : tbl.arena.TailLast)
    {c : Intern} (hc : c.Proper) (w : World) :
    ((internStep c (tbl, w)).2.1.Ok ∧ ∀ e, (internStep c (tbl, w)).1 = .error e →
      (internStep c (tbl, w)).2.1.count = tbl.count ∧
        (internStep c (tbl, w)).2.1.base = tbl.base) ↔ ¬ StrandsSlot tbl c w := by
  have hcases := (internStep_cases ht htail hc w).1
  have hstep : ∀ e tbl' w', internStep c (tbl, w) = (.ok e, tbl', w') → tbl'.Ok :=
    fun e tbl' w' h => (symbolAppend_ok ht hc.len hc.nulFree h).2.1
  rcases hrun : internStep c (tbl, w) with ⟨r, tbl', w'⟩
  rw [hrun] at hcases
  dsimp only at hcases ⊢
  cases hcases with
  | full h =>
    exact ⟨fun _ hs => absurd hs.room (by omega), fun _ => ⟨ht, fun _ _ => ⟨rfl, rfl⟩⟩⟩
  | duplicate e hmem htext =>
    refine ⟨fun _ hs => hs.new ?_, fun _ => ⟨ht, fun e h => by simp at h⟩⟩
    exact List.mem_map.mpr ⟨some e, hmem, htext⟩
  | noSlot _ hcap hrefused =>
    exact ⟨fun _ hs => hs.slot hcap hrefused, fun _ => ⟨ht, fun _ _ => ⟨rfl, rfl⟩⟩⟩
  | stranded _ _ hs hcount =>
    refine ⟨fun ⟨_, h⟩ => ?_, fun h => absurd hs h⟩
    have := (h _ rfl).1
    omega
  | stored addr _ w₁ _ _ _ hs _ _ _ =>
    exact ⟨fun _ => hs, fun _ => ⟨hstep _ _ _ hrun, fun e h => by simp at h⟩⟩

/-! ## Failures -/

/-- What a call should leave behind after the calls before it. -/
structure AppendSound (w : World) (pre : List Intern) (c : Intern) : Prop where
  ok : (internRun (pre ++ [c]) w).2.1.Ok
  unchanged : ∀ e, (internStep c (internRun pre w).2).1 = .error e →
    (internRun (pre ++ [c]) w).2.1.count = (internRun pre w).2.1.count ∧
      (internRun (pre ++ [c]) w).2.1.base = (internRun pre w).2.1.base

section Failures

variable {calls : List Intern} {w : World}

theorem internRun_snoc (pre : List Intern) (c : Intern) (w : World) :
    (internRun (pre ++ [c]) w).2 = (internStep c (internRun pre w).2).2 :=
  congrArg Prod.snd (run_snoc internStep pre c (.empty, w))

/-- One call of a run, in the terms of the run. -/
theorem appendSound_iff {pre : List Intern} {c : Intern} (hc : c.Proper)
    (ht : (internRun pre w).2.1.Ok) (htail : (internRun pre w).2.1.arena.TailLast) :
    AppendSound w pre c ↔ ¬ StrandsSlot (internRun pre w).2.1 c (internRun pre w).2.2 := by
  rw [← internStep_keeps ht htail hc]
  constructor
  · rintro ⟨hok, hun⟩
    rw [internRun_snoc] at hok hun
    exact ⟨hok, hun⟩
  · rintro ⟨hok, hun⟩
    refine ⟨?_, ?_⟩ <;> rw [internRun_snoc]
    · exact hok
    · exact hun

/-- A run whose every call leaves a good table keeps the table and the tail of its arena. -/
theorem internRun_keeps (hcalls : ∀ c ∈ calls, c.Proper)
    (hstep : ∀ pre c, pre ++ [c] <+: calls → (internRun pre w).2.1.Ok →
      (internRun pre w).2.1.arena.TailLast → (internRun (pre ++ [c]) w).2.1.Ok)
    {pre : List Intern} (hpre : pre <+: calls) :
    (internRun pre w).2.1.Ok ∧ (internRun pre w).2.1.arena.TailLast := by
  refine run_invariant (fun _ _ (s : SymbolTable × World) => s.1.Ok ∧ s.1.arena.TailLast)
    ?_ (fun pre c hpre hkept => ?_) hpre
  · exact ⟨symbolTable_empty_ok, filled_empty.tail⟩
  · obtain ⟨ht, htail⟩ := hkept
    have hok := hstep pre c hpre ht htail
    rw [internRun_snoc] at hok
    exact ⟨hok, (internStep_cases ht htail (hcalls c (hpre.subset (by simp))) _).2⟩

/-- Whichever allocations fail, every failed call leaves the entries alone and every entry is a
terminated string, exactly when no call strands a slot. -/
theorem append_keeps_table (hcalls : ∀ c ∈ calls, c.Proper) :
    (∀ pre c, pre ++ [c] <+: calls → AppendSound w pre c) ↔
      ∀ pre c, pre ++ [c] <+: calls →
        ¬ StrandsSlot (internRun pre w).2.1 c (internRun pre w).2.2 := by
  have hinit : ∀ {pre : List Intern} {c : Intern}, pre ++ [c] <+: calls → pre <+: calls :=
    fun h => (List.prefix_append _ _).trans h
  have hproper : ∀ {pre : List Intern} {c : Intern}, pre ++ [c] <+: calls → c.Proper :=
    fun h => hcalls _ (h.subset (by simp))
  constructor
  · intro hsound pre c hpre
    obtain ⟨ht, htail⟩ := internRun_keeps hcalls
      (fun p d hp _ _ => (hsound p d hp).ok) (hinit hpre)
    exact (appendSound_iff (hproper hpre) ht htail).mp (hsound pre c hpre)
  · intro hfree pre c hpre
    obtain ⟨ht, htail⟩ := internRun_keeps hcalls
      (fun p d hp ht htail => ((appendSound_iff (hproper hp) ht htail).mpr (hfree p d hp)).ok)
      (hinit hpre)
    exact (appendSound_iff (hproper hpre) ht htail).mpr (hfree pre c hpre)

/-- The array cannot grow for the first call; the second stores. -/
theorem append_keeps_table_refused :
    (internRun [⟨ascii "users", 5⟩] ⟨[none], 0, []⟩).1 = [.error .noMemory] ∧
      AppendSound ⟨[none], 0, []⟩ [] ⟨ascii "users", 5⟩ ∧
      AppendSound ⟨[none], 0, []⟩ [⟨ascii "users", 5⟩] ⟨ascii "users", 5⟩ := by
  have hproper : ∀ c ∈ [Intern.mk (ascii "users") 5, ⟨ascii "users", 5⟩], c.Proper := by
    simp only [List.mem_cons, List.not_mem_nil, or_false, or_self, forall_eq]
    exact ⟨by decide, by unfold NulFree; decide⟩
  have hfree : ∀ i < 2, ∀ c ∈ [Intern.mk (ascii "users") 5, ⟨ascii "users", 5⟩][i]?,
      ¬ StrandsSlot (internRun ([⟨ascii "users", 5⟩, ⟨ascii "users", 5⟩].take i)
        ⟨[none], 0, []⟩).2.1 c (internRun ([⟨ascii "users", 5⟩, ⟨ascii "users", 5⟩].take i)
        ⟨[none], 0, []⟩).2.2 := by decide +kernel
  have hsound := (append_keeps_table hproper).mpr fun pre c hpre => by
    obtain ⟨htake, hget⟩ := prefix_snoc hpre
    rw [htake]
    exact hfree pre.length (by simpa using (List.getElem?_eq_some_iff.mp hget).1) c hget
  exact ⟨by decide +kernel, hsound [] _ ⟨[⟨ascii "users", 5⟩], rfl⟩,
    hsound [⟨ascii "users", 5⟩] _ List.prefix_rfl⟩

/-- No block for the bytes: the slot of a failed call stays claimed. -/
theorem append_strands : ∃ w : World, (Intern.mk (ascii "users") 5).Proper ∧
    (internStep ⟨ascii "users", 5⟩ (.empty, w)).1 = .error .noMemory ∧
    (internRun [⟨ascii "users", 5⟩] w).2.1.count = 1 ∧
    (internRun [⟨ascii "users", 5⟩] w).2.1.base = [none] ∧
    ¬ AppendSound w [] ⟨ascii "users", 5⟩ := by
  refine ⟨⟨[some 4096, none], 0, []⟩, ⟨by decide, by unfold NulFree; decide⟩, by decide +kernel,
    by decide +kernel, by decide +kernel, fun h => ?_⟩
  have hcount := (h.unchanged .noMemory (by decide +kernel)).1
  revert hcount
  decide +kernel

end Failures

/-! ## Successes -/

/-- The bytes a list of strings takes, terminators included. -/
def storage (texts : List Bytes) : Nat := (texts.map fun s => s.length + 1).sum

def SymbolTable.entries (tbl : SymbolTable) : List CString := tbl.base.filterMap id

/-- What the arena was asked for, and where it put it. -/
def SymbolTable.ranges (tbl : SymbolTable) : List (ArenaRequest × Nat) :=
  tbl.entries.map fun e => (⟨e.text.length + 1, 1⟩, e.addr)

theorem storage_append (s t : List Bytes) : storage (s ++ t) = storage s + storage t := by
  simp [storage]

theorem eraseDups_snoc (keys : List Bytes) (k : Bytes) :
    (keys ++ [k]).eraseDups = if k ∈ keys then keys.eraseDups else keys.eraseDups ++ [k] := by
  rw [List.eraseDups_append]
  split <;> rename_i h <;> simp [List.removeAll, List.eraseDups_cons, h]

theorem arenaUsed_eq {a : Arena} (h : (a.blocks.map ArenaBlock.used).sum < 2 ^ 64) :
    arenaUsed a = (a.blocks.map ArenaBlock.used).sum := by
  have hfold : ∀ (blocks : List ArenaBlock) (n : Nat),
      n + (blocks.map ArenaBlock.used).sum < 2 ^ 64 →
      blocks.foldl (fun used b => addWord 64 used b.used) n =
        n + (blocks.map ArenaBlock.used).sum := by
    intro blocks
    induction blocks with
    | nil => intro n _; rfl
    | cons b rest ih =>
      intro n hn
      rw [List.map_cons, List.sum_cons] at hn
      rw [List.foldl_cons, addWord_eq (by omega), ih _ (by omega), List.map_cons, List.sum_cons,
        Nat.add_assoc]
  rw [arenaUsed, hfold a.blocks 0 (by omega), Nat.zero_add]

theorem used_le_sum {blocks : List ArenaBlock} {b : ArenaBlock} (h : b ∈ blocks) :
    b.used ≤ (blocks.map ArenaBlock.used).sum := by
  obtain ⟨init, rest, rfl⟩ := List.append_of_mem h
  rw [List.map_append, List.sum_append, List.map_cons, List.sum_cons]
  omega

structure InternInv (keys : List Bytes) (es : List CString) (tbl : SymbolTable) : Prop where
  ok : tbl.Ok
  texts : tbl.texts = keys.eraseDups
  returned : es.map CString.text = keys
  entries : ∀ e ∈ es, some e ∈ tbl.base
  filled : Filled tbl.ranges tbl.arena
  used : (tbl.arena.blocks.map ArenaBlock.used).sum = storage tbl.texts

theorem internInv_empty : InternInv [] [] .empty where
  ok := symbolTable_empty_ok
  texts := rfl
  returned := rfl
  entries := by simp
  filled := filled_empty
  used := rfl

structure Extends (s t : SymbolTable × World) : Prop where
  base : s.1.base <+: t.1.base
  kept : Kept s.1.arena t.1.arena

theorem Extends.refl (s : SymbolTable × World) : Extends s s := ⟨List.prefix_rfl, .refl _⟩

theorem Extends.trans {s t u : SymbolTable × World} (h : Extends s t) (h' : Extends t u) :
    Extends s u :=
  ⟨h.base.trans h'.base, h.kept.trans h'.kept⟩

/-- A successful call: a key seen before changes nothing, a new one is appended. -/
theorem InternInv.step {keys : List Bytes} {es : List CString} {s s' : SymbolTable × World}
    (h : InternInv keys es s.1) {c : Intern} (hc : c.Proper) {e : CString}
    (hrun : internStep c s = (.ok e, s')) (hplaced : Placed s'.1.arena.spans)
    (hspace : storage (keys ++ [c.key]).eraseDups < 2 ^ 64) :
    InternInv (keys ++ [c.key]) (es ++ [e]) s'.1 ∧ Extends s s' ∧
      (c.key ∈ keys → s' = s) := by
  obtain ⟨tbl, w⟩ := s
  obtain ⟨tbl', w'⟩ := s'
  dsimp only at h hplaced ⊢
  have hcases := (internStep_cases h.ok h.filled.tail hc w).1
  have hkey : c.key ∈ tbl.texts ↔ c.key ∈ keys := by rw [h.texts, List.mem_eraseDups]
  obtain ⟨htext, hok, -⟩ := symbolAppend_ok h.ok hc.len hc.nulFree hrun
  have hreturned : (es ++ [e]).map CString.text = keys ++ [c.key] := by
    rw [List.map_append, h.returned, List.map_singleton, htext, Intern.key]
  rw [hrun] at hcases
  dsimp only at hcases
  rw [eraseDups_snoc] at hspace
  cases hcases with
  | duplicate _ hmem htext' =>
    have hold : c.key ∈ keys := hkey.mp (List.mem_map.mpr ⟨some e, hmem, htext'⟩)
    refine ⟨⟨h.ok, ?_, hreturned, ?_, h.filled, h.used⟩, .refl _, fun _ => rfl⟩
    · rw [eraseDups_snoc, if_pos hold, h.texts]
    · intro f hf
      rcases List.mem_append.mp hf with hf | hf
      · exact h.entries f hf
      · rwa [List.mem_singleton.mp hf]
  | stored addr _ w₁ _ hroom hnew _ halloc hbase hcount =>
    have hfresh : c.key ∉ keys := fun hmem => hnew (hkey.mpr hmem)
    rw [if_neg hfresh, storage_append, ← h.texts] at hspace
    have hsize : storage [c.key] = c.len + 1 := by simp [storage, hc.length_key]
    have hproper : (ArenaRequest.mk (c.len + 1) 1).Proper :=
      ⟨⟨0, by omega, rfl⟩, by dsimp only; omega⟩
    have hgrant : Grant ⟨c.len + 1, 1⟩ tbl.arena addr tbl'.arena := by
      have hspans : ∀ s ∈ (arenaAllocAligned tbl.arena (c.len + 1) 1 w₁).2.1.spans,
          s.1 + s.2 < 2 ^ 64 := by
        rw [← arenaAlloc, halloc]
        exact fun s hs => (hplaced.inside s hs).2
      rcases arenaAllocAligned_cases hproper w₁ h.filled.tail h.filled.used hspans with
        ⟨_, _, _, hg, hrun'⟩ | ⟨-, hnone⟩
      · have halloc' := (hrun' _ (Nat.le_add_left 2 _)).symm.trans halloc
        simp only [Prod.mk.injEq, Option.some.injEq] at halloc'
        obtain ⟨rfl, rfl, -⟩ := halloc'
        exact hg
      · rw [← arenaAlloc, halloc] at hnone
        exact absurd hnone (Option.some_ne_none addr)
    have hfit : ¬ Wraps tbl.arena ⟨c.len + 1, 1⟩ := by
      rintro ⟨b, hb, hwrap, -⟩
      have hused := used_le_sum (List.mem_of_getLast? hb)
      rw [h.used] at hused
      rw [taken, padding_one, Nat.add_zero] at hwrap
      dsimp only at hwrap
      omega
    obtain ⟨hkept, hfilled⟩ := hgrant.filled hproper h.filled hplaced hfit
    have htexts : tbl'.texts = tbl.texts ++ [c.key] := by
      simp [SymbolTable.texts, hbase]
    have hranges : tbl'.ranges = tbl.ranges ++ [(⟨c.len + 1, 1⟩, addr)] := by
      simp [SymbolTable.ranges, SymbolTable.entries, hbase, hc.length_key]
    refine ⟨⟨hok, ?_, hreturned, ?_, ?_, ?_⟩, ⟨?_, hkept⟩, fun hmem => absurd hmem hfresh⟩
    · rw [htexts, eraseDups_snoc, if_neg hfresh, h.texts]
    · intro f hf
      rw [hbase]
      rcases List.mem_append.mp hf with hf | hf
      · exact List.mem_append_left _ (h.entries f hf)
      · rw [List.mem_singleton.mp hf]
        exact List.mem_append_right _ List.mem_cons_self
    · rw [hranges]
      exact hfilled
    · rw [hgrant.used_sum rfl hfit, h.used, htexts, storage_append, hsize]
    · rw [hbase]
      exact List.prefix_append _ _

/-! ## Compiled regions -/

/-- Strings that follow one another, terminators included, from an address up to another. -/
def Tiles : Nat → List CString → Nat → Prop
  | addr, [], stop => addr = stop
  | addr, s :: rest, stop => s.addr = addr ∧ Tiles (addr + (s.text.length + 1)) rest stop

/-- Tiles lie between the two addresses. -/
theorem Tiles.inside {addr stop : Nat} {l : List CString} (h : Tiles addr l stop) {s : CString}
    (hs : s ∈ l) : addr ≤ s.addr ∧ s.addr + (s.text.length + 1) ≤ stop := by
  have hle : ∀ {addr : Nat} {l : List CString}, Tiles addr l stop → addr ≤ stop := by
    intro addr l
    induction l generalizing addr with
    | nil => exact fun h => Nat.le_of_eq h
    | cons t rest ih =>
      intro h
      have := ih h.2
      omega
  induction l generalizing addr with
  | nil => simp at hs
  | cons t rest ih =>
    obtain ⟨rfl, hrest⟩ := h
    rcases List.mem_cons.mp hs with rfl | hs
    · exact ⟨Nat.le_refl _, hle hrest⟩
    · have := ih hrest hs
      omega

/-- Copied strings follow one another to the end of the region. -/
theorem symbolCopy_tiles (region cursor : Nat) {l : List CString}
    (hfree : ∀ s ∈ l.map CString.text, NulFree s) :
    Tiles (region + cursor) (symbolCopy region cursor l)
      (region + cursor + storage (l.map CString.text)) := by
  induction l generalizing cursor with
  | nil => rfl
  | cons s rest ih =>
    rw [List.map_cons, List.forall_mem_cons] at hfree
    have hlen := strlen_eq hfree.1
    have hrest := ih (cursor + (strlen s.text + 1)) hfree.2
    refine ⟨rfl, ?_⟩
    have hstop : region + cursor + storage ((s :: rest).map CString.text) =
        region + (cursor + (strlen s.text + 1)) + storage (rest.map CString.text) := by
      simp only [storage, List.map_cons, List.sum_cons]
      omega
    have hnext : (s.text.take (strlen s.text)).length + 1 = strlen s.text + 1 := by
      rw [hlen, List.take_length]
    rw [hstop, hnext, Nat.add_assoc]
    exact hrest

/-- A compiled table fills its region from the first byte to the last. -/
theorem symbolCompile_tiles {L : Libc} {tbl : SymbolTable} (ht : tbl.Ok)
    (hused : arenaUsed tbl.arena = storage tbl.texts) (hcount : tbl.count ≠ 0) {w w' : World}
    {sym : Symbols} (h : symbolCompile L tbl w = (.ok, sym, w')) :
    ∃ region, sym.region = some region ∧
      Event.alloc region.id (arenaUsed tbl.arena) ∈ w'.trace ∧
      Tiles region.addr sym.entries (region.addr + arenaUsed tbl.arena) := by
  unfold symbolCompile at h
  dsimp only at h
  rw [if_neg hcount] at h
  split at h
  · simp at h
  split at h
  · simp at h
  rename_i _ _ _ _ _ region w₂ hregion
  simp only [Prod.mk.injEq, true_and] at h
  obtain ⟨rfl, rfl⟩ := h
  have hperm := symbolSort_texts L tbl
  have hfree : ∀ s ∈ (symbolSort L tbl).map CString.text, NulFree s :=
    fun s hs => ht.nulFree s (hperm.mem_iff.mp hs)
  have hstorage : storage ((symbolSort L tbl).map CString.text) = storage tbl.texts :=
    (hperm.map _).sum_nat
  obtain ⟨hid, -, htrace⟩ := malloc_fresh hregion
  refine ⟨region, rfl, ?_, ?_⟩
  · rw [htrace, hid]
    simp
  · have htiles := symbolCopy_tiles region.addr 0 hfree
    rw [hstorage, ← hused, Nat.add_zero] at htiles
    exact htiles

/-! ## The runs -/

structure Interned (calls : List Intern) (w : World) (es : List CString) : Prop where
  texts : (internRun calls w).2.1.texts = (calls.map Intern.key).eraseDups
  nodup : (internRun calls w).2.1.texts.Nodup
  count : (internRun calls w).2.1.count = (calls.map Intern.key).eraseDups.length
  bound : (internRun calls w).2.1.count ≤ 65535
  returned : es.map CString.text = calls.map Intern.key
  entries : ∀ e ∈ es, some e ∈ (internRun calls w).2.1.base
  same : ∀ e ∈ es, ∀ f ∈ es, e.text = f.text → e = f
  again : ∀ pre c, pre ++ [c] <+: calls → c.key ∈ pre.map Intern.key →
    (internRun (pre ++ [c]) w).2 = (internRun pre w).2
  intact : ∀ pre, pre <+: calls → Extends (internRun pre w).2 (internRun calls w).2
  stored : ∀ e ∈ (internRun calls w).2.1.entries, ∃ b ∈ (internRun calls w).2.1.arena.blocks,
    b.base ≤ e.addr ∧ e.addr + (e.text.length + 1) ≤ b.base + b.size
  apart : (internRun calls w).2.1.entries.Pairwise fun e f =>
    Apart (e.addr, e.text.length + 1) (f.addr, f.text.length + 1)
  used : arenaUsed (internRun calls w).2.1.arena =
    storage (calls.map Intern.key).eraseDups

theorem internStep_spans (c : Intern) (s : SymbolTable × World) :
    s.1.arena.spans <+: (internStep c s).2.1.arena.spans := by
  unfold internStep symbolAppend
  split
  · exact List.prefix_rfl
  split
  · exact List.prefix_rfl
  rcases nextSlot_cases s.1 s.2 with ⟨w', hslot, -⟩ | ⟨tbl, w₁, hslot, -, -, -, harena, -⟩
  · simpa only [hslot] using List.prefix_refl s.1.arena.spans
  · rw [hslot, ← harena]
    dsimp only
    have hspans := arenaAllocPasses_spans (tbl.arena.blocks.length + 2) tbl.arena (c.len + 1) 1 w₁
    rcases halloc : arenaAlloc tbl.arena (c.len + 1) w₁ with ⟨_ | addr, arena, w'⟩ <;>
      rw [← arenaAllocAligned, ← arenaAlloc, halloc] at hspans <;> exact hspans

theorem eraseDups_mono {l m : List Bytes} (h : l <+: m) : l.eraseDups <+: m.eraseDups := by
  obtain ⟨rest, rfl⟩ := h
  rw [List.eraseDups_append]
  exact List.prefix_append _ _

theorem storage_mono {l m : List Bytes} (h : l <+: m) : storage l ≤ storage m := by
  obtain ⟨rest, rfl⟩ := h
  rw [storage_append]
  omega

section Successes

variable {calls : List Intern} {w : World} {es : List CString}

/-- More calls only add blocks to the arena. -/
theorem internRun_spans {pre : List Intern} (h : pre <+: calls) :
    (internRun pre w).2.1.arena.spans <+: (internRun calls w).2.1.arena.spans :=
  run_prefix_rel (R := fun s t : SymbolTable × World => s.1.arena.spans <+: t.1.arena.spans)
    (fun _ => List.prefix_rfl) (fun h h' => h.trans h') internStep_spans h (.empty, w)

/-- One more call of a run of successful calls. -/
theorem internRun_step (hcalls : ∀ c ∈ calls, c.Proper)
    (hall : (internRun calls w).1 = es.map .ok)
    (hplaced : Placed (internRun calls w).2.1.arena.spans)
    (hspace : storage (calls.map Intern.key).eraseDups < 2 ^ 64) {pre : List Intern} {c : Intern}
    (hpre : pre ++ [c] <+: calls) {es' : List CString}
    (hinv : InternInv (pre.map Intern.key) es' (internRun pre w).2.1) :
    ∃ e, (internStep c (internRun pre w).2).1 = .ok e ∧
      InternInv ((pre ++ [c]).map Intern.key) (es' ++ [e]) (internRun (pre ++ [c]) w).2.1 ∧
      Extends (internRun pre w).2 (internRun (pre ++ [c]) w).2 ∧
      (c.key ∈ pre.map Intern.key → (internRun (pre ++ [c]) w).2 = (internRun pre w).2) := by
  have hanswer : (internStep c (internRun pre w).2).1 ∈ (internRun calls w).1 := by
    refine (run_prefix_answers internStep hpre (.empty, w)).subset ?_
    rw [run_snoc]
    exact List.mem_append_right _ List.mem_cons_self
  rw [hall] at hanswer
  obtain ⟨e, -, he⟩ := List.mem_map.mp hanswer
  have hplaced' := hplaced.of_prefix (internRun_spans (w := w) hpre)
  have hspace' : storage (pre.map Intern.key ++ [c.key]).eraseDups < 2 ^ 64 := by
    refine Nat.lt_of_le_of_lt (storage_mono (eraseDups_mono ?_)) hspace
    have := hpre.map Intern.key
    rwa [List.map_append] at this
  rw [internRun_snoc] at hplaced' ⊢
  rw [List.map_append]
  exact ⟨e, he.symm, hinv.step (hcalls c (hpre.subset (by simp))) (Prod.ext he.symm rfl) hplaced'
    hspace'⟩

/-- The invariant at every prefix of a run of successful calls. -/
theorem internRun_inv (hcalls : ∀ c ∈ calls, c.Proper)
    (hall : (internRun calls w).1 = es.map .ok)
    (hplaced : Placed (internRun calls w).2.1.arena.spans)
    (hspace : storage (calls.map Intern.key).eraseDups < 2 ^ 64) {pre : List Intern}
    (hpre : pre <+: calls) : ∃ es' : List CString, (internRun pre w).1 = es'.map .ok ∧
      InternInv (pre.map Intern.key) es' (internRun pre w).2.1 := by
  refine run_invariant (fun pre answers (s : SymbolTable × World) => ∃ es' : List CString,
    answers = es'.map Except.ok ∧ InternInv (pre.map Intern.key) es' s.1)
    ?_ (fun pre c hpre hkept => ?_) hpre
  · exact ⟨[], rfl, internInv_empty⟩
  · obtain ⟨es', hes', hinv⟩ := hkept
    obtain ⟨e, he, hnext, -⟩ := internRun_step hcalls hall hplaced hspace hpre hinv
    rw [internRun_snoc] at hnext
    refine ⟨es' ++ [e], ?_, hnext⟩
    rw [hes', List.map_append]
    exact congrArg (es'.map .ok ++ [·]) he

/-- Successful calls intern the distinct strings in order of first appearance, each once, and
compiling the table copies them into a region they fill exactly. -/
theorem interning_exact (hcalls : ∀ c ∈ calls, c.Proper)
    (hall : (internRun calls w).1 = es.map .ok)
    (hplaced : Placed (internRun calls w).2.1.arena.spans)
    (hspace : storage (calls.map Intern.key).eraseDups < 2 ^ 64) :
    Interned calls w es ∧ ∀ (L : Libc) v sym v',
      symbolCompile L (internRun calls w).2.1 v = (.ok, sym, v') → (internRun calls w).2.1.count ≠ 0 →
        sym.texts.Perm (internRun calls w).2.1.texts ∧
        ∃ region, sym.region = some region ∧
          Event.alloc region.id (arenaUsed (internRun calls w).2.1.arena) ∈ v'.trace ∧
          Tiles region.addr sym.entries
            (region.addr + arenaUsed (internRun calls w).2.1.arena) := by
  obtain ⟨es', hes', hinv⟩ := internRun_inv hcalls hall hplaced hspace List.prefix_rfl
  obtain rfl : es = es' := by
    have hmap := hall.symm.trans hes'
    exact List.map_injective_iff.mpr (fun _ _ h => Except.ok.inj h) hmap
  have hused : arenaUsed (internRun calls w).2.1.arena =
      storage (calls.map Intern.key).eraseDups := by
    rw [arenaUsed_eq (by rw [hinv.used, hinv.texts]; exact hspace), hinv.used, hinv.texts]
  have hcount : (internRun calls w).2.1.texts.length = (internRun calls w).2.1.count := by
    rw [SymbolTable.texts, List.length_map, hinv.ok.count_eq]
  refine ⟨⟨hinv.texts, hinv.ok.nodup, ?_, hinv.ok.bound, hinv.returned, hinv.entries, ?_, ?_, ?_,
    ?_, ?_, hused⟩, ?_⟩
  · rw [← hcount, hinv.texts]
  · intro e he f hf htext
    exact Option.some.inj (List.inj_on_of_nodup_map hinv.ok.nodup (hinv.entries e he)
      (hinv.entries f hf) htext)
  · intro pre c hpre hold
    obtain ⟨es', -, hinv'⟩ := internRun_inv hcalls hall hplaced hspace
      ((List.prefix_append pre [c]).trans hpre)
    obtain ⟨-, -, -, -, hsame⟩ := internRun_step hcalls hall hplaced hspace hpre hinv'
    exact hsame hold
  · intro pre hpre
    refine run_between Extends.refl Extends.trans (fun mid c hmid => ?_) List.prefix_rfl hpre
    obtain ⟨es', -, hinv'⟩ := internRun_inv hcalls hall hplaced hspace
      ((List.prefix_append mid [c]).trans hmid)
    obtain ⟨-, -, -, hext, -⟩ := internRun_step hcalls hall hplaced hspace hmid hinv'
    exact hext
  · intro e he
    exact hinv.filled.inside _ (List.mem_map_of_mem he) (Nat.succ_pos _)
  · have hapart := hinv.filled.apart
    rw [SymbolTable.ranges, List.pairwise_map] at hapart
    exact hapart.imp fun h => h (Nat.succ_pos _) (Nat.succ_pos _)
  · intro L v sym v' hcompile hne
    exact ⟨(symbolCompile_ok hinv.ok hcompile).2,
      symbolCompile_tiles hinv.ok (by rw [hused, hinv.texts]) hne hcompile⟩

/-- A string, a prefix of it, and the string again. -/
theorem interning_exact_prefix : Interned [⟨ascii "users/42", 5⟩, ⟨ascii "use", 3⟩, ⟨ascii "users", 5⟩]
    ⟨[some 64, some 128, some 4096], 0, []⟩
    [⟨4096, ascii "users"⟩, ⟨4102, ascii "use"⟩, ⟨4096, ascii "users"⟩] := by
  refine (interning_exact ?_ (by decide +kernel) ?_ (by decide +kernel)).1
  · simp only [List.mem_cons, List.not_mem_nil, or_false, forall_eq_or_imp, forall_eq]
    exact ⟨⟨by decide, by unfold NulFree; decide⟩, ⟨by decide, by unfold NulFree; decide⟩,
      ⟨by decide, by unfold NulFree; decide⟩⟩
  · have hspans : (internRun [⟨ascii "users/42", 5⟩, ⟨ascii "use", 3⟩, ⟨ascii "users", 5⟩]
        ⟨[some 64, some 128, some 4096], 0, []⟩).2.1.arena.spans = [(4096, 4096)] := by
      decide +kernel
    rw [hspans]
    exact ⟨by decide, List.pairwise_singleton _ _⟩

end Successes

end Wrouter
