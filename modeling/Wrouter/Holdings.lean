import Wrouter.Heap

/-!
# What the builder owns

The blocks behind a builder, and what each of its operations does to them: every block an
operation is given it puts somewhere or gives back, whether it succeeds or not.
-/
namespace Wrouter

open CLib Machine Ownership

/-! ## The ledger of a world -/

def World.ledger (w : World) : Ledger := ⟨w.next, w.allocated, w.freed⟩

def owns (b : Option Block) : Multiset Nat := blockId b

@[simp] theorem owns_none : owns none = 0 := rfl
@[simp] theorem owns_some (b : Block) : owns (some b) = {b.id} := rfl

@[simp] theorem retain_ledger (w : World) (installed : Bool) (ctx : Nat) :
    (w.retain installed ctx).ledger = w.ledger := by
  simp [World.ledger]

@[simp] theorem release_ledger (w : World) (installed : Bool) (ctx : Nat) :
    (w.release installed ctx).ledger = w.ledger := by
  have hnext : (w.release installed ctx).next = w.next := by cases installed <;> rfl
  rw [World.ledger, hnext, release_allocated, release_freed]
  rfl

theorem coe_append_singleton (l : List Nat) (x : Nat) :
    ((l ++ [x] : List Nat) : Multiset Nat) = x ::ₘ (l : Multiset Nat) :=
  Multiset.coe_eq_coe.mpr (List.perm_append_singleton x l)

/-- What was allocated is owned now. -/
theorem malloc_turns {w w' : World} {n : Nat} {b : Option Block} (h : w.malloc n = (b, w')) :
    Turns w.ledger 0 w'.ledger (owns b) := by
  cases b with
  | none =>
    obtain ⟨hnext, htrace⟩ := malloc_none h
    have hledger : w'.ledger = w.ledger := by
      simp [World.ledger, World.allocated, World.freed, hnext, htrace]
    rw [hledger, owns_none]
    exact .refl _ _
  | some b =>
    obtain ⟨hid, hnext, htrace⟩ := malloc_fresh h
    have hallocated : w'.allocated = w.allocated ++ [w.next] := by
      simp [World.allocated, htrace, Event.allocated]
    have hfreed : w'.freed = w.freed := by simp [World.freed, htrace, Event.freed]
    have hledger : w'.ledger = w.ledger.alloc := by
      rw [World.ledger, hnext, hallocated, hfreed, coe_append_singleton]
      rfl
    have hid' : w.ledger.next = b.id := hid.symm
    rw [hledger, owns_some, ← hid']
    exact turns_alloc _

/-- What was freed is owned no more. -/
theorem free_turns (w : World) (b : Option Block) :
    Turns w.ledger (owns b) (w.free b).ledger 0 := by
  cases b with
  | none => exact .refl _ _
  | some b =>
    have hallocated : (w.free (some b)).allocated = w.allocated := by
      simp [World.allocated, World.free, Event.allocated]
    have hfreed : (w.free (some b)).freed = w.freed ++ [b.id] := by
      simp [World.freed, World.free, Event.freed]
    have hledger : (w.free (some b)).ledger = w.ledger.free b.id := by
      rw [World.ledger, hallocated, hfreed, coe_append_singleton]
      rfl
    rw [hledger, owns_some]
    exact turns_free _ _

/-- What a caller has beside goes first, the block that is freed after it. -/
theorem free_after {l : Ledger} {a : Multiset Nat} {w : World} {b : Option Block}
    (h : Turns l a w.ledger 0) : Turns l (a + owns b) (w.free b).ledger 0 := by
  have hboth := h.seq (free_turns w b)
  rwa [zero_add] at hboth

/-! ## Arenas and tables -/

def HeapBlock.owned (b : HeapBlock) : Multiset Nat := {b.base.id} + {b.header.id}

def HeapArena.owned (a : HeapArena) : Multiset Nat := (a.blocks.map HeapBlock.owned).sum

def HeapTable.owned (tbl : HeapTable) : Multiset Nat := owns tbl.block + tbl.arena.owned

theorem heapNewBlock_turns {n : Nat} {w w' : World} {blk : Option HeapBlock}
    (h : heapNewBlock n w = (blk, w')) :
    Turns w.ledger 0 w'.ledger (blk.elim 0 HeapBlock.owned) := by
  unfold heapNewBlock at h
  dsimp only at h
  rcases hheader : w.malloc 1 with ⟨_ | header, w₁⟩
  · simp only [hheader, Prod.mk.injEq] at h
    obtain ⟨rfl, rfl⟩ := h
    exact malloc_turns hheader
  simp only [hheader] at h
  have hfirst := malloc_turns hheader
  rcases hbase : w₁.malloc (if n > arenaBlockSize then n else arenaBlockSize) with ⟨_ | base, w₂⟩
  · simp only [hbase, Prod.mk.injEq] at h
    obtain ⟨rfl, rfl⟩ := h
    have hboth := hfirst.seq (malloc_turns hbase)
    rw [owns_none, add_zero, add_zero] at hboth
    exact hboth.trans (free_turns w₂ (some header))
  · simp only [hbase, Prod.mk.injEq] at h
    obtain ⟨rfl, rfl⟩ := h
    have hboth := hfirst.seq (malloc_turns hbase)
    exact hboth.congr (add_zero 0) (add_comm _ _)

theorem owned_set_used {a : HeapArena} {b : Nat} {blk : HeapBlock} (h : a.blocks[b]? = some blk)
    (used : Nat) : HeapArena.owned { a with blocks := a.blocks.set b { blk with used := used } } =
      a.owned := by
  have howned : (a.blocks.map HeapBlock.owned)[b]? = some blk.owned := by rw [List.getElem?_map, h]; rfl
  obtain ⟨hlt, hget⟩ := List.getElem?_eq_some_iff.mp howned
  have hsame : HeapBlock.owned { blk with used := used } = blk.owned := rfl
  unfold HeapArena.owned
  dsimp only
  rw [List.map_set, hsame, ← hget, List.set_getElem_self]

theorem heapArenaLoop_turns {size align fuel b : Nat} {a a' : HeapArena} {w w' : World}
    {addr : Option Nat} (h : heapArenaLoop size align fuel b a w = (addr, a', w')) :
    Turns w.ledger a.owned w'.ledger a'.owned := by
  induction fuel generalizing b a w with
  | zero =>
    obtain ⟨-, rfl, rfl⟩ : _ ∧ a = a' ∧ w = w' := by simpa [heapArenaLoop] using h
    exact .refl _ _
  | succ fuel ih =>
    rw [heapArenaLoop] at h
    cases hblk : a.blocks[b]? with
    | none =>
      obtain ⟨-, rfl, rfl⟩ : _ ∧ a = a' ∧ w = w' := by simpa [hblk] using h
      exact .refl _ _
    | some blk =>
      simp only [hblk] at h
      split at h
      · obtain ⟨-, rfl, rfl⟩ := by simpa only [Prod.mk.injEq] using h
        rw [owned_set_used hblk]
        exact .refl _ _
      split at h
      · exact ih h
      rcases hnew : heapNewBlock (subWord 64 (addWord 64 size align) 1) w with ⟨_ | blk', w₁⟩
      · obtain ⟨-, rfl, rfl⟩ : _ ∧ a = a' ∧ w₁ = w' := by simpa [hnew] using h
        have hnone := (heapNewBlock_turns hnew).frame a.owned
        exact hnone.congr (zero_add _) (zero_add _)
      · simp only [hnew] at h
        have hsome := (heapNewBlock_turns hnew).frame_left a.owned
        refine (hsome.congr (add_zero _) ?_).trans (ih h)
        simp [HeapArena.owned]

theorem heapArenaAlloc_turns {a a' : HeapArena} {n : Nat} {w w' : World} {addr : Option Nat}
    (h : heapArenaAlloc a n w = (addr, a', w')) : Turns w.ledger a.owned w'.ledger a'.owned := by
  unfold heapArenaAlloc at h
  obtain ⟨blocks, tail⟩ := a
  cases blocks with
  | nil =>
    dsimp only at h
    rcases hnew : heapNewBlock (subWord 64 (addWord 64 n 1) 1) w with ⟨_ | blk, w₁⟩
    · obtain ⟨-, rfl, rfl⟩ : _ ∧ HeapArena.empty = a' ∧ w₁ = w' := by simpa [hnew] using h
      exact heapNewBlock_turns hnew
    · simp only [hnew] at h
      have hfirst : Turns w.ledger 0 w₁.ledger (HeapArena.owned ⟨[blk], some 0⟩) :=
        (heapNewBlock_turns hnew).congr rfl (by simp [HeapArena.owned])
      exact hfirst.trans (heapArenaLoop_turns h)
  | cons b blocks => exact heapArenaLoop_turns h

theorem arenaFree_turns (a : HeapArena) (w : World) :
    Turns w.ledger a.owned (arenaFree a w).ledger 0 := by
  unfold arenaFree HeapArena.owned
  induction a.blocks generalizing w with
  | nil => exact .refl _ _
  | cons b blocks ih =>
    rw [List.map_cons, List.sum_cons, List.foldl_cons]
    have hblock : Turns w.ledger b.owned ((w.free (some b.base)).free (some b.header)).ledger 0 :=
      free_after (b := some b.header) (free_turns w (some b.base))
    have hboth := hblock.seq (ih _)
    rwa [zero_add] at hboth

/-- A table that grows gives its old block back for the new one. -/
theorem nextSlot_turns (tbl : SymbolTable) (len : Nat) (w : World) :
    Turns w.ledger (owns tbl.block) (symbolTableNextSlot tbl len w).2.2.ledger
      (owns (symbolTableNextSlot tbl len w).2.1.block) := by
  unfold symbolTableNextSlot
  dsimp only
  split
  · split
    · rename_i hm
      exact ((malloc_turns hm).frame (owns tbl.block)).congr (zero_add _) (zero_add _)
    · rename_i b w' hm
      have hnew := (malloc_turns hm).frame (owns tbl.block)
      exact (hnew.trans ((free_turns w' tbl.block).frame_left (owns (some b)))).congr (zero_add _)
        (add_zero _)
  · exact .refl _ _

theorem heapNextSlot_turns (tbl : HeapTable) (len : Nat) (w : World) :
    Turns w.ledger tbl.owned (heapNextSlot tbl len w).2.2.ledger
      (heapNextSlot tbl len w).2.1.owned :=
  (nextSlot_turns tbl.erase len w).frame tbl.arena.owned

/-- An appended string belongs to its table, and a refused one takes nothing. -/
theorem heapAppend_turns (tbl : HeapTable) (str : Bytes) (len : Nat) (w : World) :
    Turns w.ledger tbl.owned (heapAppend tbl str len w).2.2.ledger
      (heapAppend tbl str len w).2.1.owned := by
  have hslot := heapNextSlot_turns tbl 1 w
  unfold heapAppend
  split
  · exact .refl _ _
  split
  · exact .refl _ _
  rcases hnext : heapNextSlot tbl 1 w with ⟨_ | slot, tbl', w₁⟩ <;> rw [hnext] at hslot
  · exact hslot
  dsimp only at hslot ⊢
  rcases halloc : heapArenaAlloc tbl'.arena (len + 1) w₁ with ⟨_ | addr, arena, w₂⟩ <;>
    exact hslot.trans ((heapArenaAlloc_turns halloc).frame_left (owns tbl'.block))

theorem symbolTableFree_turns (tbl : HeapTable) (w : World) :
    Turns w.ledger tbl.owned (symbolTableFree tbl w).ledger 0 := by
  have hboth := (free_turns w tbl.block).seq (arenaFree_turns tbl.arena (w.free tbl.block))
  rwa [zero_add] at hboth

/-! ## The tree -/

def ownsRoute (route : Option (Ptr Route)) : Multiset Nat := owns (route.map Ptr.block)

mutual
def HeapSegment.owned : HeapSegment → Multiset Nat
  | ⟨block, _, children, _, terminal, trailing, special, _, _⟩ =>
    ownedSpecial special + ownedChildren children + ownsRoute trailing + ownsRoute terminal +
      {block.id}

def ownedSpecial : HeapSpecial HeapSegment → Multiset Nat
  | .wildcard route => {route.block.id}
  | .param p => p.owned
  | .wildcardNull => 0
  | .paramNull => 0
  | .none => 0

def ownedChildren : List HeapSegment → Multiset Nat
  | [] => 0
  | c :: cs => c.owned + ownedChildren cs
end

theorem owned_eq (s : HeapSegment) : s.owned = ownedSpecial s.special + ownedChildren s.children +
    ownsRoute s.trailing + ownsRoute s.terminal + {s.block.id} := by
  cases s
  rw [HeapSegment.owned]

theorem ownedChildren_append (l m : List HeapSegment) :
    ownedChildren (l ++ m) = ownedChildren l + ownedChildren m := by
  induction l with
  | nil => rw [List.nil_append, ownedChildren, zero_add]
  | cons c l ih => rw [List.cons_append, ownedChildren, ownedChildren, ih, add_assoc]

/-- One child for another. -/
theorem ownedChildren_set {l : List HeapSegment} {i : Nat} {c : HeapSegment} (hi : l[i]? = some c)
    (c' : HeapSegment) : ∃ rest, ownedChildren l = c.owned + rest ∧
      ownedChildren (l.set i c') = c'.owned + rest := by
  induction l generalizing i with
  | nil => simp at hi
  | cons d l ih =>
    cases i with
    | zero =>
      obtain rfl : d = c := by simpa using hi
      exact ⟨ownedChildren l, rfl, rfl⟩
    | succ i =>
      obtain ⟨rest, hl, hset⟩ := ih (i := i) (by simpa using hi)
      refine ⟨d.owned + rest, ?_, ?_⟩
      · rw [ownedChildren, hl, add_left_comm]
      · rw [List.set_cons_succ, ownedChildren, hset, add_left_comm]

mutual
/-- Freeing a tree gives back each of its blocks once. -/
theorem segmentFree_turns : ∀ (s : HeapSegment) (w : World),
    Turns w.ledger s.owned (segmentFree s w).ledger 0
  | ⟨block, _, children, _, terminal, trailing, special, _, _⟩, w => by
    rw [HeapSegment.owned, segmentFree]
    have hspecial := segmentFreeSpecial_turns special w
    have hboth := hspecial.seq (segmentFreeChildren_turns children (segmentFreeSpecial special w))
    rw [zero_add] at hboth
    exact free_after (b := some block) (free_after (free_after hboth))

theorem segmentFreeSpecial_turns : ∀ (special : HeapSpecial HeapSegment) (w : World),
    Turns w.ledger (ownedSpecial special) (segmentFreeSpecial special w).ledger 0
  | .wildcard route, w => by
    rw [ownedSpecial, segmentFreeSpecial]
    exact free_turns w (some route.block)
  | .param p, w => by
    rw [ownedSpecial, segmentFreeSpecial]
    exact segmentFree_turns p w
  | .wildcardNull, w => .refl _ _
  | .paramNull, w => .refl _ _
  | .none, w => .refl _ _

theorem segmentFreeChildren_turns : ∀ (children : List HeapSegment) (w : World),
    Turns w.ledger (ownedChildren children) (segmentFreeChildren children w).ledger 0
  | [], w => .refl _ _
  | child :: rest, w => by
    rw [ownedChildren, segmentFreeChildren]
    have hboth := (segmentFree_turns child w).seq (segmentFreeChildren_turns rest _)
    rwa [zero_add] at hboth
end

/-- A segment that is created owns its block; one that is not leaves nothing behind. -/
theorem heapSegmentCreate_turns (tbl : HeapTable) (tok : Token) (w : World) :
    let r := heapSegmentCreate tbl tok w
    Turns w.ledger tbl.owned r.2.2.ledger
      ((r.1.toOption.elim 0 HeapSegment.owned) + r.2.1.owned) := by
  intro r
  unfold r heapSegmentCreate
  rcases hm : w.malloc 1 with ⟨_ | b, w₁⟩
  · exact ((malloc_turns hm).frame tbl.owned).congr (zero_add _) rfl
  have hblock : Turns w.ledger tbl.owned w₁.ledger ({b.id} + tbl.owned) :=
    ((malloc_turns hm).frame tbl.owned).congr (zero_add _) rfl
  have happend := (heapAppend_turns tbl (tok.ptr.getD []) tok.length w₁).frame_left {b.id}
  dsimp only
  rcases happ : heapAppend tbl (tok.ptr.getD []) tok.length w₁ with ⟨_ | s, tbl', w₂⟩ <;>
    rw [happ] at happend
  · exact (hblock.trans happend).trans ((free_turns w₂ (some b)).frame tbl'.owned)
  · refine (hblock.trans happend).congr rfl ?_
    simp [Except.toOption, owned_eq, HeapSegment.zero, ownedSpecial, ownedChildren, ownsRoute]

theorem heapSegmentCreate_leaf {tbl tbl' : HeapTable} {tok : Token} {w w' : World}
    {c : HeapSegment} (h : heapSegmentCreate tbl tok w = (.ok c, tbl', w')) :
    c.erase.Sound ∧ c.owned = {c.block.id} := by
  unfold heapSegmentCreate at h
  split at h
  · simp at h
  split at h
  · simp at h
  · simp only [Prod.mk.injEq, Except.ok.injEq] at h
    obtain ⟨rfl, -⟩ := h
    refine ⟨?_, ?_⟩
    · rw [erase_eq]
      exact sound_leaf _ none none _
    · simp [owned_eq, HeapSegment.zero, ownedSpecial, ownedChildren, ownsRoute]

/-- Appended at the tail, which is the end: nothing is cut off. -/
theorem heapAppendChild_ok {cur cur' child : HeapSegment} (hs : cur.erase.NodeOk)
    (h : heapAppendChild cur child = .ok cur') :
    cur'.owned = cur.owned + child.owned ∧ cur'.children[cur'.tail.getD 0]? = some child := by
  have htail := hs.tail_eq
  rw [erase_tail, erase_children, List.length_map] at htail
  unfold heapAppendChild at h
  split at h
  · simp at h
  cases hchildren : cur.children with
  | nil =>
    rw [hchildren] at h
    obtain rfl := Except.ok.inj h
    refine ⟨?_, rfl⟩
    rw [owned_eq, owned_eq cur, hchildren]
    simp only [ownedChildren]
    abel
  | cons c cs =>
    have htail' : cur.tail = some cs.length := by simpa [hchildren] using htail
    rw [hchildren, htail'] at h
    obtain rfl := Except.ok.inj h
    have htake : (c :: cs).take (cs.length + 1) = c :: cs :=
      List.take_of_length_le (Nat.le_refl _)
    refine ⟨?_, ?_⟩
    · rw [owned_eq, owned_eq cur, hchildren]
      dsimp only [Option.getD_some]
      rw [htake, ownedChildren_append]
      simp only [ownedChildren]
      abel
    · simp

/-! ## The walk -/

def HeapState.owned (st : HeapState) : Multiset Nat := st.literals.owned + st.params.owned

/-- The blocks a walk was given are in the tree and the tables it leaves, or given back. -/
def Keeps (cur : HeapSegment) (st : HeapState) (r : WrouterError × HeapSegment × HeapState) : Prop :=
  Turns st.world.ledger (cur.owned + st.owned) r.2.2.world.ledger (r.2.1.owned + r.2.2.owned)

section Keeps

variable {cur cur' : HeapSegment} {st st' : HeapState} {r : WrouterError × HeapSegment × HeapState}

theorem keeps_stop (cur : HeapSegment) (st : HeapState) (e : WrouterError) : Keeps cur st (e, cur, st) :=
  .refl _ _

theorem Keeps.after (h' : Keeps cur' st' r)
    (h : Turns st.world.ledger (cur.owned + st.owned) st'.world.ledger (cur'.owned + st'.owned)) :
    Keeps cur st r :=
  h.trans h'

/-- Down to a child, which the walk may change, and back. -/
theorem Keeps.child {c : HeapSegment} {i : Nat} (hi : cur.children[i]? = some c) (h : Keeps c st r) :
    Keeps cur st (r.1, { cur with children := cur.children.set i r.2.1 }, r.2.2) := by
  obtain ⟨rest, hget, hset⟩ := ownedChildren_set hi r.2.1
  have hframe := h.frame (ownedSpecial cur.special + rest + ownsRoute cur.trailing +
    ownsRoute cur.terminal + {cur.block.id})
  refine hframe.congr ?_ ?_
  · rw [owned_eq cur, hget]
    abel
  · rw [owned_eq { cur with children := cur.children.set i r.2.1 }]
    dsimp only
    rw [hset]
    abel

/-- Walking on at the parameter's node keeps what its parent has. -/
theorem Keeps.param {p : HeapSegment} (hp : cur.special = .param p) (h : Keeps p st r) :
    Keeps cur st (r.1, { cur with special := .param r.2.1 }, r.2.2) := by
  have hframe := h.frame (ownedChildren cur.children + ownsRoute cur.trailing +
    ownsRoute cur.terminal + {cur.block.id})
  refine hframe.congr ?_ ?_
  · rw [owned_eq cur, hp, ownedSpecial]
    abel
  · rw [owned_eq { cur with special := .param r.2.1 }, ownedSpecial]
    abel

/-- Something new is hung where nothing was, and the tables are as before. -/
theorem keeps_hang {new : Multiset Nat} (e : WrouterError) (hcur : cur'.owned = cur.owned + new)
    (hst : st'.owned = st.owned) (h : Turns st.world.ledger 0 st'.world.ledger new) :
    Keeps cur st (e, cur', st') := by
  have hframe := h.frame (cur.owned + st.owned)
  refine hframe.congr (zero_add _) ?_
  dsimp only
  rw [hcur, hst]
  abel

end Keeps

theorem owned_set_terminal {s : HeapSegment} (h : s.terminal = none) (t : Option (Ptr Route)) :
    HeapSegment.owned { s with terminal := t } = s.owned + ownsRoute t := by
  rw [owned_eq, owned_eq s, h]
  simp only [ownsRoute, Option.map_none, owns_none]
  abel

theorem owned_set_trailing {s : HeapSegment} (h : s.trailing = none) (t : Option (Ptr Route)) :
    HeapSegment.owned { s with trailing := t } = s.owned + ownsRoute t := by
  rw [owned_eq, owned_eq s, h]
  simp only [ownsRoute, Option.map_none, owns_none]
  abel

theorem owned_set_special {s : HeapSegment} (h : s.special = .none) (sp : HeapSpecial HeapSegment) :
    HeapSegment.owned { s with special := sp } = s.owned + ownedSpecial sp := by
  rw [owned_eq, owned_eq s, h]
  simp only [ownedSpecial]
  abel

/-- The copy of a route belongs to the node it is hung on. -/
theorem heapTerminate_turns (retain : Bool) (route : Route) (st : HeapState) :
    let r := heapTerminate retain route st
    r.2.owned = st.owned ∧ Turns st.world.ledger 0 r.2.world.ledger (ownsRoute r.1) := by
  intro r
  unfold r heapTerminate
  rcases hm : st.world.malloc 1 with ⟨_ | b, w⟩
  · exact ⟨rfl, malloc_turns hm⟩
  · refine ⟨rfl, ?_⟩
    dsimp only
    rw [retain_ledger]
    exact malloc_turns hm

section Walk

variable {retain : Bool} {route : Route} {tok : Token} {toks : List Token}
  {cur : HeapSegment} {st : HeapState}

/-- At the end of a pattern the route goes to the node's terminal. -/
theorem keeps_end (htype : tok.type = .end_) :
    Keeps cur st (heapWalk retain route (tok :: toks) cur st) := by
  rw [heapWalk, htype]
  dsimp only
  split
  · exact keeps_stop _ _ _
  · rename_i hnone
    obtain ⟨howned, hturns⟩ := heapTerminate_turns retain route st
    have hterminal : cur.terminal = none := by simpa using hnone
    exact keeps_hang _ (owned_set_terminal hterminal _) howned hturns

theorem keeps_trailing (htype : tok.type = .trailing) :
    Keeps cur st (heapWalk retain route (tok :: toks) cur st) := by
  rw [heapWalk, htype]
  dsimp only
  split
  · exact keeps_stop _ _ _
  · rename_i hnone
    obtain ⟨howned, hturns⟩ := heapTerminate_turns retain route st
    have htrailing : cur.trailing = none := by simpa using hnone
    exact keeps_hang _ (owned_set_trailing htrailing _) howned hturns

theorem keeps_wildcard (htype : tok.type = .wildcard) :
    Keeps cur st (heapWalk retain route (tok :: toks) cur st) := by
  rw [heapWalk, htype]
  dsimp only
  cases hspecial : cur.special with
  | none =>
    dsimp only
    split
    · exact keeps_stop _ _ _
    · obtain ⟨howned, hturns⟩ := heapTerminate_turns retain route st
      rcases hterminate : heapTerminate retain route st with ⟨_ | p, st'⟩ <;>
        rw [hterminate] at howned hturns <;>
        exact keeps_hang _ (owned_set_special hspecial _) howned hturns
  | _ => exact keeps_stop _ _ _

/-- A segment made for the walk, from either table. -/
theorem create_param_turns (tok : Token) (cur : HeapSegment) (st : HeapState) :
    let r := heapSegmentCreate st.params tok st.world
    Turns st.world.ledger (cur.owned + st.owned) r.2.2.ledger
      (cur.owned + r.1.toOption.elim 0 HeapSegment.owned +
        HeapState.owned { st with params := r.2.1, world := r.2.2 }) := by
  intro r
  have hframe := (heapSegmentCreate_turns st.params tok st.world).frame
    (cur.owned + st.literals.owned)
  refine hframe.congr ?_ ?_ <;>
    · simp only [HeapState.owned]
      abel

theorem create_literal_turns (tok : Token) (cur : HeapSegment) (st : HeapState) :
    let r := heapSegmentCreate st.literals tok st.world
    Turns st.world.ledger (cur.owned + st.owned) r.2.2.ledger
      (cur.owned + r.1.toOption.elim 0 HeapSegment.owned +
        HeapState.owned { st with literals := r.2.1, world := r.2.2 }) := by
  intro r
  have hframe := (heapSegmentCreate_turns st.literals tok st.world).frame
    (cur.owned + st.params.owned)
  refine hframe.congr ?_ ?_ <;>
    · simp only [HeapState.owned]
      abel

variable (hs : cur.erase.Sound)
  (ih : ∀ (cur : HeapSegment) (st : HeapState), cur.erase.Sound →
    Keeps cur st (heapWalk retain route toks cur st))
include hs ih

/-- A parameter makes a node of its own, or the walk goes on below. -/
theorem keeps_param (htype : tok.type = .param) :
    Keeps cur st (heapWalk retain route (tok :: toks) cur st) := by
  rw [heapWalk, htype]
  dsimp only
  cases hspecial : cur.special with
  | none =>
    dsimp only
    split
    · exact keeps_stop _ _ _
    have hcreate := create_param_turns tok cur st
    rcases hsegment : heapSegmentCreate st.params tok st.world with ⟨e | p, tbl, w⟩ <;>
      rw [hsegment] at hcreate
    · refine Keeps.after (keeps_stop _ _ e) ?_
      rw [owned_set_special hspecial]
      exact hcreate
    · have hwalk := ih p { st with params := tbl, world := w } (heapSegmentCreate_leaf hsegment).1
      have hparam : HeapSegment.special { cur with special := .param p } = .param p := rfl
      refine (hwalk.param hparam).after ?_
      rw [owned_set_special hspecial, ownedSpecial]
      exact hcreate
  | param p =>
    have hp : p.erase.Sound := by
      refine hs.param (p := p.erase) ?_
      rw [erase_special, hspecial]
      rfl
    dsimp only
    split
    · exact keeps_stop _ _ _
    split
    · exact keeps_stop _ _ _
    · exact (ih p st hp).param hspecial
  | _ => exact keeps_stop _ _ _

/-- A literal makes a child of its own, or the walk goes on in one. -/
theorem keeps_literal (htype : tok.type = .literal) :
    Keeps cur st (heapWalk retain route (tok :: toks) cur st) := by
  have hdown {cur c : HeapSegment} {i : Nat} (st : HeapState) (hi : cur.children[i]? = some c)
      (hc : c.erase.Sound) : Keeps cur st
        (let r := heapWalk retain route toks (cur.children.getD i (.zero ⟨0, 0⟩)) st
        (r.1, { cur with children := cur.children.set i r.2.1 }, r.2.2)) := by
    rw [List.getD_eq_getElem?_getD, hi, Option.getD_some]
    exact (ih c st hc).child hi
  rw [heapWalk, htype]
  dsimp only
  split
  · exact keeps_stop _ _ _
  · exact keeps_stop _ _ _
  cases hfind : segmentFindChildByToken cur.erase tok with
  | some i =>
    obtain ⟨_, hfound, -⟩ := segmentFindChildByToken_some hfind
    rw [erase_children, List.getElem?_map] at hfound
    obtain ⟨c, hi, rfl⟩ := Option.map_eq_some_iff.mp hfound
    refine hdown st hi (hs.child ?_)
    rw [erase_children]
    exact List.mem_map_of_mem (List.mem_of_getElem? hi)
  | none =>
    have hcreate := create_literal_turns tok cur st
    dsimp only
    rcases hsegment : heapSegmentCreate st.literals tok st.world with ⟨e | c, tbl, w⟩ <;>
      rw [hsegment] at hcreate
    · exact (keeps_stop cur _ e).after (hcreate.congr rfl (congrArg (· + _) (add_zero cur.owned)))
    obtain ⟨hc, howned⟩ := heapSegmentCreate_leaf hsegment
    dsimp only
    rcases happend : heapAppendChild cur c with e | cur'
    · -- the node is full: the segment that was made for it goes again
      have hfree := (free_turns w (some c.block)).frame_left
        (cur.owned + HeapState.owned { st with literals := tbl, world := w })
      refine (keeps_stop cur _ e).after (hcreate.trans (hfree.congr ?_ (add_zero _)))
      simp only [Except.toOption, Option.elim, howned, owns_some]
      abel
    · obtain ⟨hgrown, hi⟩ := heapAppendChild_ok hs.node happend
      refine (hdown { st with literals := tbl, world := w } hi hc).after ?_
      rw [hgrown]
      exact hcreate

end Walk

/-- The walk keeps every block, on a tree that was sound: after a failure it need not be. -/
theorem heapWalk_keeps (retain : Bool) (route : Route) (toks : List Token) {cur : HeapSegment}
    (hs : cur.erase.Sound) (st : HeapState) :
    Keeps cur st (heapWalk retain route toks cur st) := by
  induction toks generalizing cur st with
  | nil => exact keeps_stop _ _ _
  | cons tok toks ih =>
    cases htype : tok.type with
    | end_ => exact keeps_end htype
    | trailing => exact keeps_trailing htype
    | wildcard => exact keeps_wildcard htype
    | param => exact keeps_param hs (fun cur st hs => ih hs st) htype
    | literal => exact keeps_literal hs (fun cur st hs => ih hs st) htype
    | illegal =>
      rw [heapWalk, htype]
      exact keeps_stop _ _ _

/-! ## The builder -/

def HeapBuilder.owned (b : HeapBuilder) : Multiset Nat :=
  b.root.owned + (b.literals.owned + b.params.owned) + {b.block.id}

/-- What a call takes is the builder's, whether it succeeds or fails. -/
theorem heapAddRoute_turns {b : HeapBuilder} (hb : b.erase.Usable) (pattern : Option Bytes)
    (route : Route) (w : World) :
    let r := heapAddRoute b pattern route w
    Turns w.ledger b.owned r.2.2.ledger r.2.1.owned := by
  intro r
  have hcall : Turns w.ledger b.owned (heapBuilderAddRoute b pattern route w).2.2.ledger
      (heapBuilderAddRoute b pattern route w).2.1.owned := by
    unfold heapBuilderAddRoute
    cases hcorrupted : b.corrupted with
    | true => exact .refl _ _
    | false =>
      obtain ⟨es, hes⟩ := hb hcorrupted
      exact (heapWalk_keeps b.retain route (patternTokens b.paramSyntax pattern) hes.sound
        ⟨b.literals, b.params, w⟩).frame {b.block.id}
  unfold r heapAddRoute
  dsimp only
  split <;> exact hcall

/-- A created builder owns what was taken, and a refused one leaves nothing. -/
theorem heapBuilderCreate_turns {options : Options} {w w' : World} {b : Option HeapBuilder}
    (h : heapBuilderCreate options w = some (b, w')) :
    Turns w.ledger 0 w'.ledger (b.elim 0 HeapBuilder.owned) := by
  unfold heapBuilderCreate at h
  rcases hblock : w.malloc 1 with ⟨_ | block, w₁⟩
  · obtain ⟨rfl, rfl⟩ : none = b ∧ w₁ = w' := by simpa [hblock] using h
    exact malloc_turns hblock
  have hfirst := malloc_turns hblock
  rw [← retain_ledger w₁ options.retain options.fallbackCtx] at hfirst
  simp only [hblock] at h
  rcases hroot : (w₁.retain options.retain options.fallbackCtx).malloc 1 with ⟨_ | root, w₂⟩
  · have hboth := hfirst.seq (malloc_turns hroot)
    simp only [hroot] at h
    split at h
    · simp at h
    · obtain ⟨rfl, rfl⟩ := by simpa only [Option.some.injEq, Prod.mk.injEq] using h
      exact (hboth.congr (add_zero _) (add_zero _)).trans (free_turns w₂ (some block))
  · have hboth := hfirst.seq (malloc_turns hroot)
    simp only [hroot, Option.some.injEq, Prod.mk.injEq] at h
    obtain ⟨rfl, rfl⟩ := h
    refine hboth.congr (add_zero _) ?_
    simp [HeapBuilder.owned, owned_eq, HeapSegment.zero, ownedSpecial, ownedChildren, ownsRoute,
      HeapTable.owned, HeapTable.empty, HeapArena.owned, HeapArena.empty, add_comm]

@[simp] theorem releaseAll_ledger (w : World) (installed : Bool) (ctxs : List Nat) :
    (w.releaseAll installed ctxs).ledger = w.ledger := by
  unfold World.releaseAll
  induction ctxs generalizing w with
  | nil => rfl
  | cons ctx ctxs ih => rw [List.foldl_cons, ih, release_ledger]

theorem builderRelease_ledger {b : Builder} {w w' : World} (h : builderRelease b w = some w') :
    w'.ledger = w.ledger := by
  unfold builderRelease at h
  split at h
  · obtain rfl := Option.some.inj h
    rfl
  · rw [segmentRelease_eq] at h
    split at h
    · obtain rfl := Option.some.inj h
      rw [release_ledger, releaseAll_ledger]
    · simp at h

/-- Callbacks first, then every block of the builder. -/
theorem heapBuilderFree_turns {b : HeapBuilder} {w w' : World} (h : heapBuilderFree b w = some w') :
    Turns w.ledger b.owned w'.ledger 0 := by
  obtain ⟨v, hrelease, rfl⟩ := Option.map_eq_some_iff.mp h
  rw [← builderRelease_ledger hrelease]
  have hliterals := symbolTableFree_turns b.literals v
  have hparams := symbolTableFree_turns b.params (symbolTableFree b.literals v)
  have hroot := segmentFree_turns b.root (symbolTableFree b.params (symbolTableFree b.literals v))
  have hparts := ((hliterals.seq hparams).seq hroot).congr (add_comm _ _) (add_zero _)
  exact free_after (b := some b.block) hparts

end Wrouter
