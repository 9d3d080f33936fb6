import Wrouter.Arena

/-!
# Symbols

While routes are added every literal and every parameter name is interned in a
table, in order of first appearance. Compiling a table copies its strings, sorted,
into one region; a symbol is then a position in the sorted list, counted from one.
-/
namespace Wrouter

open CLib

/-- A `char *` to a terminated string: where it lies and what it reads as. -/
structure CString where
  addr : Nat
  text : Bytes
  deriving DecidableEq, Repr

/-- The claimed slots of the pointer array; a slot nothing was stored in is none. -/
structure SymbolTable where
  base : List (Option CString)
  block : Option Block
  count : Nat
  capacity : Nat
  arena : Arena
  deriving DecidableEq, Repr

def SymbolTable.empty : SymbolTable := ⟨[], none, 0, 0, .empty⟩

/-- `while (new_cap < need) new_cap *= 2`; every pass adds at least one. -/
def growCapacity : Nat → Nat → Nat → Nat
  | 0, newCap, _ => newCap
  | fuel + 1, newCap, need =>
    if newCap < need then growCapacity fuel (newCap * 2) need else newCap

def symbolTableNextSlot (tbl : SymbolTable) (len : Nat) (w : World) :
    Option Nat × SymbolTable × World :=
  let claim (tbl : SymbolTable) : SymbolTable :=
    { tbl with base := tbl.base ++ List.replicate len none, count := tbl.count + len }
  if tbl.count + len > tbl.capacity then
    let newCap := growCapacity (tbl.count + len)
      (if tbl.capacity ≠ 0 then tbl.capacity * 2 else 1024) (tbl.count + len)
    match w.malloc (newCap * 8) with
    | (none, w) => (none, tbl, w)
    | (some b, w) =>
      (some tbl.count, claim { tbl with block := some b, capacity := newCap }, w.free tbl.block)
  else (some tbl.count, claim tbl, w)

/-- The first entry that equals the `len` bytes at `str`. -/
def symbolDuplicate (str : Bytes) (len : Nat) : List (Option CString) → Option CString
  | [] => none
  | none :: rest => symbolDuplicate str len rest
  | some e :: rest =>
    if strncmp e.text str len = 0 ∧ deref (e.text.drop len) = 0 then some e
    else symbolDuplicate str len rest

def symbolAppend (tbl : SymbolTable) (str : Bytes) (len : Nat) (w : World) :
    Except WrouterError CString × SymbolTable × World :=
  if tbl.count ≥ 65535 then (.error .outOfRange, tbl, w)
  else match symbolDuplicate str len tbl.base with
    | some e => (.ok e, tbl, w)
    | none =>
      match symbolTableNextSlot tbl 1 w with
      | (none, tbl, w) => (.error .noMemory, tbl, w)
      | (some slot, tbl, w) =>
        match arenaAlloc tbl.arena (len + 1) w with
        | (none, arena, w) => (.error .noMemory, { tbl with arena := arena }, w)
        | (some addr, arena, w) =>
          let a : CString := ⟨addr, str.take len⟩
          (.ok a, { tbl with arena := arena, base := tbl.base.set slot (some a) }, w)

/-- A counted key against a terminated symbol. -/
def symbolNcompare (key : Bytes) (n : Nat) (sym : Bytes) : Int :=
  match n with
  | 0 => if deref sym = 0 then 0 else - (deref sym).toNat
  | n + 1 =>
    if deref key ≠ deref sym then (deref key).toNat - (deref sym).toNat
    else symbolNcompare key.tail n sym.tail

/-- `for (; *key && *sym; key++, sym++)`, both terminated. -/
def symbolCompare : Bytes → Bytes → Int
  | [], sym => if deref sym = 0 then 0 else 0 - (deref sym).toNat
  | k :: key, sym =>
    if k ≠ 0 ∧ deref sym ≠ 0 then
      if k ≠ deref sym then (k.toNat : Int) - (deref sym).toNat else symbolCompare key sym.tail
    else if k = 0 ∧ deref sym = 0 then 0
    else (k.toNat : Int) - (deref sym).toNat

structure Symbols where
  base : Option (Ptr (List CString))
  region : Option Block
  count : Nat
  deriving DecidableEq, Repr

def Symbols.zero : Symbols := ⟨none, none, 0⟩

def Symbols.entries (sym : Symbols) : List CString := (sym.base.map Ptr.data).getD []

/-- The copy loop: strings follow one another in the region, terminators included. -/
def symbolCopy (region : Nat) : Nat → List CString → List CString
  | _, [] => []
  | cursor, s :: rest =>
    ⟨region + cursor, s.text.take (strlen s.text)⟩ ::
      symbolCopy region (cursor + (strlen s.text + 1)) rest

def symbolsFree (sym : Symbols) (w : World) : World :=
  (w.free sym.region).free (sym.base.map Ptr.block)

def strpcmp (p q : CString) : Int := strcmp p.text q.text

/-- The copied pointers, sorted by string contents. -/
def symbolSort (L : Libc) (tbl : SymbolTable) : List CString :=
  L.qsort strpcmp (tbl.base.map (fun slot => slot.getD ⟨0, []⟩))

/-- On failure what was allocated is freed, but the fields keep their pointers. -/
def symbolCompile (L : Libc) (tbl : SymbolTable) (w : World) : WrouterError × Symbols × World :=
  let sym : Symbols := { Symbols.zero with count := tbl.count }
  if sym.count = 0 then (.ok, sym, w)
  else match w.malloc (8 * sym.count) with
    | (none, w) => (.noMemory, sym, symbolsFree sym w)
    | (some b, w) =>
      let sym := { sym with base := some ⟨b, []⟩ }
      match w.malloc (arenaUsed tbl.arena) with
      | (none, w) => (.noMemory, sym, symbolsFree sym w)
      | (some region, w) =>
        let copied := symbolCopy region.addr 0 (symbolSort L tbl)
        (.ok, { sym with base := some ⟨b, copied⟩, region := some region }, w)

/-- Zero is no symbol; a found index is counted from one. -/
def symbolNresolve (L : Libc) (sym : Symbols) (key : Bytes) (n : Nat) : Nat :=
  match L.bsearch (fun k e => symbolNcompare k n e.text) key sym.entries with
  | some i => i + 1
  | none => 0

def symbolResolve (L : Libc) (sym : Symbols) (key : Bytes) : Nat :=
  match L.bsearch (fun k e => symbolCompare k e.text) key sym.entries with
  | some i => i + 1
  | none => 0

def symbolLookup (sym : Symbols) (symbol : Nat) : Option CString :=
  if symbol = 0 then none else sym.entries[symbol - 1]?

/-! ## Interning -/

def SymbolTable.texts (tbl : SymbolTable) : List Bytes :=
  tbl.base.map (fun slot => (slot.getD ⟨0, []⟩).text)

structure SymbolTable.Ok (tbl : SymbolTable) : Prop where
  count_eq : tbl.count = tbl.base.length
  written : ∀ slot ∈ tbl.base, slot.isSome
  nulFree : ∀ s ∈ tbl.texts, NulFree s
  nodup : tbl.texts.Nodup
  bound : tbl.count ≤ 65535

theorem symbolTable_empty_ok : SymbolTable.empty.Ok :=
  ⟨rfl, by simp [SymbolTable.empty], by simp [SymbolTable.empty, SymbolTable.texts],
    by simp [SymbolTable.empty, SymbolTable.texts], by simp [SymbolTable.empty]⟩

/-- The duplicate test, one entry at a time. -/
theorem duplicate_test {e str : Bytes} {len : Nat} (he : NulFree e) (hlen : len ≤ str.length)
    (hs : NulFree (str.take len)) :
    strncmp e str len = 0 ∧ deref (e.drop len) = 0 ↔ e = str.take len := by
  rw [strncmp_eq_zero hlen hs]
  constructor
  · rintro ⟨ht, hd⟩
    have hnil : e.drop len = [] := by
      cases hc : e.drop len with
      | nil => rfl
      | cons b c =>
        have hb : b = 0 := by simpa [hc] using hd
        have hmem : b ∈ e := List.mem_of_mem_drop (by rw [hc]; exact List.mem_cons_self)
        exact absurd (hb ▸ hmem) he
    rw [← ht, ← List.append_nil (e.take len), ← hnil, List.take_append_drop]
  · intro h
    have hle : e.length ≤ len := by rw [h, List.length_take]; exact Nat.min_le_left ..
    rw [List.take_of_length_le hle, List.drop_of_length_le hle]
    exact ⟨h, rfl⟩

/-- An entry that is found has the bytes that were looked for. -/
theorem symbolDuplicate_some {str : Bytes} {len : Nat} {base : List (Option CString)} {e : CString}
    (hb : ∀ s ∈ base.map (fun slot => (slot.getD ⟨0, []⟩).text), NulFree s)
    (hlen : len ≤ str.length) (hs : NulFree (str.take len))
    (h : symbolDuplicate str len base = some e) : some e ∈ base ∧ e.text = str.take len := by
  induction base with
  | nil => simp [symbolDuplicate] at h
  | cons slot rest ih =>
    simp only [List.map_cons, List.mem_cons, forall_eq_or_imp] at hb
    cases slot with
    | none => exact ⟨List.mem_cons_of_mem _ (ih hb.2 h).1, (ih hb.2 h).2⟩
    | some f =>
      have ht := duplicate_test hb.1 hlen hs
      simp only [Option.getD_some] at ht
      simp only [symbolDuplicate] at h
      split at h
      · rename_i hc
        cases h
        exact ⟨List.mem_cons_self, ht.mp hc⟩
      · exact ⟨List.mem_cons_of_mem _ (ih hb.2 h).1, (ih hb.2 h).2⟩

theorem symbolDuplicate_none {str : Bytes} {len : Nat} {base : List (Option CString)}
    (hw : ∀ slot ∈ base, slot.isSome)
    (hb : ∀ s ∈ base.map (fun slot => (slot.getD ⟨0, []⟩).text), NulFree s)
    (hlen : len ≤ str.length) (hs : NulFree (str.take len))
    (h : symbolDuplicate str len base = none) :
    str.take len ∉ base.map (fun slot => (slot.getD ⟨0, []⟩).text) := by
  induction base with
  | nil => simp
  | cons slot rest ih =>
    simp only [List.map_cons, List.mem_cons, forall_eq_or_imp] at hb hw
    cases slot with
    | none => simp at hw
    | some f =>
      have ht := duplicate_test hb.1 hlen hs
      simp only [Option.getD_some] at ht
      simp only [symbolDuplicate] at h
      split at h
      · simp at h
      · rename_i hc
        simp only [List.map_cons, List.mem_cons, not_or, Option.getD_some]
        exact ⟨fun he => hc (ht.mpr he.symm), ih hw.2 hb.2 h⟩

/-- Claiming one slot: a successful call appends an unwritten slot at the old count. -/
theorem symbolTableNextSlot_some {tbl tbl' : SymbolTable} {w w' : World} {slot : Nat}
    (h : symbolTableNextSlot tbl 1 w = (some slot, tbl', w')) :
    slot = tbl.count ∧ tbl'.base = tbl.base ++ [none] ∧ tbl'.count = tbl.count + 1 := by
  unfold symbolTableNextSlot at h
  split at h
  · dsimp only at h
    split at h
    · simp at h
    · simp only [Prod.mk.injEq, Option.some.injEq] at h
      obtain ⟨rfl, rfl, -⟩ := h
      exact ⟨rfl, rfl, rfl⟩
  · simp only [Prod.mk.injEq, Option.some.injEq] at h
    obtain ⟨rfl, rfl, -⟩ := h
    exact ⟨rfl, rfl, rfl⟩

/-- A successful append returns the key's text and leaves a good table that has it. -/
theorem symbolAppend_ok {tbl tbl' : SymbolTable} {str : Bytes} {len : Nat} {w w' : World}
    {e : CString} (ht : tbl.Ok) (hlen : len ≤ str.length) (hs : NulFree (str.take len))
    (h : symbolAppend tbl str len w = (.ok e, tbl', w')) :
    e.text = str.take len ∧ tbl'.Ok ∧
      ∀ s, s ∈ tbl'.texts ↔ s ∈ tbl.texts ∨ s = str.take len := by
  unfold symbolAppend at h
  split at h
  · simp at h
  rename_i hcount
  split at h
  · rename_i f hf
    obtain ⟨rfl, rfl, -⟩ : f = e ∧ tbl = tbl' ∧ w = w' := by simpa using h
    obtain ⟨hmem, htext⟩ := symbolDuplicate_some ht.nulFree hlen hs hf
    refine ⟨htext, ht, fun s => ⟨Or.inl, ?_⟩⟩
    rintro (h | rfl)
    · exact h
    · exact List.mem_map.mpr ⟨some f, hmem, htext⟩
  · rename_i hdup
    have hnew := symbolDuplicate_none ht.written ht.nulFree hlen hs hdup
    split at h
    · simp at h
    rename_i slot tbl₁ w₁ hslot
    obtain ⟨rfl, hbase, hcount'⟩ := symbolTableNextSlot_some hslot
    split at h
    · simp at h
    rename_i addr arena w₂ _
    simp only [Prod.mk.injEq, Except.ok.injEq] at h
    obtain ⟨rfl, rfl, -⟩ := h
    have hset : tbl₁.base.set tbl.count (some ⟨addr, str.take len⟩) =
        tbl.base ++ [some ⟨addr, str.take len⟩] := by
      rw [hbase, ht.count_eq, List.set_append_right _ _ (Nat.le_refl _), Nat.sub_self]
      rfl
    have htexts : (tbl.base ++ [some (⟨addr, str.take len⟩ : CString)]).map
        (fun slot => (slot.getD ⟨0, []⟩).text) = tbl.texts ++ [str.take len] := by
      simp [SymbolTable.texts]
    refine ⟨rfl, ⟨?_, ?_, ?_, ?_, ?_⟩, ?_⟩
    · simp only [List.length_set, hbase, hcount', ht.count_eq, List.length_append,
        List.length_singleton]
    · intro slot hslot
      simp only [hset, List.mem_append, List.mem_singleton] at hslot
      rcases hslot with hslot | rfl
      · exact ht.written slot hslot
      · rfl
    · intro s hs'
      simp only [SymbolTable.texts, hset, htexts, List.mem_append, List.mem_singleton] at hs'
      rcases hs' with hs' | rfl
      · exact ht.nulFree s hs'
      · exact hs
    · simp only [SymbolTable.texts, hset, htexts]
      exact List.Nodup.append ht.nodup (List.nodup_singleton _) (by simpa using hnew)
    · simp only [hcount']
      omega
    · intro s
      simp only [SymbolTable.texts, hset, htexts, List.mem_append, List.mem_singleton]

/-! ## Compiled symbols -/

def Symbols.texts (sym : Symbols) : List Bytes := sym.entries.map CString.text

structure Symbols.Ok (sym : Symbols) : Prop where
  nulFree : ∀ s ∈ sym.texts, NulFree s
  sorted : sym.texts.Pairwise (fun s t => strcmp s t < 0)
  bound : sym.texts.length ≤ 65535

@[simp] theorem texts_mk (b : Block) (l : List CString) (r : Option Block) (n : Nat) :
    (Symbols.mk (some ⟨b, l⟩) r n).texts = l.map CString.text := rfl

/-- The symbol of a string: its position counted from one, or zero. -/
def Symbols.symbolOf (sym : Symbols) (s : Bytes) : Nat :=
  if s ∈ sym.texts then sym.texts.idxOf s + 1 else 0

theorem symbolCopy_texts (region cursor : Nat) (l : List CString)
    (h : ∀ e ∈ l, NulFree e.text) : (symbolCopy region cursor l).map CString.text =
      l.map CString.text := by
  induction l generalizing cursor with
  | nil => rfl
  | cons e l ih =>
    simp only [List.mem_cons, forall_eq_or_imp] at h
    simp [symbolCopy, ih _ h.2, strlen_eq h.1]

theorem symbolSort_texts (L : Libc) (tbl : SymbolTable) :
    ((symbolSort L tbl).map CString.text).Perm tbl.texts := by
  have h := (L.qsort_perm strpcmp (tbl.base.map (fun slot => slot.getD ⟨0, []⟩))).map CString.text
  simpa [symbolSort, SymbolTable.texts, Function.comp_def] using h

/-- The copied strings are strictly sorted. -/
theorem symbolSort_sorted {tbl : SymbolTable} (L : Libc) (ht : tbl.Ok) :
    (symbolSort L tbl).Pairwise (fun p q => strcmp p.text q.text < 0) := by
  apply L.qsort_strict (consistent_strcmp.comap CString.text)
  have hnodup := ht.nodup
  simp only [SymbolTable.texts, List.Nodup] at hnodup
  rw [List.pairwise_map] at hnodup ⊢
  refine hnodup.imp_of_mem ?_
  intro p q hp hq hpq hz
  have hfp := ht.nulFree _ (List.mem_map_of_mem hp)
  have hfq := ht.nulFree _ (List.mem_map_of_mem hq)
  exact hpq ((strcmp_eq_zero hfp hfq).mp hz)

/-- Compiling a good table sorts its strings and loses none. -/
theorem symbolCompile_ok {L : Libc} {tbl : SymbolTable} {w w' : World} {sym : Symbols}
    (ht : tbl.Ok) (h : symbolCompile L tbl w = (.ok, sym, w')) :
    sym.Ok ∧ sym.texts.Perm tbl.texts := by
  have hlen : tbl.texts.length = tbl.count := by simp [SymbolTable.texts, ht.count_eq]
  unfold symbolCompile at h
  dsimp only at h
  split at h
  · rename_i hz
    simp only [Prod.mk.injEq, true_and] at h
    obtain ⟨rfl, -⟩ := h
    have hnil : tbl.texts = [] := List.length_eq_zero_iff.mp (hlen.trans hz)
    refine ⟨⟨?_, ?_, ?_⟩, ?_⟩ <;> simp [Symbols.texts, Symbols.entries, Symbols.zero, hnil]
  · split at h
    · simp at h
    split at h
    · simp at h
    rename_i _ b _ _ _ region _ _
    simp only [Prod.mk.injEq, true_and] at h
    obtain ⟨rfl, -⟩ := h
    have hperm := symbolSort_texts L tbl
    have hfree : ∀ s ∈ (symbolSort L tbl).map CString.text, NulFree s :=
      fun s hs => ht.nulFree s (hperm.mem_iff.mp hs)
    have htexts := symbolCopy_texts region.addr 0 (symbolSort L tbl)
      (fun e he => hfree _ (List.mem_map_of_mem he))
    refine ⟨⟨?_, ?_, ?_⟩, ?_⟩
    · simpa only [texts_mk, htexts] using hfree
    · simp only [texts_mk]
      rw [htexts, List.pairwise_map]
      exact symbolSort_sorted L ht
    · simp only [texts_mk]
      rw [htexts, hperm.length_eq, hlen]
      exact ht.bound
    · simpa only [texts_mk, htexts] using hperm

theorem symbolCompile_count {L : Libc} {tbl : SymbolTable} {sym : Symbols} {w w' : World}
    (h : symbolCompile L tbl w = (.ok, sym, w')) : sym.count = tbl.count := by
  unfold symbolCompile at h
  dsimp only at h
  split at h
  · exact congrArg (fun r => r.2.1.count) h.symm
  split at h
  · simp at h
  split at h
  · simp at h
  · exact congrArg (fun r => r.2.1.count) h.symm

/-! ## Resolution -/

/-- The counted comparator is `strcmp` on the counted bytes. -/
theorem symbolNcompare_eq (key : Bytes) (n : Nat) (sym : Bytes) (hn : n ≤ key.length)
    (hk : NulFree (key.take n)) : symbolNcompare key n sym = strcmp (key.take n) sym := by
  induction n generalizing key sym with
  | zero => by_cases h : deref sym = 0 <;> simp [symbolNcompare, strcmp, h]
  | succ n ih =>
    cases key with
    | nil => simp at hn
    | cons k key =>
      obtain ⟨hk0, hk⟩ := (nulFree_cons k (key.take n)).mp hk
      by_cases hs : k = deref sym
      · simp [symbolNcompare, strcmp, hk0, ← hs, ih key sym.tail (by simpa using hn) hk]
      · simp [symbolNcompare, strcmp, hs]

/-- The loop compares as `strcmp` does. -/
theorem symbolCompare_eq (key sym : Bytes) : symbolCompare key sym = strcmp key sym := by
  induction key generalizing sym with
  | nil => by_cases h : deref sym = 0 <;> simp [symbolCompare, strcmp, h]
  | cons k key ih =>
    by_cases hk : k = 0
    · by_cases hs : deref sym = 0 <;> simp [symbolCompare, strcmp, hk, hs]
    · by_cases hs : deref sym = 0
      · have hks : k ≠ deref sym := by rw [hs]; exact hk
        simp [symbolCompare, strcmp, hk, hs]
      · by_cases hks : k = deref sym
        · simp [symbolCompare, strcmp, hk, ← hks, ih]
        · simp [symbolCompare, strcmp, hk, hs, hks]

variable {sym : Symbols}

theorem Symbols.Ok.nodup (h : sym.Ok) : sym.texts.Nodup := by
  refine h.sorted.imp ?_
  rintro s t hst rfl
  have := strcmp_neg s s
  omega

/-- Any comparator that agrees with `strcmp` finds exactly the symbol of the string. -/
theorem bsearch_symbolOf (L : Libc) {κ : Type} (h : sym.Ok) (cmp : κ → CString → Int) {key : κ}
    {s : Bytes} (hs : NulFree s) (hcmp : ∀ e, cmp key e = strcmp s e.text) :
    (match L.bsearch cmp key sym.entries with | some i => i + 1 | none => 0) = sym.symbolOf s := by
  have hsorted : sym.entries.Pairwise (fun p q => strcmp p.text q.text ≤ 0) := by
    rw [← List.pairwise_map (f := CString.text) (R := fun s t => strcmp s t ≤ 0)]
    exact h.sorted.imp (fun hst => Int.le_of_lt hst)
  have hp : Partitioned cmp key sym.entries := consistent_strcmp.partitioned hcmp hsorted
  unfold Symbols.symbolOf
  split
  · rename_i i hi
    obtain ⟨e, he, hz⟩ := L.bsearch_some cmp key sym.entries i hp hi
    have hget : sym.texts[i]? = some e.text := by simp [Symbols.texts, he]
    have hmem : e.text ∈ sym.texts := List.mem_of_getElem? hget
    rw [hcmp, strcmp_eq_zero hs (h.nulFree _ hmem)] at hz
    subst hz
    rw [if_pos hmem]
    obtain ⟨hlt, hget⟩ := List.getElem?_eq_some_iff.mp hget
    rw [← hget, h.nodup.idxOf_getElem]
  · rename_i hnone
    rw [if_neg]
    intro hmem
    obtain ⟨e, he, rfl⟩ := List.mem_map.mp hmem
    exact L.bsearch_none cmp key sym.entries hp hnone e he
      (by rw [hcmp, strcmp_eq_zero hs hs])

theorem symbolResolve_eq (L : Libc) (h : sym.Ok) {s : Bytes} (hs : NulFree s) :
    symbolResolve L sym s = sym.symbolOf s :=
  bsearch_symbolOf L h _ hs (fun e => symbolCompare_eq s e.text)

/-- Resolving a counted key gives the symbol of its string, or zero. -/
theorem symbolNresolve_eq (L : Libc) (h : sym.Ok) {key : Bytes} {n : Nat} (hn : n ≤ key.length)
    (hk : NulFree (key.take n)) : symbolNresolve L sym key n = sym.symbolOf (key.take n) :=
  bsearch_symbolOf L h (fun k e => symbolNcompare k n e.text) hk
    (fun e => symbolNcompare_eq key n e.text hn hk)

theorem symbolOf_ne_zero (s : Bytes) : sym.symbolOf s ≠ 0 ↔ s ∈ sym.texts := by
  unfold Symbols.symbolOf
  split <;> simp_all

theorem symbolOf_lt (h : sym.Ok) (s : Bytes) : sym.symbolOf s < 65536 := by
  have := h.bound
  unfold Symbols.symbolOf
  split
  · rename_i hs
    have := List.idxOf_lt_length_iff.mpr hs
    omega
  · omega

/-- Looking a symbol up gives back its string. -/
theorem symbolLookup_symbolOf {s : Bytes} (hs : s ∈ sym.texts) :
    (symbolLookup sym (sym.symbolOf s)).map CString.text = some s := by
  have hlt := List.idxOf_lt_length_iff.mpr hs
  have hget : sym.texts[sym.texts.idxOf s]? = some s := by
    rw [List.getElem?_eq_getElem hlt, List.getElem_idxOf hlt]
  rw [Symbols.symbolOf, if_pos hs, symbolLookup, if_neg (Nat.succ_ne_zero _), Nat.add_sub_cancel]
  rw [Symbols.texts, List.getElem?_map] at hget
  exact hget

/-- Distinct strings have distinct symbols. -/
theorem symbolOf_inj {s t : Bytes} (hs : s ∈ sym.texts) (ht : t ∈ sym.texts)
    (h : sym.symbolOf s = sym.symbolOf t) : s = t := by
  have hst := symbolLookup_symbolOf hs
  rw [h, symbolLookup_symbolOf ht] at hst
  exact (Option.some.inj hst).symm

/-- The terminated form of a key has the key's symbol. -/
theorem symbolResolve_terminated (L : Libc) (h : sym.Ok) {s : Bytes}
    (hs : NulFree s) (rest : Bytes) : symbolResolve L sym (s ++ 0 :: rest) = sym.symbolOf s :=
  bsearch_symbolOf L h (fun k e => symbolCompare k e.text) hs
    (fun e => (symbolCompare_eq _ e.text).trans (strcmp_terminated hs rest e.text))

/-- A symbol stands for a string exactly when it is the string's. -/
theorem symbolLookup_iff (h : sym.Ok) {s : Bytes} {symbol : Nat} :
    (symbolLookup sym symbol).map CString.text = some s ↔ symbol ≠ 0 ∧ sym.symbolOf s = symbol := by
  constructor
  · intro hlook
    have hne : symbol ≠ 0 := by
      rintro rfl
      simp [symbolLookup] at hlook
    rw [symbolLookup, if_neg hne, ← List.getElem?_map] at hlook
    obtain ⟨hlt, hget⟩ := List.getElem?_eq_some_iff.mp hlook
    refine ⟨hne, ?_⟩
    have hmem : s ∈ sym.texts := List.mem_of_getElem? hlook
    have hidx := h.nodup.idxOf_getElem (symbol - 1) hlt
    have hs : sym.texts[symbol - 1] = s := hget
    rw [hs] at hidx
    rw [Symbols.symbolOf, if_pos hmem, hidx]
    omega
  · rintro ⟨hne, rfl⟩
    exact symbolLookup_symbolOf ((symbolOf_ne_zero s).mp hne)

/-- Compiling a good table numbers its strings: the symbol of a key is that of the string it
equals, or zero, whichever way the key is given; the comparators are one order of strings. -/
theorem symbol_bijection (L : Libc) {tbl : SymbolTable} (ht : tbl.Ok) {w w' : World}
    (h : symbolCompile L tbl w = (.ok, sym, w')) :
    (∀ key n, n ≤ key.length → NulFree (key.take n) →
      (∀ symbol, symbol ≠ 0 → (symbolNresolve L sym key n = symbol ↔
        (symbolLookup sym symbol).map CString.text = some (key.take n))) ∧
      (symbolNresolve L sym key n = 0 ↔ key.take n ∉ tbl.texts) ∧
      symbolResolve L sym (key.take n) = symbolNresolve L sym key n ∧
      ∀ rest, symbolResolve L sym (key.take n ++ 0 :: rest) = symbolNresolve L sym key n) ∧
    (∀ s ∈ tbl.texts, ∃! symbol, 1 ≤ symbol ∧ symbol ≤ sym.count ∧
      (symbolLookup sym symbol).map CString.text = some s) ∧
    (∀ symbol, 1 ≤ symbol → symbol ≤ sym.count →
      ∃ s ∈ tbl.texts, (symbolLookup sym symbol).map CString.text = some s) ∧
    (∀ p q : CString, strpcmp p q = strcmp p.text q.text) ∧
    (∀ key e, symbolCompare key e = strcmp key e) ∧
    (∀ key n e, n ≤ key.length → NulFree (key.take n) →
      symbolNcompare key n e = strcmp (key.take n) e) ∧
    Consistent strcmp ∧
    ∀ s t, NulFree s → NulFree t → (strcmp s t < 0 ↔ s < t) ∧ (strcmp s t = 0 ↔ s = t) := by
  obtain ⟨hok, hperm⟩ := symbolCompile_ok ht h
  have hcount : sym.count = sym.texts.length := by
    rw [symbolCompile_count h, hperm.length_eq, SymbolTable.texts, List.length_map, ht.count_eq]
  refine ⟨fun key n hn hk => ⟨fun symbol hne => ?_, ?_, ?_, fun rest => ?_⟩, fun s hs => ?_,
    fun symbol hlo hhi => ?_, fun p q => rfl, symbolCompare_eq,
    fun key n e hn hk => symbolNcompare_eq key n e hn hk, consistent_strcmp,
    fun s t hs ht => ⟨strcmp_lt hs ht, strcmp_eq_zero hs ht⟩⟩
  · rw [symbolLookup_iff hok, symbolNresolve_eq L hok hn hk]
    exact (and_iff_right hne).symm
  · rw [symbolNresolve_eq L hok hn hk, ← hperm.mem_iff, ← symbolOf_ne_zero, not_not]
  · rw [symbolResolve_eq L hok hk, symbolNresolve_eq L hok hn hk]
  · rw [symbolResolve_terminated L hok hk, symbolNresolve_eq L hok hn hk]
  · have hmem := hperm.mem_iff.mpr hs
    refine ⟨sym.symbolOf s, ⟨?_, ?_, symbolLookup_symbolOf hmem⟩, ?_⟩
    · exact Nat.one_le_iff_ne_zero.mpr ((symbolOf_ne_zero s).mpr hmem)
    · have := List.idxOf_lt_length_iff.mpr hmem
      rw [Symbols.symbolOf, if_pos hmem, hcount]
      omega
    · rintro symbol ⟨-, -, hlook⟩
      exact ((symbolLookup_iff hok).mp hlook).2.symm
  · have hlt : symbol - 1 < sym.texts.length := by omega
    refine ⟨sym.texts[symbol - 1], hperm.mem_iff.mp (List.getElem_mem hlt), ?_⟩
    rw [symbolLookup, if_neg (by omega), ← List.getElem?_map]
    exact List.getElem?_eq_getElem hlt

/-- A prefix of another string, and one with a byte above 0x7f. -/
theorem symbol_bijection_three : ∃ sym w', symbolCompile .reference
      ⟨[some ⟨0, ascii "b"⟩, some ⟨2, ascii "ab"⟩, some ⟨5, [0xe9]⟩, some ⟨7, ascii "a"⟩],
        none, 4, 1024, .empty⟩ .empty = (.ok, sym, w') ∧
      symbolNresolve .reference sym (ascii "abc") 2 = 2 ∧
      symbolResolve .reference sym (ascii "ab") = 2 ∧
      symbolNresolve .reference sym [0xe9, 0] 1 = 4 ∧
      symbolNresolve .reference sym (ascii "abc") 3 = 0 := by
  have ht : SymbolTable.Ok ⟨[some ⟨0, ascii "b"⟩, some ⟨2, ascii "ab"⟩, some ⟨5, [0xe9]⟩,
      some ⟨7, ascii "a"⟩], none, 4, 1024, .empty⟩ :=
    ⟨rfl, by decide, by unfold NulFree; decide, by decide, by decide⟩
  obtain ⟨hkeys, -⟩ := symbol_bijection .reference ht (w := .empty) rfl
  obtain ⟨hab, -, hsame, -⟩ := hkeys (ascii "abc") 2 (by decide) (by unfold NulFree; decide)
  obtain ⟨hbyte, -⟩ := hkeys [0xe9, 0] 1 (by decide) (by unfold NulFree; decide)
  obtain ⟨-, hnone, -⟩ := hkeys (ascii "abc") 3 (by decide) (by unfold NulFree; decide)
  have htwo := (hab 2 (by decide)).mpr rfl
  exact ⟨_, _, rfl, htwo, hsame.trans htwo, (hbyte 4 (by decide)).mpr rfl, hnone.mpr (by decide)⟩

end Wrouter
