import Wrouter.Trace

/-!
# Snapshots

A snapshot copies parameters into a region of its own. One loop measures the region, with
every sum guarded by a subtraction in machine words; another fills it. A write outside the
region is a failure of the whole call, so a call that returns has made none.
-/
namespace Wrouter

open CLib Machine

structure ParamNt where
  name : Nat
  value : Nat
  deriving DecidableEq, Repr

structure ParamsNt where
  base : Option (Ptr (List ParamNt))
  count : Nat
  deriving DecidableEq, Repr

structure Snapshot where
  block : Block
  params : ParamsNt
  region : Option (Ptr Bytes)
  deriving DecidableEq, Repr

def Snapshot.list (s : Snapshot) : List ParamNt := (s.params.base.map Ptr.data).getD []

def Snapshot.bytes (s : Snapshot) : Bytes := (s.region.map Ptr.data).getD []

def paramsNtAlloc (n : Nat) (w : World) : Option Block × World := w.malloc (16 * n)

def paramsNtFree (params : ParamsNt) (w : World) : World := w.free (params.base.map Ptr.block)

def wrouterSnapshotFree (snapshot : Option Snapshot) (w : World) : World :=
  match snapshot with
  | none => w
  | some s => ((paramsNtFree s.params w).free (s.region.map Ptr.block)).free (some s.block)

/-- The size loop; every `goto failure` is none. A string and its terminator fit the address
space, so only the differences can wrap. -/
def regionSize : List Param → Nat → Option Nat
  | [], size => some size
  | p :: rest, size =>
    match p.name, p.value with
    | some name, some _ =>
      let nameSize := strlen name + 1
      let valueSize := p.length + 1
      if nameSize > subWord 64 65535 size then none
      else if valueSize > subWord 64 65535 (size + nameSize) then none
      else regionSize rest (size + nameSize + valueSize)
    | _, _ => none

/-- Bytes written one after the other; none as soon as one would fall outside. -/
def writeBytes : Bytes → Nat → Bytes → Option Bytes
  | region, _, [] => some region
  | region, dest, b :: src =>
    if dest < region.length then writeBytes (region.set dest b) (dest + 1) src else none

def strcpy (region : Bytes) (dest : Nat) (src : Bytes) : Option Bytes :=
  writeBytes region dest (src.take (strlen src) ++ [0])

def memcpy (region : Bytes) (dest : Nat) (src : Bytes) (n : Nat) : Option Bytes :=
  if n ≤ src.length then writeBytes region dest (src.take n) else none

/-- The copy loop: the parameters, the region and the cursor at the end. -/
def copyParams : List Param → Nat → Bytes → Option (List ParamNt × Bytes × Nat)
  | [], cursor, region => some ([], region, cursor)
  | p :: rest, cursor, region => do
    let name ← p.name
    let value ← p.value
    let region ← strcpy region cursor name
    let dest := cursor + (strlen name + 1)
    -- the terminator of a value is a byte that `calloc` left there
    let region ← memcpy region dest value p.length
    let (copied, region, last) ← copyParams rest (dest + (p.length + 1)) region
    some (⟨cursor, dest⟩ :: copied, region, last)

/-- Outside, none is an access outside the region; inside, it is NULL. -/
def wrouterParamsCopy (params : Option Params) (w : World) : Option (Option Snapshot × World) :=
  match params with
  | none => some (none, w)
  | some params =>
    match w.malloc 24 with
    | (none, w) => some (none, wrouterSnapshotFree none w)
    | (some b, w) =>
      let snapshot : Snapshot := ⟨b, ⟨none, 0⟩, none⟩
      if params.count = 0 then some (some snapshot, w)
      else if params.base = none then some (none, wrouterSnapshotFree (some snapshot) w)
      else match regionSize params.list 0 with
        | none => some (none, wrouterSnapshotFree (some snapshot) w)
        | some size =>
          match w.malloc size with
          | (none, w) => some (none, wrouterSnapshotFree (some snapshot) w)
          | (some r, w) =>
            let region := List.replicate size 0
            let snapshot := { snapshot with region := some ⟨r, region⟩ }
            match paramsNtAlloc params.count w with
            | (none, w) => some (none, wrouterSnapshotFree (some snapshot) w)
            | (some base, w) =>
              match copyParams params.list 0 region with
              | none => none
              | some (copied, region, _) =>
                some (some { snapshot with
                  params := ⟨some ⟨base, copied⟩, params.count⟩
                  region := some ⟨r, region⟩ }, w)

/-! ## The two loops agree -/

def Param.nameText (p : Param) : Bytes := (p.name.getD []).take (strlen (p.name.getD []))

/-- The counted value. -/
def Param.valueText (p : Param) : Bytes := (p.value.getD []).take p.length

/-- Both strings of a parameter with their terminators. -/
def Param.image (p : Param) : Bytes := p.nameText ++ 0 :: (p.valueText ++ [0])

/-- `strlen(name) + 1 + length + 1`. -/
def Param.size (p : Param) : Nat := strlen (p.name.getD []) + 1 + (p.length + 1)

structure Param.Copyable (p : Param) : Prop where
  name : p.name.isSome
  value : p.value.isSome
  length : p.length ≤ (p.value.getD []).length
  nulFree : NulFree p.valueText

instance (p : Param) : Decidable p.Copyable :=
  have : Decidable (NulFree p.valueText) := inferInstanceAs (Decidable (¬ _))
  decidable_of_iff (p.name.isSome ∧ p.value.isSome ∧ p.length ≤ (p.value.getD []).length ∧
    NulFree p.valueText) ⟨fun ⟨a, b, c, d⟩ => ⟨a, b, c, d⟩, fun ⟨a, b, c, d⟩ => ⟨a, b, c, d⟩⟩

def totalSize (ps : List Param) : Nat := (ps.map Param.size).sum

/-- Where the strings of the parameters start, from a cursor on. -/
def offsets : List Param → Nat → List ParamNt
  | [], _ => []
  | p :: rest, cursor =>
    ⟨cursor, cursor + (strlen (p.name.getD []) + 1)⟩ :: offsets rest (cursor + p.size)

theorem strlen_le (s : Bytes) : strlen s ≤ s.length := by
  induction s with
  | nil => exact Nat.le_refl 0
  | cons b s ih =>
    rw [strlen, List.length_cons]
    split <;> omega

theorem nulFree_take_strlen (s : Bytes) : NulFree (s.take (strlen s)) := by
  induction s with
  | nil => exact nulFree_nil
  | cons b s ih =>
    rw [strlen]
    split
    · exact nulFree_nil
    · rename_i hb
      rw [List.take_succ_cons]
      exact (nulFree_cons b _).mpr ⟨hb, ih⟩

theorem Param.length_nameText (p : Param) : p.nameText.length = strlen (p.name.getD []) := by
  rw [Param.nameText, List.length_take, Nat.min_eq_left (strlen_le _)]

theorem Param.Copyable.length_valueText {p : Param} (h : p.Copyable) :
    p.valueText.length = p.length := by
  rw [Param.valueText, List.length_take, Nat.min_eq_left h.length]

theorem Param.Copyable.length_image {p : Param} (h : p.Copyable) : p.image.length = p.size := by
  simp only [Param.image, Param.size, List.length_append, List.length_cons, List.length_nil,
    p.length_nameText, h.length_valueText]
  omega

/-- The size loop adds up, or gives up as soon as a sum passes 16 bits; its differences
never wrap. -/
theorem regionSize_eq {ps : List Param} (hp : ∀ p ∈ ps, p.Copyable) {size : Nat}
    (hsize : size ≤ 65535) : regionSize ps size =
      if size + totalSize ps ≤ 65535 then some (size + totalSize ps) else none := by
  induction ps generalizing size with
  | nil => simp [regionSize, totalSize, hsize]
  | cons p rest ih =>
    have hcopy := hp p List.mem_cons_self
    obtain ⟨name, hname⟩ := Option.isSome_iff_exists.mp hcopy.name
    obtain ⟨value, hvalue⟩ := Option.isSome_iff_exists.mp hcopy.value
    have htotal : totalSize (p :: rest) = strlen name + 1 + (p.length + 1) + totalSize rest := by
      simp [totalSize, Param.size, hname]
    simp only [regionSize, hname, hvalue]
    rw [subWord_eq (by omega) hsize]
    split
    · rw [if_neg (by omega)]
    rename_i hn
    rw [subWord_eq (by omega) (by omega)]
    split
    · rw [if_neg (by omega)]
    rw [ih (fun q hq => hp q (List.mem_cons_of_mem p hq)) (by omega), htotal]
    have hsum : size + (strlen name + 1) + (p.length + 1) + totalSize rest =
        size + (strlen name + 1 + (p.length + 1) + totalSize rest) := by omega
    rw [hsum]

/-- Writing over the bytes that stand after a prefix. -/
theorem writeBytes_eq (pre src old post : Bytes) (h : old.length = src.length) :
    writeBytes (pre ++ (old ++ post)) pre.length src = some (pre ++ (src ++ post)) := by
  induction src generalizing pre old with
  | nil =>
    obtain rfl := List.length_eq_zero_iff.mp h
    rfl
  | cons b src ih =>
    cases old with
    | nil => simp at h
    | cons o old =>
      have hset : (pre ++ (o :: old ++ post)).set pre.length b =
          (pre ++ [b]) ++ (old ++ post) := by simp
      have := ih (pre ++ [b]) old (by simpa using h)
      rw [writeBytes, if_pos (by simp), hset]
      simpa using this

/-- The copy loop turns the zeroed region into the images, one after the other. -/
theorem copyParams_eq {ps : List Param} (hp : ∀ p ∈ ps, p.Copyable) (pre : Bytes) :
    copyParams ps pre.length (pre ++ List.replicate (totalSize ps) 0) =
      some (offsets ps pre.length, pre ++ ps.flatMap Param.image,
        pre.length + totalSize ps) := by
  induction ps generalizing pre with
  | nil => simp [copyParams, offsets, totalSize]
  | cons p rest ih =>
    have hcopy := hp p List.mem_cons_self
    obtain ⟨name, hname⟩ := Option.isSome_iff_exists.mp hcopy.name
    obtain ⟨value, hvalue⟩ := Option.isSome_iff_exists.mp hcopy.value
    have hnt : p.nameText = name.take (strlen name) := by simp [Param.nameText, hname]
    have hvt : p.valueText = value.take p.length := by simp [Param.valueText, hvalue]
    have hnl : p.nameText.length = strlen name := by rw [p.length_nameText, hname]; rfl
    have hzero : List.replicate (totalSize (p :: rest)) (0 : UInt8) =
        List.replicate (strlen name + 1) 0 ++ (List.replicate p.length 0 ++
          ([0] ++ List.replicate (totalSize rest) 0)) := by
      rw [← List.replicate_one, List.replicate_append_replicate, List.replicate_append_replicate,
        List.replicate_append_replicate]
      congr 1
      simp [totalSize, Param.size, hname]
      omega
    -- the name with its terminator, then the value before a byte that stays zero
    have hstrcpy := writeBytes_eq pre (p.nameText ++ [0]) (List.replicate (strlen name + 1) 0)
      (List.replicate p.length 0 ++ ([0] ++ List.replicate (totalSize rest) 0)) (by simp [hnl])
    have hmemcpy := writeBytes_eq (pre ++ (p.nameText ++ [0])) p.valueText
      (List.replicate p.length 0) ([0] ++ List.replicate (totalSize rest) 0)
      (by simp [hcopy.length_valueText])
    have hrest := ih (fun q hq => hp q (List.mem_cons_of_mem p hq)) (pre ++ p.image)
    have hlen : pre.length + (strlen name + 1) = (pre ++ (p.nameText ++ [0])).length := by
      simp [hnl]
    have hnext : (pre ++ (p.nameText ++ [0])).length + (p.length + 1) =
        (pre ++ p.image).length := by
      rw [← hlen, List.length_append, hcopy.length_image, Param.size, hname, Option.getD_some]
      omega
    have hbytes : pre ++ (p.nameText ++ [0]) ++ (p.valueText ++ ([0] ++
        List.replicate (totalSize rest) 0)) =
          pre ++ p.image ++ List.replicate (totalSize rest) 0 := by simp [Param.image]
    rw [copyParams, hzero]
    simp only [hname, hvalue, Option.bind_eq_bind, Option.bind_some, strcpy, ← hnt, hstrcpy]
    rw [← List.append_assoc pre, hlen, memcpy, if_pos (by simpa [hvalue] using hcopy.length), ← hvt,
      hmemcpy]
    simp only [Option.bind_some]
    rw [hbytes, hnext, hrest]
    simp only [Option.bind_some, Option.some.injEq, Prod.mk.injEq]
    refine ⟨?_, by simp, ?_⟩
    · rw [offsets, hname, Option.getD_some, hlen, ← hcopy.length_image, ← List.length_append]
    · rw [List.length_append, hcopy.length_image]
      simp [totalSize]
      omega

/-! ## What a snapshot holds -/

/-- A string proper lies there, terminator included. -/
def StringAt (bytes : Bytes) (offset : Nat) (s : Bytes) : Prop :=
  NulFree s ∧ s ++ [0] <+: bytes.drop offset

/-- The parts of the region that copied parameters take, as start and length. -/
def spans (ps : List Param) (qs : List ParamNt) : List (Nat × Nat) :=
  (ps.zip qs).flatMap fun pq =>
    [(pq.2.name, pq.1.nameText.length + 1), (pq.2.value, pq.1.valueText.length + 1)]

theorem length_offsets (ps : List Param) (cursor : Nat) :
    (offsets ps cursor).length = ps.length := by
  induction ps generalizing cursor with
  | nil => rfl
  | cons p rest ih => rw [offsets, List.length_cons, List.length_cons, ih]

/-- The strings with their terminators take the size that was asked for. -/
theorem length_images {ps : List Param} (hp : ∀ p ∈ ps, p.Copyable) :
    (ps.flatMap Param.image).length = totalSize ps := by
  rw [List.length_flatMap, totalSize]
  exact congrArg List.sum (List.map_congr_left fun p hmem => (hp p hmem).length_image)

/-- Each string reads back from where the copy loop put it. -/
theorem stringAt_offsets {ps : List Param} (hp : ∀ p ∈ ps, p.Copyable) (pre : Bytes) {i : Nat}
    {p : Param} {q : ParamNt} (hi : ps[i]? = some p) (hq : (offsets ps pre.length)[i]? = some q) :
    StringAt (pre ++ ps.flatMap Param.image) q.name p.nameText ∧
      StringAt (pre ++ ps.flatMap Param.image) q.value p.valueText := by
  induction ps generalizing pre i with
  | nil => simp at hi
  | cons r rest ih =>
    have hcopy := hp r List.mem_cons_self
    cases i with
    | zero =>
      obtain rfl : r = p := by simpa using hi
      obtain rfl : ⟨pre.length, pre.length + (strlen (r.name.getD []) + 1)⟩ = q := by
        simpa [offsets] using hq
      have hlen : pre.length + (strlen (r.name.getD []) + 1) =
          (pre ++ (r.nameText ++ [0])).length := by simp [r.length_nameText]
      refine ⟨⟨nulFree_take_strlen _, ?_⟩, ⟨hcopy.nulFree, ?_⟩⟩
      · refine ⟨r.valueText ++ [0] ++ rest.flatMap Param.image, ?_⟩
        rw [List.drop_left]
        simp [Param.image]
      · refine ⟨rest.flatMap Param.image, ?_⟩
        have hbytes : pre ++ (r :: rest).flatMap Param.image =
            (pre ++ (r.nameText ++ [0])) ++ (r.valueText ++ [0] ++ rest.flatMap Param.image) := by
          simp [Param.image]
        rw [hbytes, hlen, List.drop_left]
    | succ i =>
      have hlen : pre.length + r.size = (pre ++ r.image).length := by
        rw [List.length_append, hcopy.length_image]
      rw [offsets, hlen] at hq
      have := ih (fun s hs => hp s (List.mem_cons_of_mem r hs)) (pre ++ r.image)
        (by simpa using hi) (by simpa using hq)
      simpa using this

/-- The parts follow one another from the cursor to the end. -/
theorem spans_offsets {ps : List Param} (hp : ∀ p ∈ ps, p.Copyable) (cursor : Nat) :
    (spans ps (offsets ps cursor)).Pairwise (fun a b => a.1 + a.2 ≤ b.1) ∧
      ∀ a ∈ spans ps (offsets ps cursor),
        cursor ≤ a.1 ∧ a.1 + a.2 ≤ cursor + totalSize ps := by
  induction ps generalizing cursor with
  | nil => simp [spans, offsets]
  | cons p rest ih =>
    have hcopy := hp p List.mem_cons_self
    obtain ⟨hpair, hin⟩ := ih (fun q hq => hp q (List.mem_cons_of_mem p hq)) (cursor + p.size)
    have hcons : spans (p :: rest) (offsets (p :: rest) cursor) =
        (cursor, strlen (p.name.getD []) + 1) ::
          (cursor + (strlen (p.name.getD []) + 1), p.length + 1) ::
            spans rest (offsets rest (cursor + p.size)) := by
      simp [spans, offsets, p.length_nameText, hcopy.length_valueText]
    have hsize : p.size = strlen (p.name.getD []) + 1 + (p.length + 1) := rfl
    have htotal : totalSize (p :: rest) = p.size + totalSize rest := by simp [totalSize]
    rw [hcons, List.pairwise_cons, List.pairwise_cons]
    refine ⟨⟨?_, ?_, hpair⟩, ?_⟩
    · intro a ha
      rcases List.mem_cons.mp ha with rfl | ha
      · exact Nat.le_refl _
      · have := hin a ha
        simp only
        omega
    · intro a ha
      have := hin a ha
      simp only
      omega
    · intro a ha
      rcases List.mem_cons.mp ha with rfl | ha
      · simp only
        omega
      rcases List.mem_cons.mp ha with rfl | ha
      · simp only
        omega
      · have := hin a ha
        omega

/-- A copy fails exactly when the strings with their terminators pass 16 bits; otherwise every
string reads back from its own part of a region they fill to the last byte. -/
theorem snapshot_faithful {params : Params} {w : World} (hw : w.NoFail)
    (hbase : params.count ≠ 0 → params.base.isSome) (hp : ∀ p ∈ params.list, p.Copyable) :
    ∃ result w', wrouterParamsCopy (some params) w = some (result, w') ∧
      (result = none ↔ 65535 < totalSize params.list) ∧
      ∀ s, result = some s →
        s.params.count = params.count ∧ s.list.length = params.count ∧
        regionSize params.list 0 = some s.bytes.length ∧
        (∀ region, s.region = some region →
          Event.alloc region.block.id s.bytes.length ∈ w'.trace) ∧
        copyParams params.list 0 (List.replicate s.bytes.length 0) =
          some (s.list, s.bytes, s.bytes.length) ∧
        (∀ (i : Nat) (p : Param) (q : ParamNt), params.list[i]? = some p → s.list[i]? = some q →
          StringAt s.bytes q.name p.nameText ∧ StringAt s.bytes q.value p.valueText) ∧
        (spans params.list s.list).Pairwise (fun a b => a.1 + a.2 ≤ b.1) ∧
        ∀ a ∈ spans params.list s.list, a.1 + a.2 ≤ s.bytes.length := by
  have htotal := regionSize_eq hp (Nat.zero_le 65535)
  rw [Nat.zero_add] at htotal
  have hlen : params.list.length = params.count := by simp [Params.list]
  obtain ⟨b, w₁, hb, hw₁⟩ := malloc_some hw 24
  rw [wrouterParamsCopy, hb]
  dsimp only
  by_cases hzero : params.count = 0
  · have hnil : params.list = [] := List.length_eq_zero_iff.mp (hlen.trans hzero)
    rw [if_pos hzero]
    refine ⟨_, _, rfl, by simp [hnil, totalSize], ?_⟩
    rintro s hs
    obtain rfl := Option.some.inj hs
    simp [hnil, hzero, Snapshot.list, Snapshot.bytes, regionSize, copyParams, spans]
  rw [if_neg hzero, if_neg (Option.isSome_iff_ne_none.mp (hbase hzero)), htotal]
  by_cases hfit : totalSize params.list ≤ 65535
  · rw [if_pos hfit]
    obtain ⟨r, w₂, hr, hw₂⟩ := malloc_some hw₁ (totalSize params.list)
    obtain ⟨base, w₃, hbase', -⟩ := malloc_some hw₂ (16 * params.count)
    have hcopy := copyParams_eq hp []
    simp only [List.nil_append, List.length_nil, Nat.zero_add] at hcopy
    simp only [hr, paramsNtAlloc, hbase', hcopy]
    refine ⟨_, _, rfl, by simp [hfit], ?_⟩
    rintro s hs
    obtain rfl := Option.some.inj hs
    have himage := length_images hp
    obtain ⟨hpair, hin⟩ := spans_offsets hp 0
    simp only [Snapshot.list, Snapshot.bytes, Option.map_some, Option.getD_some, himage,
      length_offsets, hlen, Option.some.injEq]
    refine ⟨trivial, trivial, trivial, ?_, hcopy, ?_, hpair, ?_⟩
    · rintro region rfl
      obtain ⟨hid, -, htrace⟩ := malloc_fresh hr
      rw [(malloc_fresh hbase').2.2, htrace, hid]
      simp
    · intro i p q hi hq
      have := stringAt_offsets hp [] hi (by simpa using hq)
      simpa using this
    · intro a ha
      have := (hin a ha).2
      omega
  · rw [if_neg hfit]
    exact ⟨_, _, rfl, by simp; omega, by simp⟩

def twoParams : Params :=
  ⟨some ⟨0, 0⟩, 2, fun i =>
    if i = 0 then ⟨some (ascii "param0"), some (ascii "value0/test/value1"), 6⟩
    else ⟨some (ascii "param1"), some (ascii "value1"), 6⟩, 2⟩

/-- Two values in one path, copied to a region of their own. -/
theorem snapshot_faithful_two : ∃ s w', wrouterParamsCopy (some twoParams) .empty = some (some s, w') ∧
    regionSize twoParams.list 0 = some s.bytes.length ∧
    copyParams twoParams.list 0 (List.replicate s.bytes.length 0) =
      some (s.list, s.bytes, s.bytes.length) := by
  obtain ⟨result, w', hrun, hnull, hcopy⟩ := @snapshot_faithful twoParams .empty
    (by simp [World.NoFail, World.empty]) (fun _ => rfl) (by decide)
  obtain ⟨s, rfl⟩ : ∃ s, result = some s :=
    Option.ne_none_iff_exists'.mp fun h => absurd (hnull.mp h) (by decide)
  obtain ⟨-, -, hsize, -, hloop, -⟩ := hcopy s rfl
  exact ⟨s, w', hrun, hsize, hloop⟩

end Wrouter
