import Mathlib.Algebra.Group.Nat.Defs
import Wrouter.Symbol
import Wrouter.Token

/-!
# Segments of the route tree

One node for each distinct prefix of the patterns added so far. A node holds up
to three routes of its own (terminal, trailing, wildcard), a list of literal
children, and at most one special edge.
-/
namespace Wrouter

open CLib

/-- `spec_type` with the member of the union it selects. The null cases are what
a failed allocation leaves behind: the type is set before the pointer. -/
inductive Special (σ : Type) where
  | none
  | param (p : σ)
  | paramNull
  | wildcard (route : Route)
  | wildcardNull
  deriving Repr

/-- `children` is the list from `head` through `next`; `tail` is a position in it. -/
structure Segment where
  str : Option Bytes
  children : List Segment
  tail : Option Nat
  terminal : Option Route
  trailing : Option Route
  special : Special Segment
  childCount : Nat
  strLength : Nat
  deriving Repr

def Segment.zero : Segment := ⟨none, [], none, none, none, .none, 0, 0⟩

/-- `NODE_MAX_CHILD_COUNT`: a node has 12 bits for its number of children. -/
def nodeMaxChildCount : Nat := 2 ^ 12 - 1

def tokenMatchesSegment (tok : Token) (seg : Segment) : Bool :=
  match seg.str, tok.ptr with
  | some s, some p => tok.length = seg.strLength && strncmp p s tok.length = 0
  | _, _ => false

/-- The segment, and the block it lies in; freed again if its string cannot be interned. -/
def segmentCreate (tbl : SymbolTable) (tok : Token) (w : World) :
    Except WrouterError (Segment × Block) × SymbolTable × World :=
  match w.malloc 1 with
  | (none, w) => (.error .noMemory, tbl, w)
  | (some b, w) =>
    match symbolAppend tbl (tok.ptr.getD []) tok.length w with
    | (.error e, tbl, w) => (.error e, tbl, w.free (some b))
    | (.ok s, tbl, w) =>
      (.ok ({ Segment.zero with str := some s.text, strLength := tok.length }, b), tbl, w)

/-- `cur->tail->next = child` drops whatever followed the tail. -/
def segmentAppendChild (cur child : Segment) : Except WrouterError Segment :=
  if cur.childCount ≥ nodeMaxChildCount then .error .outOfRange
  else match cur.children with
    | [] => .ok { cur with children := [child], tail := some 0, childCount := u16 (cur.childCount + 1) }
    | _ :: _ =>
      let t := cur.tail.getD 0
      .ok { cur with
        children := cur.children.take (t + 1) ++ [child]
        tail := some (t + 1)
        childCount := u16 (cur.childCount + 1) }

/-- The position of the first child the token matches. -/
def segmentFindChildByToken (seg : Segment) (tok : Token) : Option Nat :=
  match tok.ptr with
  | none => none
  | some _ => seg.children.findIdx? (tokenMatchesSegment tok)

/-! ## What the operations do -/

def Segment.label (s : Segment) : Bytes := s.str.getD []

/-- A node reached by a string proper, with its length stored beside it. -/
def Segment.Labelled (s : Segment) : Prop :=
  ∃ t, s.str = some t ∧ s.strLength = t.length ∧ NulFree t

theorem Segment.Labelled.nulFree {s : Segment} (h : s.Labelled) : NulFree s.label := by
  obtain ⟨t, ht, -, hf⟩ := h
  simpa [Segment.label, ht] using hf

def Segment.leaf (s : Bytes) : Segment := { Segment.zero with str := some s, strLength := s.length }

@[simp] theorem label_leaf (s : Bytes) : (Segment.leaf s).label = s := rfl

theorem labelled_leaf {s : Bytes} (h : NulFree s) : (Segment.leaf s).Labelled := ⟨s, rfl, rfl, h⟩

/-- A token matches a segment exactly if both have the same string. -/
theorem tokenMatchesSegment_iff {tok : Token} {seg : Segment} (ht : tok.Named)
    (hs : seg.Labelled) : tokenMatchesSegment tok seg = true ↔ seg.label = tok.text := by
  obtain ⟨t, hstr, hlen, -⟩ := hs
  have htext := ht.length_text
  obtain ⟨p, hp, hle, hf⟩ := ht
  have hpt : tok.text = p.take tok.length := by simp [Token.text, hp]
  simp only [tokenMatchesSegment, hstr, hp, Segment.label, Option.getD_some, hpt, hlen,
    Bool.and_eq_true, decide_eq_true_eq]
  rw [strncmp_neg t p, Int.neg_eq_zero, strncmp_eq_zero hle hf]
  constructor
  · rintro ⟨hl, he⟩
    rwa [hl, List.take_length, ← hl] at he
  · intro he
    have hl : tok.length = t.length := by rw [he, ← hpt, htext]
    exact ⟨hl, by rw [hl, List.take_length, ← hl]; exact he⟩

/-- Creation and appending fail for want of memory or of range only. -/
theorem symbolAppend_error {tbl tbl' : SymbolTable} {str : Bytes} {len : Nat} {w w' : World}
    {e : WrouterError} (h : symbolAppend tbl str len w = (.error e, tbl', w')) :
    e = .noMemory ∨ e = .outOfRange := by
  unfold symbolAppend at h
  split at h
  · simp only [Prod.mk.injEq, Except.error.injEq] at h
    exact Or.inr h.1.symm
  split at h
  · simp at h
  split at h
  · simp only [Prod.mk.injEq, Except.error.injEq] at h
    exact Or.inl h.1.symm
  split at h
  · simp only [Prod.mk.injEq, Except.error.injEq] at h
    exact Or.inl h.1.symm
  · simp at h

theorem segmentCreate_error {tbl tbl' : SymbolTable} {tok : Token} {w w' : World}
    {e : WrouterError} (h : segmentCreate tbl tok w = (.error e, tbl', w')) :
    e = .noMemory ∨ e = .outOfRange := by
  unfold segmentCreate at h
  split at h
  · simp only [Prod.mk.injEq, Except.error.injEq] at h
    exact Or.inl h.1.symm
  split at h
  · rename_i happend
    simp only [Prod.mk.injEq, Except.error.injEq] at h
    exact symbolAppend_error (h.1 ▸ happend)
  · simp at h

theorem segmentAppendChild_error {cur child : Segment} {e : WrouterError}
    (h : segmentAppendChild cur child = .error e) : e = .outOfRange := by
  unfold segmentAppendChild at h
  split at h
  · simpa [eq_comm] using h
  · split at h <;> simp at h

/-- A created segment is a leaf, and its string is in the table. -/
theorem segmentCreate_ok {tbl tbl' : SymbolTable} {tok : Token} {w w' : World} {seg : Segment}
    {block : Block} (ht : tbl.Ok) (hn : tok.Named)
    (h : segmentCreate tbl tok w = (.ok (seg, block), tbl', w')) :
    seg = .leaf tok.text ∧ tbl'.Ok ∧ ∀ s, s ∈ tbl'.texts ↔ s ∈ tbl.texts ∨ s = tok.text := by
  have hlen := hn.length_text
  obtain ⟨p, hp, hle, hf⟩ := hn
  have hpt : tok.text = p.take tok.length := by simp [Token.text, hp]
  unfold segmentCreate at h
  split at h
  · simp at h
  split at h
  · simp at h
  rename_i e tbl₁ w₁ happend
  rw [hp, Option.getD_some] at happend
  obtain ⟨htext, hok, hmem⟩ := symbolAppend_ok ht hle hf happend
  simp only [Prod.mk.injEq, Except.ok.injEq] at h
  obtain ⟨⟨rfl, -⟩, rfl, -⟩ := h
  rw [hpt, ← htext] at hlen
  exact ⟨by rw [Segment.leaf, hpt, ← htext, hlen], hok, by rw [hpt]; exact hmem⟩

/-- A child that is appended comes last. -/
theorem segmentAppendChild_ok {cur cur' child : Segment}
    (hcount : cur.childCount = cur.children.length)
    (htail : cur.tail = if cur.children = [] then none else some (cur.children.length - 1))
    (h : segmentAppendChild cur child = .ok cur') :
    cur.children.length < nodeMaxChildCount ∧ cur' = { cur with
      children := cur.children ++ [child]
      tail := some cur.children.length
      childCount := cur.children.length + 1 } := by
  unfold segmentAppendChild at h
  split at h
  · simp at h
  rename_i hlt
  have hmax : cur.children.length < nodeMaxChildCount := by omega
  have hu : u16 (cur.childCount + 1) = cur.children.length + 1 := by
    rw [hcount]
    exact u16_eq (by unfold nodeMaxChildCount at hmax; omega)
  refine ⟨hmax, ?_⟩
  split at h
  · rename_i hnil
    simp only [Except.ok.injEq] at h
    rw [← h, hu]
    simp [hnil]
  · rename_i hcons
    simp only [Except.ok.injEq] at h
    have ht : cur.tail.getD 0 + 1 = cur.children.length := by simp [htail, hcons]
    rw [← h, hu, ht, List.take_length]

/-- The search finds a child exactly by its label. -/
theorem segmentFindChildByToken_some {seg : Segment} {tok : Token} {i : Nat}
    (h : segmentFindChildByToken seg tok = some i) :
    ∃ c, seg.children[i]? = some c ∧ tokenMatchesSegment tok c = true := by
  unfold segmentFindChildByToken at h
  split at h
  · simp at h
  obtain ⟨hi, hm, -⟩ := List.findIdx?_eq_some_iff_getElem.mp h
  exact ⟨_, List.getElem?_eq_getElem hi, hm⟩

/-- No child has the token's string. -/
theorem segmentFindChildByToken_none {seg : Segment} {tok : Token} (ht : tok.Named)
    (hc : ∀ c ∈ seg.children, c.Labelled) (h : segmentFindChildByToken seg tok = none) :
    ∀ c ∈ seg.children, c.label ≠ tok.text := by
  intro c hmem he
  obtain ⟨p, hp, -⟩ := id ht
  unfold segmentFindChildByToken at h
  simp only [hp, List.findIdx?_eq_none_iff] at h
  have hm := (tokenMatchesSegment_iff ht (hc c hmem)).mpr he
  rw [h c hmem] at hm
  exact absurd hm (by decide)

end Wrouter
