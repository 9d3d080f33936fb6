import Mathlib.Data.List.Perm.Basic

/-!
# Counted references

A heap of objects behind positions, each with the number of references to it. An object whose last
reference goes is finished: it gives back the references it held. Where the counts agree with the
references, no object is used after its end, and without cycles an object lives exactly as long
as references from outside lead to it.
-/
namespace Counted

structure Cell (α : Type*) where
  refs : Nat
  item : α
  deriving DecidableEq, Repr

variable {α ε σ : Type*}

def refsAt (xs : List (Cell α)) (i : Nat) : Nat := xs[i]?.elim 0 Cell.refs

def total : List (Cell α) → Nat
  | [] => 0
  | x :: xs => x.refs + total xs

def share (gone : ε) (xs : List (Cell α)) (i : Nat) : Except ε (List (Cell α)) :=
  match xs[i]? with
  | none => .error gone
  | some x => if x.refs = 0 then .error gone else .ok (xs.set i { x with refs := x.refs + 1 })

/-- References go, one after the other; what an object held goes when it ends, before the rest.
Each of them takes one from the counts, so their total is fuel enough. -/
def drop (gone : ε) (finish : α → σ → Except ε (List Nat × σ)) :
    Nat → List Nat → List (Cell α) → σ → Except ε (List (Cell α) × σ)
  | _, [], xs, s => .ok (xs, s)
  | 0, _ :: _, _, _ => .error gone
  | fuel + 1, i :: is, xs, s =>
    match xs[i]? with
    | none => .error gone
    | some x =>
      match x.refs with
      | 0 => .error gone
      | 1 =>
        match finish x.item s with
        | .error e => .error e
        | .ok (held, s) => drop gone finish fuel (held ++ is) (xs.set i { x with refs := 0 }) s
      | n + 2 => drop gone finish fuel is (xs.set i { x with refs := n + 1 }) s

/-! ## Counts that agree with the references -/

variable (edges : α → List Nat)

def Cell.holds (x : Cell α) : List Nat := if x.refs = 0 then [] else edges x.item

def held (xs : List (Cell α)) : List Nat := xs.flatMap (Cell.holds edges)

/-- The references are those from outside and those the live objects hold. -/
def Balanced (outside : List Nat) (xs : List (Cell α)) : Prop :=
  ∀ i, refsAt xs i = (outside ++ held edges xs).count i

variable {edges} {outside : List Nat} {xs : List (Cell α)} {i : Nat} {x : Cell α}

theorem refsAt_eq (hx : xs[i]? = some x) : refsAt xs i = x.refs := by rw [refsAt, hx]; rfl

theorem refsAt_length : refsAt xs xs.length = 0 := by simp [refsAt]

theorem exists_of_refsAt (h : refsAt xs i ≠ 0) : ∃ x, xs[i]? = some x ∧ x.refs ≠ 0 := by
  cases hx : xs[i]? with
  | none => simp [refsAt, hx] at h
  | some x => exact ⟨x, rfl, by rwa [refsAt_eq hx] at h⟩

theorem refsAt_set (hx : xs[i]? = some x) (y : Cell α) (k : Nat) :
    refsAt (xs.set i y) k = if i = k then y.refs else refsAt xs k := by
  have hlt := (List.getElem?_eq_some_iff.mp hx).1
  rw [refsAt, List.getElem?_set]
  by_cases hik : i = k
  · simp [← hik, hlt]
  · simp [hik, refsAt]

theorem items_set (hx : xs[i]? = some x) (n : Nat) :
    (xs.set i { x with refs := n }).map Cell.item = xs.map Cell.item := by
  refine List.ext_getElem? fun k => ?_
  rw [List.getElem?_map, List.getElem?_map, List.getElem?_set]
  split
  · rename_i hik
    obtain rfl := hik
    obtain ⟨hlt, rfl⟩ := List.getElem?_eq_some_iff.mp hx
    simp [hlt]
  · rfl

theorem total_set (hx : xs[i]? = some x) (y : Cell α) :
    total (xs.set i y) + x.refs = total xs + y.refs := by
  induction xs generalizing i with
  | nil => simp at hx
  | cons z zs ih =>
    cases i with
    | zero =>
      obtain rfl : z = x := by simpa using hx
      simp [total]
      omega
    | succ i =>
      have hrest := ih (i := i) (by simpa using hx)
      simp only [total, List.set_cons_succ] at hrest ⊢
      omega

theorem count_held_set (hx : xs[i]? = some x) (y : Cell α) (k : Nat) :
    (held edges (xs.set i y)).count k + (x.holds edges).count k =
      (held edges xs).count k + (y.holds edges).count k := by
  induction xs generalizing i with
  | nil => simp at hx
  | cons z zs ih =>
    simp only [held, List.flatMap_cons, List.count_append] at ih ⊢
    cases i with
    | zero =>
      obtain rfl : z = x := by simpa using hx
      simp only [List.set_cons_zero, List.flatMap_cons, List.count_append]
      omega
    | succ i =>
      have hrest := ih (i := i) (by simpa using hx)
      simp only [List.set_cons_succ, List.flatMap_cons, List.count_append]
      omega

theorem count_pos_of_edge (hx : xs[i]? = some x) (hlive : x.refs ≠ 0) {k : Nat}
    (hk : k ∈ edges x.item) : 0 < (held edges xs).count k := by
  rw [List.count_pos_iff, held, List.mem_flatMap]
  refine ⟨x, List.mem_of_getElem? hx, ?_⟩
  rwa [Cell.holds, if_neg hlive]

namespace Balanced

variable (h : Balanced edges outside xs)

include h

theorem perm {outside' : List Nat} (hperm : outside.Perm outside') :
    Balanced edges outside' xs := by
  intro i
  rw [h i]
  exact (hperm.append_right _).count_eq i

theorem live_of_mem (hi : i ∈ outside) : refsAt xs i ≠ 0 := by
  have hpos : 0 < outside.count i := List.count_pos_iff.mpr hi
  rw [h i, List.count_append]
  omega

/-- What a live object holds is live. -/
theorem live_of_edge (hx : xs[i]? = some x) (hlive : x.refs ≠ 0) {k : Nat}
    (hk : k ∈ edges x.item) : refsAt xs k ≠ 0 := by
  have hpos := count_pos_of_edge hx hlive hk
  rw [h k, List.count_append]
  omega

/-- An object that is there is held from outside or by a live one. -/
theorem holder (hi : refsAt xs i ≠ 0) :
    i ∈ outside ∨ ∃ (j : Nat) (x : Cell α), xs[j]? = some x ∧ x.refs ≠ 0 ∧ i ∈ edges x.item := by
  have hmem : i ∈ outside ++ held edges xs :=
    List.count_pos_iff.mp (Nat.pos_of_ne_zero (h i ▸ hi))
  refine (List.mem_append.mp hmem).imp_right fun hheld => ?_
  obtain ⟨x, hx, hedge⟩ := List.mem_flatMap.mp hheld
  obtain ⟨j, hj⟩ := List.mem_iff_getElem?.mp hx
  rw [Cell.holds] at hedge
  split at hedge
  · simp at hedge
  · exact ⟨j, x, hj, ‹_›, hedge⟩

/-- A count changes with the references. -/
theorem set {outside' : List Nat} (hx : xs[i]? = some x) (y : Cell α)
    (hrefs : ∀ k, (if i = k then y.refs else refsAt xs k) + outside.count k +
      (x.holds edges).count k = refsAt xs k + outside'.count k + (y.holds edges).count k) :
    Balanced edges outside' (xs.set i y) := by
  intro k
  have hheld := @count_held_set _ edges _ _ _ hx y k
  have hcount := h k
  have hk := hrefs k
  rw [refsAt_set hx, List.count_append]
  rw [List.count_append] at hcount
  omega

/-- One more reference, counted once more. -/
theorem share (gone : ε) (hi : refsAt xs i ≠ 0) : ∃ xs', share gone xs i = .ok xs' ∧
    Balanced edges (i :: outside) xs' ∧ xs'.map Cell.item = xs.map Cell.item ∧
      ∀ k, refsAt xs k ≤ refsAt xs' k := by
  obtain ⟨x, hx, hlive⟩ := exists_of_refsAt hi
  refine ⟨xs.set i { x with refs := x.refs + 1 }, ?_, h.set hx _ fun k => ?_, items_set hx _,
    fun k => ?_⟩
  · rw [Counted.share, hx]
    exact if_neg hlive
  · simp only [Cell.holds, if_neg hlive, if_neg (Nat.succ_ne_zero x.refs), List.count_cons]
    by_cases hik : i = k
    · rw [← hik, refsAt_eq hx]
      simp only [if_pos, beq_self_eq_true]
      omega
    · simp [hik]
  · rw [refsAt_set hx]
    split
    · rename_i hik
      rw [← hik, refsAt_eq hx]
      exact Nat.le_succ _
    · exact Nat.le_refl _

/-- More references, one after the other. -/
theorem shares (gone : ε) {is : List Nat} (his : ∀ i ∈ is, refsAt xs i ≠ 0) : ∃ xs',
    is.foldlM (Counted.share gone) xs = .ok xs' ∧ Balanced edges (is ++ outside) xs' ∧
      xs'.map Cell.item = xs.map Cell.item := by
  induction is generalizing xs outside with
  | nil => exact ⟨xs, rfl, h, rfl⟩
  | cons i is ih =>
    obtain ⟨xs₁, hshare, hone, hitems, hmore⟩ := h.share gone (his i List.mem_cons_self)
    have hrest : ∀ k ∈ is, refsAt xs₁ k ≠ 0 := by
      intro k hk
      have hold := his k (List.mem_cons_of_mem i hk)
      have hstill := hmore k
      omega
    obtain ⟨xs₂, hshares, hall, hitems'⟩ := ih hone hrest
    refine ⟨xs₂, ?_, hall.perm List.perm_middle, hitems'.trans hitems⟩
    rw [List.foldlM_cons, hshare]
    exact hshares

end Balanced

/-- A new object, held from outside, takes over the references that are its own now. -/
theorem Balanced.push (n : Nat) {item : α} (h : Balanced edges (edges item ++ outside) xs) :
    Balanced edges (List.replicate (n + 1) xs.length ++ outside) (xs ++ [⟨n + 1, item⟩]) := by
  intro k
  have hk := h k
  have hheld : held edges (xs ++ [⟨n + 1, item⟩]) = held edges xs ++ edges item := by
    simp [held, Cell.holds]
  rw [hheld]
  simp only [List.count_append, List.count_replicate] at hk ⊢
  by_cases hlast : k = xs.length
  · subst hlast
    rw [refsAt_length] at hk
    simp only [refsAt, List.getElem?_concat_length, Option.elim_some, beq_self_eq_true, if_true]
    omega
  · have hrefs : refsAt (xs ++ [⟨n + 1, item⟩]) k = refsAt xs k := by
      unfold refsAt
      rcases Nat.lt_or_gt_of_ne hlast with hlt | hgt
      · rw [List.getElem?_append_left hlt]
      · rw [List.getElem?_eq_none (by simp; omega), List.getElem?_eq_none (by omega)]
    have hne : ¬ xs.length = k := fun h => hlast h.symm
    rw [hrefs, hk]
    simp only [beq_iff_eq, if_neg hne]
    omega

/-- A live object takes over more references. -/
theorem Balanced.replace {more : List Nat} (h : Balanced edges (more ++ outside) xs)
    (hx : xs[i]? = some x) (hlive : x.refs ≠ 0) {item : α}
    (hperm : (edges item).Perm (more ++ edges x.item)) :
    Balanced edges outside (xs.set i { x with item := item }) := by
  refine h.set hx _ fun k => ?_
  have hcount := hperm.count_eq k
  simp only [Cell.holds, if_neg hlive]
  rw [List.count_append] at hcount ⊢
  split
  · rename_i hik
    subst hik
    rw [refsAt_eq hx]
    omega
  · omega

/-! ## What references lead to -/

/-- References from outside lead there. -/
inductive Reached (edges : α → List Nat) (outside : List Nat) (xs : List (Cell α)) :
    Nat → Prop where
  | root {i : Nat} (h : i ∈ outside) : Reached edges outside xs i
  | step {i k : Nat} {x : Cell α} (h : Reached edges outside xs i) (hx : xs[i]? = some x)
    (hk : k ∈ edges x.item) : Reached edges outside xs k

/-- What is reached from something reached is reached. -/
theorem Reached.through {roots : List Nat} (hroots : ∀ k ∈ roots, Reached edges outside xs k)
    (hi : Reached edges roots xs i) : Reached edges outside xs i := by
  induction hi with
  | root hi => exact hroots _ hi
  | step _ hx hk ih => exact .step ih hx hk

theorem Reached.mono {outside' : List Nat} (hsub : ∀ k ∈ outside, k ∈ outside')
    (hi : Reached edges outside xs i) : Reached edges outside' xs i :=
  hi.through fun k hk => .root (hsub k hk)

/-- What is reached depends on the objects, not on their counts. -/
theorem Reached.of_items {ys : List (Cell α)} (hitems : ys.map Cell.item = xs.map Cell.item)
    (hi : Reached edges outside ys i) : Reached edges outside xs i := by
  induction hi with
  | root hi => exact .root hi
  | @step i k y _ hy hk ih =>
    obtain ⟨x, hx, hsame⟩ : ∃ x, xs[i]? = some x ∧ x.item = y.item := by
      rw [← Option.map_eq_some_iff, ← List.getElem?_map, ← hitems, List.getElem?_map, hy]
      rfl
    exact .step ih hx (hsame ▸ hk)

/-! ## An object's end -/

theorem refsAt_le_total (xs : List (Cell α)) (i : Nat) : refsAt xs i ≤ total xs := by
  cases hx : xs[i]? with
  | none => simp [refsAt, hx]
  | some x =>
    have hset := total_set hx { x with refs := 0 }
    rw [refsAt_eq hx]
    dsimp only at hset
    omega

structure Finishes (edges : α → List Nat) (finish : α → σ → Except ε (List Nat × σ))
    (fine : α → Prop) (bad : α → ε → Prop) : Prop where
  held : ∀ {item s is s'}, fine item → finish item s = .ok (is, s') → is.Perm (edges item)
  fails : ∀ {item s e}, fine item → finish item s = .error e → bad item e

/-- A reference goes that was not the last. -/
theorem Balanced.letGo {is : List Nat} {n : Nat} (h : Balanced edges (i :: is ++ outside) xs)
    (hx : xs[i]? = some x) (hrefs : x.refs = n + 2) :
    Balanced edges (is ++ outside) (xs.set i { x with refs := n + 1 }) := by
  refine h.set hx _ fun k => ?_
  have hlive : x.refs ≠ 0 := by omega
  simp only [Cell.holds, if_neg hlive, if_neg (Nat.succ_ne_zero n), List.cons_append,
    List.count_cons]
  by_cases hik : i = k
  · subst hik
    rw [refsAt_eq hx, hrefs]
    simp
    omega
  · simp [hik]

/-- The last reference goes, and those that the object held are let go of next. -/
theorem Balanced.finished {is back : List Nat} (h : Balanced edges (i :: is ++ outside) xs)
    (hx : xs[i]? = some x) (hrefs : x.refs = 1) (hback : back.Perm (edges x.item)) :
    Balanced edges (back ++ is ++ outside) (xs.set i { x with refs := 0 }) := by
  refine h.set hx _ fun k => ?_
  have hlive : x.refs ≠ 0 := by omega
  have hcount := hback.count_eq k
  simp only [Cell.holds, if_neg hlive, if_true, List.count_append, List.cons_append,
    List.count_cons, List.count_nil, hcount]
  by_cases hik : i = k
  · subst hik
    rw [refsAt_eq hx, hrefs]
    simp
    omega
  · simp [hik]
    omega

/-- A bad object found after a count was set was there before. -/
theorem bad_of_set {P : α → Prop} {is js : List Nat} (hx : xs[i]? = some x) (n : Nat)
    (hroots : ∀ k ∈ js, Reached edges is xs k)
    (h : ∃ k y, Reached edges js (xs.set i { x with refs := n }) k ∧
      (xs.set i { x with refs := n })[k]? = some y ∧ P y.item) :
    ∃ k y, Reached edges is xs k ∧ xs[k]? = some y ∧ P y.item := by
  obtain ⟨k, y, hk, hy, hitem⟩ := h
  refine ⟨k, ?_⟩
  have hreached := (hk.of_items (items_set hx n)).through hroots
  have hsame := congrArg (fun items => items[k]?) (items_set hx n)
  simp only [List.getElem?_map, hy] at hsame
  obtain ⟨z, hz, hzitem⟩ := Option.map_eq_some_iff.mp hsame.symm
  exact ⟨z, hreached, hz, hzitem ▸ hitem⟩

section Finishes

variable {finish : α → σ → Except ε (List Nat × σ)} {fine : α → Prop} {bad : α → ε → Prop}
  (hfinish : Finishes edges finish fine bad)

include hfinish

/-- No object is met after its end; what goes wrong is the end of a bad one that the references
lead to. -/
theorem Balanced.drop (gone : ε) {fuel : Nat} (is : List Nat) (s : σ)
    (h : Balanced edges (is ++ outside) xs) (hfine : ∀ item ∈ xs.map Cell.item, fine item)
    (hfuel : total xs ≤ fuel) :
    (∃ e, Counted.drop gone finish fuel is xs s = .error e ∧
        ∃ i x, Reached edges is xs i ∧ xs[i]? = some x ∧ bad x.item e) ∨
      ∃ xs' s', Counted.drop gone finish fuel is xs s = .ok (xs', s') ∧
        Balanced edges outside xs' ∧ xs'.map Cell.item = xs.map Cell.item := by
  induction fuel generalizing is xs s with
  | zero =>
    cases is with
    | nil => exact Or.inr ⟨xs, s, rfl, h, rfl⟩
    | cons i is =>
      have hlive := h.live_of_mem (List.mem_append_left _ List.mem_cons_self)
      have hle := refsAt_le_total xs i
      omega
  | succ fuel ih =>
    cases is with
    | nil => exact Or.inr ⟨xs, s, rfl, h, rfl⟩
    | cons i is =>
      obtain ⟨x, hx, hlive⟩ :=
        exists_of_refsAt (h.live_of_mem (List.mem_append_left _ List.mem_cons_self))
      have hxfine : fine x.item := hfine _ (List.mem_map_of_mem (List.mem_of_getElem? hx))
      rw [Counted.drop, hx]
      dsimp only
      match hrefs : x.refs with
      | 0 => exact absurd hrefs hlive
      | 1 =>
        dsimp only
        cases hfin : finish x.item s with
        | error e =>
          exact Or.inl ⟨e, rfl, i, x, .root List.mem_cons_self, hx, hfinish.fails hxfine hfin⟩
        | ok r =>
          have hset := total_set hx { x with refs := 0 }
          have hperm := hfinish.held hxfine hfin
          have hitems := items_set hx 0
          dsimp only at hset ⊢
          obtain ⟨e, hfail, hbad⟩ | ⟨xs', s', hdrop, hbalanced, hitems'⟩ :=
            ih _ r.2 (h.finished hx hrefs hperm) (hitems ▸ hfine) (by omega)
          · refine Or.inl ⟨e, hfail,
              bad_of_set (P := fun item => bad item e) hx 0 (fun k hk => ?_) hbad⟩
            rcases List.mem_append.mp hk with hk | hk
            · exact .step (.root List.mem_cons_self) hx (hperm.mem_iff.mp hk)
            · exact .root (List.mem_cons_of_mem i hk)
          · exact Or.inr ⟨xs', s', hdrop, hbalanced, hitems'.trans hitems⟩
      | n + 2 =>
        have hset := total_set hx { x with refs := n + 1 }
        have hitems := items_set hx (n + 1)
        dsimp only at hset ⊢
        obtain ⟨e, hfail, hbad⟩ | ⟨xs', s', hdrop, hbalanced, hitems'⟩ :=
          ih _ s (h.letGo hx hrefs) (hitems ▸ hfine) (by omega)
        · exact Or.inl ⟨e, hfail,
            bad_of_set (P := fun item => bad item e) hx (n + 1)
              (fun k hk => .root (List.mem_cons_of_mem i hk)) hbad⟩
        · exact Or.inr ⟨xs', s', hdrop, hbalanced, hitems'.trans hitems⟩

end Finishes

/-! ## Lifetimes -/

/-- Nothing that references lead to has ended. -/
theorem Reached.live (h : Balanced edges outside xs) (hi : Reached edges outside xs i) :
    refsAt xs i ≠ 0 := by
  induction hi with
  | root hi => exact h.live_of_mem hi
  | step _ hx hk ih => exact h.live_of_edge hx (refsAt_eq hx ▸ ih) hk

/-- From a leaf nothing else is reached. -/
theorem Reached.leaves {leaves : List Nat}
    (hleaves : ∀ k ∈ leaves, ∀ x : Cell α, xs[k]? = some x → edges x.item = [])
    (hi : Reached edges (outside ++ leaves) xs i) : Reached edges outside xs i ∨ i ∈ leaves := by
  induction hi with
  | root hi => exact (List.mem_append.mp hi).imp_left .root
  | step _ hx hk ih =>
    rcases ih with hreached | hleaf
    · exact Or.inl (.step hreached hx hk)
    · rw [hleaves _ hleaf _ hx] at hk
      simp at hk

/-- Where references go down in rank, what is live is reached. The induction is on the ranks above
an object: one that is not held from outside has a holder up there. -/
theorem Balanced.reached (h : Balanced edges outside xs) {rank : α → Nat} {bound : Nat}
    (hbound : ∀ item, rank item ≤ bound)
    (hrank : ∀ (i k : Nat) (x y : Cell α), xs[i]? = some x → x.refs ≠ 0 → xs[k]? = some y →
      k ∈ edges x.item → rank y.item < rank x.item) (hi : refsAt xs i ≠ 0) :
    Reached edges outside xs i := by
  obtain ⟨x, hx, hlive⟩ := exists_of_refsAt hi
  induction hn : bound - rank x.item using Nat.strongRecOn generalizing i x with
  | _ n ih =>
    rcases h.holder hi with hroot | ⟨j, y, hy, hylive, hedge⟩
    · exact .root hroot
    · have hlt := hrank j i y x hy hylive hx hedge
      have hle := hbound y.item
      have hylive' : refsAt xs j ≠ 0 := by rwa [refsAt_eq hy]
      exact .step (ih (bound - rank y.item) (by omega) hylive' y hy hylive rfl) hy hedge

end Counted
