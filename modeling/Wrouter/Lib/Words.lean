import Mathlib.Data.List.Induction
import Mathlib.Data.Set.Basic

/-!
# Walking a set of words

A dictionary is a set of words over an alphabet of pattern letters, each with a
value. An input is read one symbol at a time; a letter may fit many symbols. The
trail of an input is the longest live prefix that fits it, and in a
deterministic dictionary there is exactly one. A marker is a fixed ending; the
deepest marker of a trail is the longest of its prefixes that the dictionary
completes with that ending.
-/
namespace Words

variable {α σ β : Type*}

/-- The word fits an initial part of the input, letter by letter. -/
def Fits (fits : α → σ → Prop) : List α → List σ → Prop
  | [], _ => True
  | _ :: _, [] => False
  | a :: q, x :: xs => fits a x ∧ Fits fits q xs

/-- A prefix of some word; the empty word is live in every dictionary. -/
def Live (S : Set (List α × β)) (q : List α) : Prop := q = [] ∨ ∃ e ∈ S, q <+: e.1

/-- At most one letter can continue a live prefix on a given symbol. -/
def Deterministic (fits : α → σ → Prop) (S : Set (List α × β)) : Prop :=
  ∀ q a b x, Live S (q ++ [a]) → Live S (q ++ [b]) → fits a x → fits b x → a = b

/-- A live prefix that fits the input and that no letter continues. -/
structure IsTrail (fits : α → σ → Prop) (S : Set (List α × β)) (xs : List σ) (q : List α) :
    Prop where
  live : Live S q
  fit : Fits fits q xs
  maximal : ∀ a, Live S (q ++ [a]) → ¬ Fits fits (q ++ [a]) xs

/-- The longest prefix of `q` that the dictionary completes with the marker. -/
structure Deepest (S : Set (List α × β)) (marker q : List α) (k : Nat) (v : β) : Prop where
  le : k ≤ q.length
  mem : (q.take k ++ marker, v) ∈ S
  last : ∀ k' v', k < k' → k' ≤ q.length → (q.take k' ++ marker, v') ∉ S

variable {fits : α → σ → Prop} {S T : Set (List α × β)} {p q marker : List α} {xs : List σ}

instance decidableFits [∀ a x, Decidable (fits a x)] :
    ∀ (q : List α) (xs : List σ), Decidable (Fits fits q xs)
  | [], _ => isTrue trivial
  | _ :: _, [] => isFalse id
  | a :: q, x :: xs =>
    have := decidableFits q xs
    inferInstanceAs (Decidable (fits a x ∧ Fits fits q xs))

@[simp] theorem fits_nil : Fits fits [] xs := trivial

@[simp] theorem fits_cons_cons (a : α) (x : σ) :
    Fits fits (a :: q) (x :: xs) ↔ fits a x ∧ Fits fits q xs := Iff.rfl

theorem fits_length (h : Fits fits q xs) : q.length ≤ xs.length := by
  induction q generalizing xs with
  | nil => simp
  | cons a q ih =>
    cases xs with
    | nil => exact h.elim
    | cons x xs => simpa using ih h.2

theorem fits_anti (hp : p <+: q) (h : Fits fits q xs) : Fits fits p xs := by
  induction p generalizing q xs with
  | nil => trivial
  | cons a p ih =>
    obtain ⟨r, rfl⟩ := hp
    cases xs with
    | nil => exact h.elim
    | cons x xs => exact ⟨h.1, ih (List.prefix_append p r) h.2⟩

/-- Fitting sees of the symbols only what the letters look at. -/
theorem fits_map (fits : α → σ → Prop) {τ : Type*} (f : τ → σ) {ys : List τ} :
    Fits (fun a y => fits a (f y)) q ys ↔ Fits fits q (ys.map f) := by
  induction q generalizing ys with
  | nil => simp
  | cons a q ih =>
    cases ys with
    | nil => exact Iff.rfl
    | cons y ys => simp [ih]

/-- A fitting word takes one more letter exactly on the next symbol. -/
theorem fits_append_singleton (a : α) :
    Fits fits (q ++ [a]) xs ↔ Fits fits q xs ∧ ∃ x, xs[q.length]? = some x ∧ fits a x := by
  induction q generalizing xs with
  | nil => cases xs <;> simp [Fits]
  | cons b q ih =>
    cases xs with
    | nil => simp [Fits]
    | cons x xs => simp [ih, and_assoc]

theorem live_nil : Live S [] := Or.inl rfl

theorem live_anti (hp : p <+: q) (h : Live S q) : Live S p := by
  rcases h with rfl | ⟨e, he, hq⟩
  · exact Or.inl (List.prefix_nil.mp hp)
  · exact Or.inr ⟨e, he, hp.trans hq⟩

theorem live_mono (h : S ⊆ T) (hq : Live S q) : Live T q := by
  rcases hq with rfl | ⟨e, he, hp⟩
  · exact live_nil
  · exact Or.inr ⟨e, h he, hp⟩

theorem live_cons_iff (a : α) : Live S (a :: q) ↔ ∃ e ∈ S, a :: q <+: e.1 := by
  simp [Live]

/-- Every live fitting prefix lies on the trail. -/
theorem prefix_trail (hd : Deterministic fits S) (hp : Live S p) (hf : Fits fits p xs)
    (ht : IsTrail fits S xs q) : p <+: q := by
  induction p using List.reverseRecOn with
  | nil => exact List.nil_prefix
  | append_singleton p a ih =>
    have hpa : p <+: p ++ [a] := List.prefix_append p [a]
    obtain ⟨r, rfl⟩ := ih (live_anti hpa hp) (fits_anti hpa hf)
    cases r with
    | nil =>
      rw [List.append_nil] at ht
      exact absurd hf (ht.maximal a hp)
    | cons b r =>
      have hpb : p ++ [b] <+: p ++ b :: r := ⟨r, by simp⟩
      obtain ⟨_, x, hx, ha⟩ := (fits_append_singleton a).mp hf
      obtain ⟨_, y, hy, hb⟩ := (fits_append_singleton b).mp (fits_anti hpb ht.fit)
      have hxy : x = y := Option.some.inj (hx.symm.trans hy)
      subst hxy
      rw [hd p a b x hp (live_anti hpb ht.live) ha hb]
      exact hpb

/-- A deterministic dictionary has one trail for each input. -/
theorem trail_unique (hd : Deterministic fits S) (hp : IsTrail fits S xs p)
    (hq : IsTrail fits S xs q) : p = q := by
  have hpq := prefix_trail hd hp.live hp.fit hq
  have hqp := prefix_trail hd hq.live hq.fit hp
  exact hpq.eq_of_length (Nat.le_antisymm hpq.length_le hqp.length_le)

/-- A larger dictionary carries every trail at least as far. -/
theorem trail_mono (h : S ⊆ T) (hd : Deterministic fits T) (hp : IsTrail fits S xs p)
    (hq : IsTrail fits T xs q) : p <+: q :=
  prefix_trail hd (live_mono h hp.live) hp.fit hq

/-- Reading on from a live fitting prefix ends in a trail. -/
theorem trail_exists : ∃ q, IsTrail fits S xs q := by
  have grow : ∀ n (p : List α), Live S p → Fits fits p xs → xs.length - p.length = n →
      ∃ q, IsTrail fits S xs q := by
    intro n
    induction n with
    | zero =>
      intro p hl hf hn
      refine ⟨p, hl, hf, fun a _ hfa => ?_⟩
      have := fits_length hfa
      simp at this
      omega
    | succ n ih =>
      intro p hl hf hn
      by_cases h : ∃ a, Live S (p ++ [a]) ∧ Fits fits (p ++ [a]) xs
      · obtain ⟨a, hla, hfa⟩ := h
        exact ih (p ++ [a]) hla hfa (by simp; omega)
      · exact ⟨p, hl, hf, fun a hla hfa => h ⟨a, hla, hfa⟩⟩
  exact grow _ [] live_nil trivial rfl

/-- Two live prefixes of one length that fit one input are the same. -/
theorem eq_of_fits (hd : Deterministic fits S) (hp : Live S p) (hq : Live S q)
    (hpf : Fits fits p xs) (hqf : Fits fits q xs) (hlen : p.length = q.length) : p = q := by
  obtain ⟨w, hw⟩ : ∃ w, IsTrail fits S xs w := trail_exists
  have hpw := prefix_trail hd hp hpf hw
  have hqw := prefix_trail hd hq hqf hw
  exact (List.prefix_of_prefix_length_le hpw hqw hlen.le).eq_of_length hlen

/-- If any prefix is completed by the marker, there is a deepest one. -/
theorem deepest_exists {k : Nat} {v : β} (hk : k ≤ q.length) (h : (q.take k ++ marker, v) ∈ S) :
    ∃ k' v', k ≤ k' ∧ Deepest S marker q k' v' := by
  have grow : ∀ n k v, q.length - k = n → k ≤ q.length → (q.take k ++ marker, v) ∈ S →
      ∃ k' v', k ≤ k' ∧ Deepest S marker q k' v' := by
    intro n
    induction n using Nat.strongRecOn with
    | _ n ih =>
      intro k v hn hk h
      by_cases hmore : ∃ k' v', k < k' ∧ k' ≤ q.length ∧ (q.take k' ++ marker, v') ∈ S
      · obtain ⟨k', v', hlt, hk', h'⟩ := hmore
        obtain ⟨k'', v'', hle, hdeep⟩ := ih (q.length - k') (by omega) k' v' rfl hk' h'
        exact ⟨k'', v'', by omega, hdeep⟩
      · exact ⟨k, v, Nat.le_refl k, hk, h, fun k' v' hlt hk' h' => hmore ⟨k', v', hlt, hk', h'⟩⟩
  exact grow _ k v rfl hk h

/-- One value per word makes the deepest marker unique. -/
theorem deepest_unique (hf : ∀ w v v', (w, v) ∈ S → (w, v') ∈ S → v = v') {k k' : Nat} {v v' : β}
    (h : Deepest S marker q k v) (h' : Deepest S marker q k' v') : k = k' ∧ v = v' := by
  rcases Nat.lt_trichotomy k k' with hlt | rfl | hgt
  · exact absurd h'.mem (h.last k' v' hlt h'.le)
  · exact ⟨rfl, hf _ _ _ h.mem h'.mem⟩
  · exact absurd h.mem (h'.last k v hgt h.le)

end Words
