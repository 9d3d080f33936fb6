import Mathlib.Data.List.Induction

/-!
# Runs of a machine that answers

A step takes a request and a state to an answer and a state. A run takes the requests of a
list one after the other. What each step keeps a run keeps, and a prefix of a run is a run.
-/
namespace Runs

variable {ρ α σ : Type*}

def run (step : ρ → σ → α × σ) : List ρ → σ → List α × σ
  | [], s => ([], s)
  | r :: rest, s =>
    let head := step r s
    let tail := run step rest head.2
    (head.1 :: tail.1, tail.2)

variable (step : ρ → σ → α × σ)

/-- A run in two parts. -/
theorem run_append (pre rest : List ρ) (s : σ) :
    run step (pre ++ rest) s = ((run step pre s).1 ++ (run step rest (run step pre s).2).1,
      (run step rest (run step pre s).2).2) := by
  induction pre generalizing s with
  | nil => rfl
  | cons r pre ih => simp only [List.cons_append, run, ih]

theorem run_snoc (pre : List ρ) (r : ρ) (s : σ) :
    run step (pre ++ [r]) s = ((run step pre s).1 ++ [(step r (run step pre s).2).1],
      (step r (run step pre s).2).2) :=
  run_append step pre [r] s

theorem length_run (reqs : List ρ) (s : σ) : (run step reqs s).1.length = reqs.length := by
  induction reqs generalizing s with
  | nil => rfl
  | cons r reqs ih => exact congrArg (· + 1) (ih _)

/-- From one prefix of a run to a longer one, when the steps in between are known to keep. -/
theorem run_between {step : ρ → σ → α × σ} {R : σ → σ → Prop} (refl : ∀ s, R s s)
    (trans : ∀ {s t u}, R s t → R t u → R s u) {reqs : List ρ} {s : σ}
    (hstep : ∀ pre r, pre ++ [r] <+: reqs → R (run step pre s).2 (run step (pre ++ [r]) s).2)
    {pre mid : List ρ} (hmid : mid <+: reqs) (hpre : pre <+: mid) :
    R (run step pre s).2 (run step mid s).2 := by
  induction mid using List.reverseRecOn with
  | nil =>
    rw [List.prefix_nil.mp hpre]
    exact refl _
  | append_singleton mid r ih =>
    rcases List.prefix_concat_iff.mp hpre with rfl | hpre
    · exact refl _
    · exact trans (ih ((List.prefix_append mid [r]).trans hmid) hpre) (hstep mid r hmid)

/-- What every step does to the state, the rest of a run does after one of its prefixes. -/
theorem run_prefix_rel {step : ρ → σ → α × σ} {R : σ → σ → Prop} (refl : ∀ s, R s s)
    (trans : ∀ {s t u}, R s t → R t u → R s u) (hstep : ∀ r s, R s (step r s).2)
    {pre reqs : List ρ} (h : pre <+: reqs) (s : σ) :
    R (run step pre s).2 (run step reqs s).2 := by
  refine run_between refl trans (fun q r _ => ?_) List.prefix_rfl h
  rw [run_snoc]
  exact hstep r _

/-- The answers of a prefix come first. -/
theorem run_prefix_answers {pre reqs : List ρ} (h : pre <+: reqs) (s : σ) :
    (run step pre s).1 <+: (run step reqs s).1 := by
  obtain ⟨rest, rfl⟩ := h
  rw [run_append]
  exact List.prefix_append _ _

/-- An invariant over the requests so far, their answers and the state. -/
theorem run_invariant {step : ρ → σ → α × σ} (P : List ρ → List α → σ → Prop) {reqs : List ρ}
    {s : σ} (init : P [] [] s)
    (hstep : ∀ pre r, pre ++ [r] <+: reqs → P pre (run step pre s).1 (run step pre s).2 →
      P (pre ++ [r]) ((run step pre s).1 ++ [(step r (run step pre s).2).1])
        (step r (run step pre s).2).2)
    {pre : List ρ} (hpre : pre <+: reqs) : P pre (run step pre s).1 (run step pre s).2 := by
  induction pre using List.reverseRecOn with
  | nil => exact init
  | append_singleton pre r ih =>
    rw [run_snoc]
    exact hstep pre r hpre (ih ((List.prefix_append pre [r]).trans hpre))

/-- Two machines whose steps agree on related states agree on whole runs. -/
theorem run_simulates {ρ' τ : Type*} {step : ρ → σ → α × σ} {step' : ρ' → τ → α × τ} (f : ρ → ρ')
    (R : σ → τ → Prop)
    (hstep : ∀ r s t, R s t → (step r s).1 = (step' (f r) t).1 ∧ R (step r s).2 (step' (f r) t).2)
    {s : σ} {t : τ} (h : R s t) (reqs : List ρ) :
    (run step reqs s).1 = (run step' (reqs.map f) t).1 ∧
      R (run step reqs s).2 (run step' (reqs.map f) t).2 := by
  induction reqs generalizing s t with
  | nil => exact ⟨rfl, h⟩
  | cons r reqs ih =>
    obtain ⟨hanswer, hnext⟩ := hstep r s t h
    obtain ⟨hanswers, hlast⟩ := ih hnext
    exact ⟨congrArg₂ List.cons hanswer hanswers, hlast⟩

/-- A state that every step leaves as it is, with one answer. -/
theorem run_absorbed {step : ρ → σ → α × σ} {s : σ} {a : α} (h : ∀ r, step r s = (a, s))
    (reqs : List ρ) : run step reqs s = (List.replicate reqs.length a, s) := by
  induction reqs with
  | nil => rfl
  | cons r reqs ih => rw [run, h, ih, List.length_cons, List.replicate_succ]

def answersOf (kind : ρ → Bool) (reqs : List ρ) (answers : List α) : List α :=
  ((reqs.zip answers).filter fun ra => kind ra.1).map Prod.snd

/-- A view of the state that requests of one kind see and change, and that no other request
touches as long as its answer is good: those of the kind are answered as if there were no others. -/
theorem run_filter {step : ρ → σ → α × σ} {kind : ρ → Bool} {good : α → Prop} {V : σ → σ → Prop}
    (hkind : ∀ r s t, kind r = true → V s t → good (step r s).1 →
      (step r s).1 = (step r t).1 ∧ V (step r s).2 (step r t).2)
    (hother : ∀ r s t, kind r = false → V s t → good (step r s).1 → V (step r s).2 t) {s t : σ}
    (h : V s t) {reqs : List ρ} (hgood : ∀ a ∈ (run step reqs s).1, good a) :
    answersOf kind reqs (run step reqs s).1 = (run step (reqs.filter kind) t).1 := by
  induction reqs generalizing s t with
  | nil => rfl
  | cons r reqs ih =>
    obtain ⟨hfirst, hrest⟩ := List.forall_mem_cons.mp hgood
    unfold answersOf at ih ⊢
    rw [run, List.zip_cons_cons, List.filter_cons, List.filter_cons]
    cases hk : kind r with
    | true =>
      obtain ⟨hanswer, hnext⟩ := hkind r s t hk h hfirst
      rw [if_pos rfl, if_pos rfl, List.map_cons, run, ih hnext hrest]
      exact congrArg (· :: _) hanswer
    | false =>
      rw [if_neg Bool.false_ne_true, if_neg Bool.false_ne_true]
      exact ih (hother r s t hk h hfirst) hrest

/-! ## Steps that may not come through -/

def attempt (step : ρ → σ → Option σ) : List ρ → σ → Option σ
  | [], s => some s
  | r :: rest, s => (step r s).bind (attempt step rest)

/-- Each request is made in a state where it may be. -/
def allowed (step : ρ → σ → Option σ) (may : ρ → σ → Bool) : List ρ → σ → Bool
  | [], _ => true
  | r :: rest, s => may r s && (step r s).all (allowed step may rest)

/-- What the steps do from good states to good states, a run that comes through does. -/
theorem attempt_rel {step : ρ → σ → Option σ} {may : ρ → σ → Bool} {I : σ → Prop}
    {R : σ → σ → Prop} (refl : ∀ s, R s s) (trans : ∀ {s t u}, R s t → R t u → R s u)
    (hstep : ∀ r s t, I s → may r s = true → step r s = some t → I t ∧ R s t) {reqs : List ρ}
    {s t : σ} (hs : I s) (hmay : allowed step may reqs s = true) (h : attempt step reqs s = some t) :
    I t ∧ R s t := by
  induction reqs generalizing s with
  | nil =>
    obtain rfl := Option.some.inj h
    exact ⟨hs, refl s⟩
  | cons r reqs ih =>
    obtain ⟨u, hu, hrest⟩ := Option.bind_eq_some_iff.mp h
    rw [allowed, hu, Option.all_some, Bool.and_eq_true] at hmay
    obtain ⟨hi, hfirst⟩ := hstep r s u hs hmay.1 hu
    obtain ⟨hi', hlast⟩ := ih hi hmay.2 hrest
    exact ⟨hi', trans hfirst hlast⟩

theorem zip_snoc {β γ : Type*} {l : List β} {m : List γ} (h : m.length = l.length) (x : β)
    (y : γ) : (l ++ [x]).zip (m ++ [y]) = l.zip m ++ [(x, y)] :=
  List.zip_append h.symm

theorem prefix_snoc {l pre : List ρ} {r : ρ} (h : pre ++ [r] <+: l) :
    pre = l.take pre.length ∧ l[pre.length]? = some r := by
  obtain ⟨rest, rfl⟩ := h
  constructor <;> simp

end Runs
