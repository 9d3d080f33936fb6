import Wrouter.Patterns
import Wrouter.Service

/-!
# The three notations

A route of literals, parameters and wildcards can be written with `:name`, `{name}` or
`<name>`. Two programs that differ in the notation alone get the same replies throughout.
-/
namespace Wrouter

open CLib Runs

inductive Part where
  | literal (s : Bytes)
  | param (name : Bytes)
  | wildcard
  deriving DecidableEq, Repr

structure RoutePath where
  parts : List Part
  trailing : Bool
  deriving DecidableEq, Repr

/-- A parameter is closed where the notation has something to close it with. -/
def Part.piece (σ : ParamSyntax) : Part → Piece
  | .literal s => .literal s
  | .param name => .param name (closing σ).isSome
  | .wildcard => .wildcard

def Part.tok : Part → Tok
  | .literal s => .literal s
  | .param name => .param name
  | .wildcard => .wildcard

def RoutePath.write (σ : ParamSyntax) (p : RoutePath) : Bytes :=
  if p.parts = [] then [slash]
  else pathOf ((p.parts.map (Part.piece σ)).map (Piece.text σ)) ++ lastSlash p.trailing

def RoutePath.word (p : RoutePath) : List Tok :=
  if p.parts = [] then [.end_]
  else p.parts.map Part.tok ++ [if p.trailing then .trailing else .end_]

/-- The notation can say it: a literal does not start like a parameter, and so on. -/
def RoutePath.Sayable (σ : ParamSyntax) (p : RoutePath) : Prop :=
  ∀ a ∈ p.parts, (a.piece σ).Ok σ

instance (σ : ParamSyntax) (a : Piece) : Decidable (a.Ok σ) :=
  match a with
  | .literal s => inferInstanceAs (Decidable (s ≠ [] ∧ s.head? ≠ some (opening σ) ∧ slash ∉ s ∧
      (∀ b ∈ s, ¬ illegalByte b) ∧ s.length ≤ lexerCharLimit))
  | .param name closed => inferInstanceAs (Decidable (validName name ∧ name.length ≤ lexerCharLimit ∧
      (closed → (closing σ).isSome)))
  | .wildcard => inferInstanceAs (Decidable True)

instance (σ : ParamSyntax) (p : RoutePath) : Decidable (p.Sayable σ) :=
  inferInstanceAs (Decidable (∀ a ∈ p.parts, (a.piece σ).Ok σ))

theorem piece_tok (σ : ParamSyntax) (a : Part) : (a.piece σ).tok = a.tok := by
  cases a <;> rfl

theorem Piece.Ok.nulFree {σ : ParamSyntax} {a : Piece} (ha : a.Ok σ) : NulFree (a.text σ) := by
  cases a with
  | literal s =>
    obtain ⟨-, -, -, hlegal, -⟩ := ha
    intro hzero
    exact hlegal 0 hzero illegalByte_zero
  | param name closed =>
    have hname : NulFree name := by
      intro hzero
      have := validName_bytes ha.1 0 hzero
      revert this
      decide
    have hcloser : NulFree (closer σ closed) := by
      unfold NulFree
      cases σ <;> cases closed <;> decide
    have hopening := (opening_ne (σ := σ)).1
    rw [Piece.text, nulFree_cons]
    exact ⟨hopening, fun hzero => (List.mem_append.mp hzero).elim hname hcloser⟩
  | wildcard =>
    have hstar : NulFree [star] := by
      unfold NulFree
      decide
    exact hstar

theorem nulFree_pathOf {ss : List Bytes} (h : ∀ s ∈ ss, NulFree s) : NulFree (pathOf ss) := by
  intro hzero
  obtain ⟨s, hs, hmem⟩ := List.mem_flatMap.mp hzero
  rcases List.mem_cons.mp hmem with heq | hmem
  · revert heq
    decide
  · exact h s hs hmem

/-- What is written in a notation reads back in it. -/
theorem RoutePath.read_write {σ : ParamSyntax} {p : RoutePath} (h : p.Sayable σ) :
    patternWord σ (p.write σ) = p.word := by
  unfold RoutePath.write RoutePath.word
  split
  · cases σ <;> decide
  rename_i hne
  have hok : ∀ a ∈ p.parts.map (Part.piece σ), a.Ok σ := by
    intro a ha
    obtain ⟨x, hx, rfl⟩ := List.mem_map.mp ha
    exact h x hx
  have hnul : NulFree (pathOf ((p.parts.map (Part.piece σ)).map (Piece.text σ)) ++
      lastSlash p.trailing) := by
    intro hzero
    rcases List.mem_append.mp hzero with hzero | hzero
    · refine nulFree_pathOf (fun s hs => ?_) hzero
      obtain ⟨a, ha, rfl⟩ := List.mem_map.mp hs
      exact (hok a ha).nulFree
    · revert hzero
      cases p.trailing <;> decide
  have hparts : p.parts.map (Part.piece σ) ≠ [] := by simpa using hne
  rw [word_pathOf hparts hok p.trailing hnul, List.map_map]
  exact congrArg (· ++ _) (List.map_congr_left fun a _ => piece_tok σ a)

/-! ## Programs in two notations -/

inductive SameCall (σ τ : ParamSyntax) : ApiCall → ApiCall → Prop where
  | written (p : RoutePath) (route : Route) : p.Sayable σ → p.Sayable τ →
      SameCall σ τ (.addRoute (some (p.write σ)) route) (.addRoute (some (p.write τ)) route)
  | other (c : ApiCall) : (∀ pattern route, c ≠ .addRoute pattern route) → SameCall σ τ c c

/-- The step lemma: calls that differ in the notation do the same to the registry. -/
theorem SameCall.step {options : Options} {σ τ : ParamSyntax} {c d : ApiCall}
    (h : SameCall σ τ c d) (t : Registry) :
    registryStep { options with paramSyntax := σ } c t =
      registryStep { options with paramSyntax := τ } d t := by
  cases h with
  | written p route hσ hτ =>
    have hentry : callEntry σ (some (p.write σ), route) = callEntry τ (some (p.write τ), route) :=
      congrArg (·, route) ((RoutePath.read_write hσ).trans (RoutePath.read_write hτ).symm)
    unfold registryStep Registry.call
    dsimp only
    rw [hentry]
  | other c hc =>
    cases c with
    | addRoute pattern route => exact absurd rfl (hc pattern route)
    | _ => rfl

/-- The run lemma, by induction on the calls. -/
theorem registry_notation {options : Options} {σ τ : ParamSyntax} {calls calls' : List ApiCall}
    (h : List.Forall₂ (SameCall σ τ) calls calls') (t : Registry) :
    run (registryStep { options with paramSyntax := σ }) calls t =
      run (registryStep { options with paramSyntax := τ }) calls' t := by
  induction h generalizing t with
  | nil => rfl
  | cons hcall _ ih => rw [run, run, hcall.step, ih]

/-- With memory left, the notation shows in no reply: not in a code, nor in what a request finds,
nor in a parameter's name or value. -/
theorem notation_does_not_matter (L M : Libc) {options : Options} {σ τ : ParamSyntax}
    {v v' w w' : World} (hv : v.NoFail) (hw : w.NoFail) {b c : Builder}
    (hb : wrouterBuilderCreate { options with paramSyntax := σ } v = (some b, v'))
    (hc : wrouterBuilderCreate { options with paramSyntax := τ } w = (some c, w'))
    {calls calls' : List ApiCall} (h : List.Forall₂ (SameCall σ τ) calls calls') :
    (run (serviceStep L) calls ⟨b, [], [], v', false⟩).1 =
      (run (serviceStep M) calls' ⟨c, [], [], w', false⟩).1 := by
  rw [(mirrors_start L hv hb).replies, (mirrors_start M hw hc).replies, registry_notation h]

def spoken (σ : ParamSyntax) : List ApiCall :=
  [.addRoute (some (RoutePath.write σ ⟨[.literal (ascii "a"), .param (ascii "x")], false⟩)) ⟨5, 1⟩,
    .addRoute (some (RoutePath.write σ ⟨[.wildcard], false⟩)) ⟨6, 2⟩, .compile, .dispatcherCreate 0,
    .dispatch 0 (ascii "/a/1") 9, .param 0 (ascii "x")]

/-- The same program in two notations. -/
theorem notation_does_not_matter_spoken :
    (run (serviceStep .reference) (spoken .angle)
      ⟨.fresh { plainOptions with paramSyntax := .angle }, [], [],
        (wrouterBuilderCreate { plainOptions with paramSyntax := .angle } .empty).2, false⟩).1 =
    [.code .ok, .code .ok, .code .ok, .created true,
      .called (some ⟨5, 9, 1, [⟨some (ascii "x"), some (ascii "1"), 1⟩]⟩),
      .param (some (some (ascii "x"), ascii "1"))] := by
  have hcreate (σ : ParamSyntax) :
      wrouterBuilderCreate { plainOptions with paramSyntax := σ } .empty =
        (some (.fresh { plainOptions with paramSyntax := σ }),
          (wrouterBuilderCreate { plainOptions with paramSyntax := σ } .empty).2) := rfl
  have hnoFail : World.empty.NoFail := by simp [World.NoFail, World.empty]
  have hsame : List.Forall₂ (SameCall .angle .colon) (spoken .angle) (spoken .colon) := by
    refine .cons (.written _ _ (by decide +kernel) (by decide +kernel))
      (.cons (.written _ _ (by decide +kernel) (by decide +kernel)) (.cons (.other _ ?_)
      (.cons (.other _ ?_) (.cons (.other _ ?_) (.cons (.other _ ?_) .nil)))))
    all_goals simp
  rw [notation_does_not_matter .reference .reference hnoFail hnoFail (hcreate .angle)
    (hcreate .colon) hsame]
  decide +kernel

end Wrouter
