import Wrouter.References

/-!
# What a failed compilation leaves

The parts of a router free what they allocated when they fail, and then the router frees its
parts. A part that failed at its second allocation keeps a pointer to its first, which is
then freed twice. Nothing else goes wrong.
-/
namespace Wrouter

open CLib

def Event.allocated : Event → Option Nat
  | .alloc block _ => some block
  | _ => none

def Event.freed : Event → Option Nat
  | .free block => some block
  | _ => none

def World.allocated (w : World) : List Nat := w.trace.filterMap Event.allocated
def World.freed (w : World) : List Nat := w.trace.filterMap Event.freed

/-- From one world to the other these blocks were handed out, fresh ones in order, and these
were freed; the callbacks were left alone. -/
structure Spends (made gone : List Nat) (w w' : World) : Prop where
  allocated : w'.allocated = w.allocated ++ made
  freed : w'.freed = w.freed ++ gone
  callbacks : w'.callbacks = w.callbacks
  fresh : made = List.range' w.next made.length
  next : w'.next = w.next + made.length

/-- A call gave back every block it took, once, and matched its retains by releases. -/
structure CleanedUp (retaining : Bool) (w w' : World) : Prop where
  blocks : ∃ made gone, w'.allocated = w.allocated ++ made ∧ w'.freed = w.freed ++ gone ∧
    gone.Nodup ∧ gone.Perm made
  callbacks : retaining = true →
    ∀ ctx, w'.retains ctx + w.releases ctx = w'.releases ctx + w.retains ctx

/-! ## Allocations in order -/

inductive Allocation where
  | router
  | symbolBase
  | symbolRegion
  | terminalRefs
  | terminalBase
  | graph
  deriving DecidableEq, Repr

def symbolAllocations (tbl : SymbolTable) : List Allocation :=
  if tbl.count = 0 then [] else [.symbolBase, .symbolRegion]

def Builder.InRange (b : Builder) : Prop :=
  ¬ ((graphStats b.root .zero).size > 65535 ∨ (graphStats b.root .zero).terminals > 65535)

instance (b : Builder) : Decidable b.InRange := inferInstanceAs (Decidable (¬ _))

/-- The allocations after the router's own. -/
def partAllocations (b : Builder) : List Allocation :=
  if b.InRange then symbolAllocations b.literals ++ (symbolAllocations b.params ++
    [.terminalRefs, .terminalBase, .graph]) else []

/-- The allocations of `wrouter_compile`, in order. -/
def allocations (b : Builder) : List Allocation :=
  .router :: partAllocations b

def refused : List Allocation → List (Option Nat) → Option Allocation
  | a :: _, none :: _ => some a
  | _ :: plan, some _ :: answers => refused plan answers
  | _, _ => none

/-- The call comes to its end, or breaks off where everything is given back once: not at a second
allocation of a part, and not with a context to release and no callback for it. -/
def CleansUp (b : Builder) (answers : List (Option Nat)) : Prop :=
  refused (allocations b) answers ≠ some .symbolRegion ∧
    refused (allocations b) answers ≠ some .terminalBase ∧
    (b.retain = true → b.release = true ∨ refused (allocations b) answers = some .router ∨
      refused (allocations b) answers = none ∧ b.InRange)

instance (b : Builder) (answers : List (Option Nat)) : Decidable (CleansUp b answers) :=
  inferInstanceAs (Decidable (_ ∧ _))

theorem refused_cons (a : Allocation) (plan : List Allocation) (answers : List (Option Nat)) :
    refused (a :: plan) answers =
      if answers[0]? = some none then some a else refused plan answers.tail := by
  rcases answers with _ | ⟨_ | addr, rest⟩
  · cases plan <;> rfl
  · rfl
  · rfl

/-- One allocation: refused, or a fresh block. -/
theorem malloc_spends (w : World) (n : Nat) (a : Allocation) (plan : List Allocation) :
    (∃ w', w.malloc n = (none, w') ∧ Spends [] [] w w' ∧
      refused (a :: plan) w.answers = some a) ∨
    ∃ b w', w.malloc n = (some b, w') ∧ Spends [b.id] [] w w' ∧
      refused (a :: plan) w.answers = refused plan w'.answers := by
  obtain ⟨hnone, hanswers⟩ := malloc_refused w n
  rw [refused_cons]
  rcases hm : w.malloc n with ⟨_ | b, w'⟩
  · obtain ⟨hnext, htrace⟩ := malloc_none hm
    refine Or.inl ⟨w', rfl, ?_, by rw [if_pos (hnone.mp (by rw [hm]))]⟩
    exact ⟨by simp [World.allocated, htrace], by simp [World.freed, htrace],
      (quiet_of_malloc hm).callbacks, rfl, by simpa using hnext⟩
  · obtain ⟨hid, hnext, htrace⟩ := malloc_fresh hm
    rw [hm] at hnone hanswers
    refine Or.inr ⟨b, w', rfl, ?_, ?_⟩
    · exact ⟨by simp [World.allocated, htrace, Event.allocated, hid],
        by simp [World.freed, htrace, Event.freed], (quiet_of_malloc hm).callbacks,
        by simp [hid], by simpa using hnext⟩
    · rw [if_neg fun h => Option.some_ne_none b (hnone.mpr h), hanswers]

theorem Spends.refl (w : World) : Spends [] [] w w :=
  ⟨by simp, by simp, rfl, rfl, rfl⟩

theorem Spends.trans {made made' gone gone' : List Nat} {u v w : World} (h : Spends made gone u v)
    (h' : Spends made' gone' v w) : Spends (made ++ made') (gone ++ gone') u w where
  allocated := by rw [h'.allocated, h.allocated, List.append_assoc]
  freed := by rw [h'.freed, h.freed, List.append_assoc]
  callbacks := h'.callbacks.trans h.callbacks
  fresh := by
    rw [List.length_append, ← List.range'_append_1, ← h.fresh, ← h.next, ← h'.fresh]
  next := by rw [h'.next, h.next, List.length_append, Nat.add_assoc]

/-- First only taking, then only giving back. -/
theorem Spends.gives {made gone : List Nat} {u v w : World} (h : Spends made [] u v)
    (h' : Spends [] gone v w) : Spends made gone u w := by
  have := h.trans h'
  rwa [List.append_nil, List.nil_append] at this

def blockId (b : Option Block) : List Nat := (b.map Block.id).toList

theorem free_spends (w : World) (b : Option Block) : Spends [] (blockId b) w (w.free b) := by
  cases b with
  | none => exact .refl w
  | some b =>
    exact ⟨by simp [World.allocated, World.free, Event.allocated],
      by simp [World.freed, World.free, Event.freed, blockId], (quiet_free w (some b)).callbacks,
      rfl, rfl⟩

/-! ## The parts -/

def Symbols.blocks (sym : Symbols) : List Nat :=
  blockId sym.region ++ blockId (sym.base.map Ptr.block)

def Terminals.blocks (t : Terminals) : List Nat :=
  blockId (t.base.map Ptr.block) ++ blockId (t.refs.map Ptr.block)

@[simp] theorem blockId_none : blockId none = [] := rfl
@[simp] theorem symbols_zero_blocks : Symbols.zero.blocks = [] := rfl
@[simp] theorem terminals_zero_blocks : Terminals.zero.blocks = [] := rfl

/-- Freeing the symbols frees their blocks and nothing else. -/
theorem symbolsFree_spends (sym : Symbols) (w : World) :
    Spends [] sym.blocks w (symbolsFree sym w) :=
  (free_spends w _).trans (free_spends _ _)

theorem terminalsFree_spends (t : Terminals) (w : World) :
    Spends [] t.blocks w (terminalsFree t w) :=
  (free_spends w _).trans (free_spends _ _)

inductive PartEnd (first second : Allocation) (plan rest : List Allocation) (blocks : List Nat)
    (w w' : World) : Bool → Prop
  | whole (made : List Nat) : Spends made [] w w' → blocks.Perm made →
    refused plan w.answers = refused rest w'.answers → PartEnd first second plan rest blocks w w' true
  | first : Spends [] blocks w w' → blocks = [] → refused plan w.answers = some first →
    PartEnd first second plan rest blocks w w' false
  | second (block : Nat) : Spends [block] blocks w w' → blocks = [block] →
    refused plan w.answers = some second → PartEnd first second plan rest blocks w w' false

/-- A symbol list is a part of two allocations, its array and its region. -/
theorem symbolCompile_part (L : Libc) (tbl : SymbolTable) (w : World) (rest : List Allocation) :
    ∃ e sym w', symbolCompile L tbl w = (e, sym, w') ∧ (e = .ok ∨ e = .noMemory) ∧
      PartEnd .symbolBase .symbolRegion (symbolAllocations tbl ++ rest) rest sym.blocks w w'
        (decide (e = .ok)) := by
  unfold symbolCompile symbolAllocations
  dsimp only
  by_cases hcount : tbl.count = 0
  · rw [if_pos hcount, if_pos hcount]
    exact ⟨_, _, _, rfl, Or.inl rfl, .whole [] (.refl w) (.refl _) rfl⟩
  rw [if_neg hcount, if_neg hcount]
  rcases malloc_spends w (8 * tbl.count) .symbolBase (.symbolRegion :: rest) with
    ⟨w', hm, hspends, hrefused⟩ | ⟨b, w', hm, hspends, hnext⟩
  · rw [hm]
    exact ⟨_, _, _, rfl, Or.inr rfl, .first (hspends.gives (symbolsFree_spends _ w')) rfl hrefused⟩
  rw [hm]
  dsimp only
  rcases malloc_spends w' (arenaUsed tbl.arena) .symbolRegion rest with
    ⟨w'', hm', hspends', hrefused⟩ | ⟨r, w'', hm', hspends', hnext'⟩
  · rw [hm']
    exact ⟨_, _, _, rfl, Or.inr rfl, .second b.id ((hspends.trans hspends').gives
      (symbolsFree_spends _ w'')) rfl (hnext.trans hrefused)⟩
  · rw [hm']
    exact ⟨_, _, _, rfl, Or.inl rfl, .whole [b.id, r.id] (hspends.trans hspends') (.swap _ _ _)
      (hnext.trans hnext')⟩

/-- The dictionary is a part of two allocations, one for each array. -/
theorem terminalAlloc_part (n : Nat) (w : World) (rest : List Allocation) :
    ∃ done t w', terminalAlloc .zero n w = (done, t, w') ∧ t.count = 0 ∧
      PartEnd .terminalRefs .terminalBase (.terminalRefs :: .terminalBase :: rest) rest t.blocks
        w w' done := by
  unfold terminalAlloc
  rcases malloc_spends w (n * 2) .terminalRefs (.terminalBase :: rest) with
    ⟨w', hm, hspends, hrefused⟩ | ⟨b, w', hm, hspends, hnext⟩
  · rw [hm]
    exact ⟨_, _, _, rfl, rfl, .first (hspends.gives (terminalsFree_spends _ w')) rfl hrefused⟩
  rw [hm]
  dsimp only
  rcases malloc_spends w' (n * 16) .terminalBase rest with
    ⟨w'', hm', hspends', hrefused⟩ | ⟨r, w'', hm', hspends', hnext'⟩
  · rw [hm']
    exact ⟨_, _, _, rfl, rfl, .second b.id ((hspends.trans hspends').gives
      (terminalsFree_spends _ w'')) rfl (hnext.trans hrefused)⟩
  · rw [hm']
    exact ⟨_, _, _, rfl, rfl, .whole [b.id, r.id] (hspends.trans hspends') (.swap _ _ _)
      (hnext.trans hnext')⟩

/-! ## The router -/

/-- What freeing a router frees before the router itself. -/
def Router.owned (r : Router) : List Nat :=
  r.literals.blocks ++ (r.params.blocks ++ (r.terminals.blocks ++ blockId (r.graph.map Ptr.block)))

structure BrokenOff (b : Builder) (router router' : Router) (e : WrouterError) (w w' : World) :
    Prop where
  error : e = .noMemory ∨ e = .outOfRange
  block : router'.block = router.block
  fallback : router'.fallback = router.fallback
  release : router'.release = router.release
  count : router'.terminals.count = 0
  spends : ∃ made gone, Spends made gone w w' ∧
    ((gone = [] ∧ router'.owned.Perm made ∧
        refused (partAllocations b) w.answers ≠ some .symbolRegion ∧
        refused (partAllocations b) w.answers ≠ some .terminalBase) ∨
      (¬ (gone ++ router'.owned).Nodup ∧
        (refused (partAllocations b) w.answers = some .symbolRegion ∨
          refused (partAllocations b) w.answers = some .terminalBase)))

structure Router.Blank (r : Router) : Prop where
  graph : r.graph = none
  literals : r.literals = .zero
  params : r.params = .zero
  terminals : r.terminals = .zero

section Parts

variable {first second : Allocation} {start plan rest : List Allocation}
  {blocks before made : List Nat} {u w w' : World}

/-- A part that breaks off after parts that are whole: what is owned then is what was made, or
is in part given back already. -/
theorem PartEnd.breaks (h : PartEnd first second plan rest blocks w w' false)
    (hmade : Spends made [] u w) (hbefore : before.Perm made)
    (hplan : refused start u.answers = refused plan w.answers) :
    ∃ made gone, Spends made gone u w' ∧
      ((gone = [] ∧ (before ++ blocks).Perm made ∧ refused start u.answers = some first) ∨
        (¬ (gone ++ (before ++ blocks)).Nodup ∧
          refused start u.answers = some second)) := by
  rw [hplan]
  cases h with
  | first hspends hblocks hrefused =>
    subst hblocks
    rw [List.append_nil]
    exact ⟨_, _, hmade.trans hspends, Or.inl ⟨rfl, by simpa using hbefore, hrefused⟩⟩
  | second block hspends hblocks hrefused =>
    subst hblocks
    refine ⟨_, _, hmade.trans hspends, Or.inr ⟨fun hnodup => ?_, hrefused⟩⟩
    exact List.disjoint_of_nodup_append hnodup (a := block) (by simp) (by simp)

/-- A part that was done goes on to the rest of the plan. -/
theorem PartEnd.done (h : PartEnd first second plan rest blocks w w' true)
    (hmade : Spends made [] u w) (hbefore : before.Perm made)
    (hplan : refused start u.answers = refused plan w.answers) :
    ∃ made, Spends made [] u w' ∧ (before ++ blocks).Perm made ∧
      refused start u.answers = refused rest w'.answers := by
  cases h with
  | whole made' hspends hblocks hnext =>
    exact ⟨_, hmade.trans hspends, hbefore.append hblocks, hplan.trans hnext⟩

end Parts

/-- The break as the router shows it. -/
theorem BrokenOff.of_part {b : Builder} {router router' : Router} {w w' : World}
    {first second : Allocation} {owned : List Nat} (hblock : router'.block = router.block)
    (hfallback : router'.fallback = router.fallback) (hrelease : router'.release = router.release)
    (hcount : router'.terminals.count = 0) (howned : router'.owned = owned)
    (hfirst : first ≠ .symbolRegion ∧ first ≠ .terminalBase)
    (hsecond : second = .symbolRegion ∨ second = .terminalBase)
    (h : ∃ made gone, Spends made gone w w' ∧
      ((gone = [] ∧ owned.Perm made ∧ refused (partAllocations b) w.answers = some first) ∨
        (¬ (gone ++ owned).Nodup ∧
          refused (partAllocations b) w.answers = some second))) :
    BrokenOff b router router' .noMemory w w' ∧
      (b.InRange → refused (partAllocations b) w.answers ≠ none) := by
  subst howned
  obtain ⟨made, gone, hspends, ⟨hgone, hperm, hrefused⟩ | ⟨hlen, hrefused⟩⟩ := h
  · refine ⟨⟨Or.inl rfl, hblock, hfallback, hrelease, hcount, made, gone, hspends,
      Or.inl ⟨hgone, hperm, ?_, ?_⟩⟩, fun _ => ?_⟩ <;> rw [hrefused]
    · exact fun he => hfirst.1 (Option.some.inj he)
    · exact fun he => hfirst.2 (Option.some.inj he)
    · exact Option.some_ne_none first
  · refine ⟨⟨Or.inl rfl, hblock, hfallback, hrelease, hcount, made, gone, hspends,
      Or.inr ⟨hlen, ?_⟩⟩, fun _ => ?_⟩ <;> rw [hrefused]
    · exact hsecond.imp (congrArg some) (congrArg some)
    · exact Option.some_ne_none second

/-- The body of the compilation ends whole, or breaks off with the router as far as it got. -/
theorem compileRouter_ends (L : Libc) (b : Builder) {router : Router} (hblank : router.Blank)
    (w : World) :
    let r := compileRouter L b router w
    (r.1 = .ok ∧ b.InRange ∧ refused (partAllocations b) w.answers = none) ∨
      r.1 ≠ .ok ∧ BrokenOff b router r.2.1 r.1 w r.2.2 ∧
        (b.InRange → refused (partAllocations b) w.answers ≠ none) := by
  obtain ⟨block, graph, literals, params, terminals, fallback, maxParams, numRoutes, graphSize,
    retain, release⟩ := router
  obtain ⟨rfl, rfl, rfl, rfl⟩ := hblank
  intro r
  unfold r compileRouter
  dsimp only
  by_cases hrange : b.InRange
  · have hplan : partAllocations b = symbolAllocations b.literals ++
        (symbolAllocations b.params ++ [.terminalRefs, .terminalBase, .graph]) := if_pos hrange
    rw [if_neg hrange]
    obtain ⟨e, literals, w₁, hliterals, he, hpart⟩ := symbolCompile_part L b.literals w
      (symbolAllocations b.params ++ [.terminalRefs, .terminalBase, .graph])
    rw [hliterals]
    dsimp only
    rw [← hplan] at hpart
    by_cases hok : e = .ok
    swap
    · obtain rfl := he.resolve_left hok
      rw [if_pos hok]
      refine Or.inr ⟨hok, BrokenOff.of_part rfl rfl rfl rfl ?_ (by decide) (by decide)
        (hpart.breaks (.refl w) (.refl _) rfl)⟩
      simp [Router.owned]
    subst hok
    obtain ⟨made₁, hmade₁, hperm₁, hnext₁⟩ := hpart.done (.refl w) (.refl _) rfl
    rw [if_neg (by simp)]
    obtain ⟨e, params, w₂, hparams, he, hpart⟩ := symbolCompile_part L b.params w₁
      [.terminalRefs, .terminalBase, .graph]
    rw [hparams]
    dsimp only
    by_cases hok : e = .ok
    swap
    · obtain rfl := he.resolve_left hok
      rw [if_pos hok]
      refine Or.inr ⟨hok, BrokenOff.of_part rfl rfl rfl rfl ?_ (by decide) (by decide)
        (hpart.breaks hmade₁ hperm₁ hnext₁)⟩
      simp [Router.owned]
    subst hok
    obtain ⟨made₂, hmade₂, hperm₂, hnext₂⟩ := hpart.done hmade₁ hperm₁ hnext₁
    rw [if_neg (by simp)]
    obtain ⟨done, terminals, w₃, hterminals, hcount, hpart⟩ := terminalAlloc_part
      (graphStats b.root .zero).terminals w₂ [.graph]
    rw [hterminals]
    dsimp only
    cases done
    · rw [if_pos (by simp)]
      refine Or.inr ⟨by simp, BrokenOff.of_part rfl rfl rfl hcount ?_ (by decide) (by decide)
        (hpart.breaks hmade₂ hperm₂ hnext₂)⟩
      simp [Router.owned]
    obtain ⟨made₃, hmade₃, hperm₃, hnext₃⟩ := hpart.done hmade₂ hperm₂ hnext₂
    rw [if_neg (by simp)]
    rcases malloc_spends w₃ ((graphStats b.root .zero).size * 2) .graph [] with
      ⟨w', hm, hspends, hrefused⟩ | ⟨g, w', hm, hspends, hnext⟩
    · rw [hm]
      have hend : ∃ made gone, Spends made gone w w' ∧
          ((gone = [] ∧ ([] ++ literals.blocks ++ params.blocks ++ terminals.blocks).Perm made ∧
            refused (partAllocations b) w.answers = some .graph) ∨
          (¬ (gone ++ ([] ++ literals.blocks ++ params.blocks ++ terminals.blocks)).Nodup ∧
            refused (partAllocations b) w.answers = some .terminalBase)) :=
        ⟨_, _, hmade₃.trans hspends, Or.inl ⟨rfl, by simpa using hperm₃, hnext₃.trans hrefused⟩⟩
      refine Or.inr ⟨by simp, BrokenOff.of_part rfl rfl rfl hcount ?_ (by decide) (by decide) hend⟩
      simp [Router.owned]
    · rw [hm]
      exact Or.inl ⟨rfl, hrange, hnext₃.trans (hnext.trans rfl)⟩
  · have hplan : partAllocations b = [] := if_neg hrange
    rw [if_pos (not_not.mp hrange), hplan]
    exact Or.inr ⟨by simp, ⟨Or.inr rfl, rfl, rfl, rfl, rfl, [], [], .refl w, Or.inl ⟨rfl, .refl _,
      by simp [hplan, refused], by simp [hplan, refused]⟩⟩, fun h => absurd h hrange⟩

@[simp] theorem retain_allocated (w : World) (installed : Bool) (ctx : Nat) :
    (w.retain installed ctx).allocated = w.allocated := by
  cases installed <;> simp [World.retain, World.allocated, Event.allocated]

@[simp] theorem retain_freed (w : World) (installed : Bool) (ctx : Nat) :
    (w.retain installed ctx).freed = w.freed := by
  cases installed <;> simp [World.retain, World.freed, Event.freed]

@[simp] theorem retain_next (w : World) (installed : Bool) (ctx : Nat) :
    (w.retain installed ctx).next = w.next := by
  cases installed <;> rfl

@[simp] theorem release_allocated (w : World) (installed : Bool) (ctx : Nat) :
    (w.release installed ctx).allocated = w.allocated := by
  cases installed <;> simp [World.release, World.allocated, Event.allocated]

@[simp] theorem release_freed (w : World) (installed : Bool) (ctx : Nat) :
    (w.release installed ctx).freed = w.freed := by
  cases installed <;> simp [World.release, World.freed, Event.freed]

/-- Freeing a router with an empty dictionary, once its fallback is released. -/
theorem wrouterFree_spends {r : Router} (hcount : r.terminals.count = 0) (w : World) :
    Spends [] (r.owned ++ [r.block.id]) (w.release r.release r.fallback.ctx)
      (wrouterFree (some r) w) := by
  unfold wrouterFree Router.owned
  dsimp only
  rw [hcount, List.take_zero, List.foldl_nil]
  have hparts := ((symbolsFree_spends r.literals (w.release r.release r.fallback.ctx)).trans
    ((symbolsFree_spends r.params _).trans ((terminalsFree_spends r.terminals _).trans
      (free_spends _ (r.graph.map Ptr.block)))))
  exact hparts.trans (free_spends _ (some r.block))

/-- What a broken-off compilation leaves once the router is freed. -/
theorem BrokenOff.freed {b : Builder} {block : Block} {router router' : Router} {e : WrouterError}
    {w w₁ w' : World} (hrouter : router.block = block) (hfallback : router.fallback = b.fallback)
    (hrelease : router.release = b.release) (hfirst : Spends [block.id] [] w w₁)
    (h : BrokenOff b router router' e (w₁.retain b.retain b.fallback.ctx) w') :
    ∃ made gone, (wrouterFree (some router') w').allocated = w.allocated ++ block.id :: made ∧
      (wrouterFree (some router') w').freed = w.freed ++ (gone ++ (router'.owned ++ [block.id])) ∧
      (block.id :: made).Nodup ∧
      (wrouterFree (some router') w').callbacks = w.callbacks ++
        ((if b.retain then [.retain b.fallback.ctx] else []) ++
          if b.release then [.release b.fallback.ctx] else []) ∧
      ((gone = [] ∧ router'.owned.Perm made ∧
          refused (partAllocations b) w₁.answers ≠ some .symbolRegion ∧
          refused (partAllocations b) w₁.answers ≠ some .terminalBase) ∨
        (¬ (gone ++ router'.owned).Nodup ∧
          (refused (partAllocations b) w₁.answers = some .symbolRegion ∨
            refused (partAllocations b) w₁.answers = some .terminalBase))) := by
  obtain ⟨made, gone, hspends, hcases⟩ := h.spends
  rw [retain_answers] at hcases
  have hfree := wrouterFree_spends h.count w'
  rw [h.block, hrouter, h.release, hrelease, h.fallback, hfallback] at hfree
  refine ⟨made, gone, ?_, ?_, ?_, ?_, hcases⟩
  · rw [hfree.allocated, release_allocated, hspends.allocated, retain_allocated, hfirst.allocated]
    simp
  · rw [hfree.freed, release_freed, hspends.freed, retain_freed, hfirst.freed]
    simp
  · have hids : block.id :: made = List.range' w.next (made.length + 1) := by
      have hblock : [block.id] = List.range' w.next 1 := hfirst.fresh
      have hmade := hspends.fresh
      rw [retain_next, hfirst.next] at hmade
      rw [Nat.add_comm, ← List.range'_append_1, ← hblock, List.singleton_append]
      exact congrArg _ hmade
    rw [hids]
    exact List.nodup_range'
  · rw [hfree.callbacks, release_callbacks, hspends.callbacks, retain_callbacks, hfirst.callbacks,
      List.append_assoc]

/-- The fallback's context is all that was retained and released. -/
theorem balanced_iff {w w' : World} {retain release : Bool} {ctx : Nat}
    (h : w'.callbacks = w.callbacks ++ ((if retain then [.retain ctx] else []) ++
      if release then [.release ctx] else [])) :
    (retain = true → ∀ c, w'.retains c + w.releases c = w'.releases c + w.retains c) ↔
      (retain = true → release = true) := by
  unfold World.retains World.releases
  rw [h]
  cases retain
  · simp
  cases release
  · simp only [if_true, forall_const, List.count_append]
    refine iff_of_false (fun hall => ?_) (by simp)
    have := hall ctx
    simp at this
    omega
  · simp only [if_true, forall_const, List.count_append, iff_true]
    intro c
    by_cases hc : ctx = c
    · subst hc
      simp
      omega
    · simp [hc]
      omega

theorem refused_mem {plan : List Allocation} {answers : List (Option Nat)} {a : Allocation}
    (h : refused plan answers = some a) : a ∈ plan := by
  induction plan generalizing answers with
  | nil => cases answers <;> simp [refused] at h
  | cons a' plan ih =>
    rw [refused_cons] at h
    split at h
    · exact List.mem_cons.mpr (Or.inl (Option.some.inj h).symm)
    · exact List.mem_cons_of_mem _ (ih h)

theorem router_not_part (b : Builder) (answers : List (Option Nat)) :
    refused (partAllocations b) answers ≠ some .router := by
  intro h
  have hmem := refused_mem h
  unfold partAllocations symbolAllocations at hmem
  split_ifs at hmem <;> simp at hmem

/-- The trace decides it: the blocks are those in the trace, and balance is a matter of the
fallback alone. -/
theorem cleanedUp_iff {w w' : World} {retain release : Bool} {ctx : Nat} {made gone : List Nat}
    (hmade : w'.allocated = w.allocated ++ made) (hgone : w'.freed = w.freed ++ gone)
    (hnodup : made.Nodup)
    (h : w'.callbacks = w.callbacks ++ ((if retain then [.retain ctx] else []) ++
      if release then [.release ctx] else [])) :
    CleanedUp retain w w' ↔ gone.Perm made ∧ (retain = true → release = true) := by
  constructor
  · rintro ⟨⟨made', gone', hmade', hgone', -, hperm⟩, hcallbacks⟩
    obtain rfl := List.append_cancel_left (hmade.symm.trans hmade')
    obtain rfl := List.append_cancel_left (hgone.symm.trans hgone')
    exact ⟨hperm, (balanced_iff h).mp hcallbacks⟩
  · rintro ⟨hperm, hcallbacks⟩
    exact ⟨⟨made, gone, hmade, hgone, hperm.nodup_iff.mpr hnodup, hperm⟩,
      (balanced_iff h).mpr hcallbacks⟩

/-- A failed compilation cleans up after itself exactly when it comes to no second allocation of
a part, and the fallback's context can be released. -/
theorem failed_compile_clean (L : Libc) {b : Builder} (hlive : b.corrupted = false) (w : World) :
    (∀ e w', wrouterCompile L (some b) w = (none, e, w') → e = .noMemory ∨ e = .outOfRange →
      CleanedUp b.retain w w') ↔ CleansUp b w.answers := by
  unfold wrouterCompile CleansUp
  dsimp only
  rw [hlive, if_neg Bool.false_ne_true]
  rcases malloc_spends w 1 .router (partAllocations b) with
    ⟨w₁, hm, hspends, hrefused⟩ | ⟨block, w₁, hm, hspends, hnext⟩
  · -- nothing was allocated and nothing retained
    rw [hm, allocations, hrefused]
    refine iff_of_true ?_ ⟨by simp, by simp, fun _ => Or.inr (Or.inl rfl)⟩
    rintro e w' he -
    obtain ⟨-, rfl⟩ := Prod.mk.inj (Prod.mk.inj he).2
    refine ⟨⟨[], [], hspends.allocated, hspends.freed, List.nodup_nil, .refl _⟩, fun _ ctx => ?_⟩
    rw [World.retains, World.releases, World.releases, wrouterFree, hspends.callbacks]
    exact Nat.add_comm _ _
  rw [hm, allocations, hnext]
  dsimp only
  have hblank : Router.Blank ⟨block, none, .zero, .zero, .zero, b.fallback, 0, 0, 0, b.retain,
    b.release⟩ := ⟨rfl, rfl, rfl, rfl⟩
  have hend := compileRouter_ends L b hblank (w₁.retain b.retain b.fallback.ctx)
  generalize compileRouter L b _ _ = r at hend
  dsimp only at hend
  rw [retain_answers] at hend
  obtain ⟨hok, hrange, hrefused⟩ | ⟨hne, hbroken, hnone⟩ := hend
  · -- a router is returned
    rw [if_neg (not_not.mpr hok), hrefused]
    refine iff_of_true ?_ ⟨by simp, by simp, fun _ => Or.inr (Or.inr ⟨rfl, hrange⟩)⟩
    rintro e w' he -
    exact absurd (Prod.mk.inj he).1 (Option.some_ne_none _)
  rw [if_pos hne]
  obtain ⟨made, gone, hmade, hgone, hnodup, hcallbacks, hcases⟩ :=
    hbroken.freed (b := b) rfl rfl rfl hspends
  have hclean := cleanedUp_iff hmade hgone hnodup hcallbacks
  -- a part that broke off did so after the router, and not after the last allocation
  have hlast : (b.retain = true → b.release = true ∨
      refused (partAllocations b) w₁.answers = some .router ∨
      refused (partAllocations b) w₁.answers = none ∧ b.InRange) ↔
        (b.retain = true → b.release = true) :=
    imp_congr_right fun _ => or_iff_left fun h => h.elim (router_not_part b _)
      fun h => hnone h.2 h.1
  have hcall : (∀ e w', (none, r.1, wrouterFree (some r.2.1) r.2.2) =
      ((none : Option Router), e, w') → e = .noMemory ∨ e = .outOfRange → CleanedUp b.retain w w') ↔
        CleanedUp b.retain w (wrouterFree (some r.2.1) r.2.2) := by
    refine ⟨fun h => h _ _ rfl hbroken.error, ?_⟩
    rintro h e w' he -
    obtain ⟨-, rfl⟩ := Prod.mk.inj (Prod.mk.inj he).2
    exact h
  rw [hcall, hclean, hlast, ← and_assoc]
  refine and_congr_left fun _ => ?_
  obtain ⟨rfl, hperm, hplan⟩ | ⟨htwice, hplan⟩ := hcases
  · exact iff_of_true ((List.perm_append_singleton _ _).trans (hperm.cons _)) hplan
  · refine iff_of_false (fun hperm => ?_) fun h => hplan.elim h.1 h.2
    have hall := hperm.nodup_iff.mpr hnodup
    rw [← List.append_assoc] at hall
    exact htwice (List.nodup_append.mp hall).1

/-- Seven allocations and no graph: all seven are given back, and the fallback's context. -/
theorem failed_compile_clean_graph : ∃ b w,
    buildRoutes countingOptions [(ascii "/a/:x", ⟨0, 1⟩)] .empty = some (b, w) ∧
      (wrouterCompile .reference (some b)
        { w with answers := List.replicate 7 (some 0) ++ [none] }).1 = none ∧
      CleanedUp true { w with answers := List.replicate 7 (some 0) ++ [none] }
        (wrouterCompile .reference (some b)
          { w with answers := List.replicate 7 (some 0) ++ [none] }).2.2 := by
  have hbuilt : (buildRoutes countingOptions [(ascii "/a/:x", ⟨0, 1⟩)] .empty).any fun r =>
      let c := wrouterCompile .reference (some r.1)
        { r.2 with answers := List.replicate 7 (some 0) ++ [none] }
      decide (r.1.corrupted = false ∧ r.1.retain = true ∧
        CleansUp r.1 (List.replicate 7 (some 0) ++ [none]) ∧ c.1 = none ∧ c.2.1 = .noMemory) := by
    decide +kernel
  obtain ⟨⟨b, w⟩, hb, hfacts⟩ := (Option.any_eq_true _ _).mp hbuilt
  obtain ⟨hlive, hretain, hcleans, hrouter, herr⟩ := of_decide_eq_true hfacts
  refine ⟨b, w, hb, hrouter, ?_⟩
  rw [← hretain]
  exact (failed_compile_clean .reference hlive _).mpr hcleans _ _
    (Prod.ext hrouter (Prod.ext herr rfl)) (Or.inl rfl)

/-- No memory for the strings of the literals: their array is given back twice. -/
theorem region_refused : ∃ b w,
    buildRoutes plainOptions [(ascii "/a", ⟨0, 1⟩)] .empty = some (b, w) ∧ w.freed = [] ∧
      ∃ w', wrouterCompile .reference (some b) { w with answers := [some 0, some 0, none] } =
          (none, .noMemory, w') ∧
        w'.allocated = w.allocated ++ [7, 8] ∧ w'.freed = [8, 8, 7] ∧
        ¬ CleanedUp b.retain { w with answers := [some 0, some 0, none] } w' := by
  have hbuilt : (buildRoutes plainOptions [(ascii "/a", ⟨0, 1⟩)] .empty).any fun r =>
      let c := wrouterCompile .reference (some r.1)
        { r.2 with answers := [some 0, some 0, none] }
      decide (r.2.freed = [] ∧ c.1 = none ∧ c.2.1 = .noMemory ∧
        c.2.2.allocated = r.2.allocated ++ [7, 8] ∧ c.2.2.freed = [8, 8, 7]) := by
    decide +kernel
  obtain ⟨⟨b, w⟩, hb, hfacts⟩ := (Option.any_eq_true _ _).mp hbuilt
  obtain ⟨hnone, hrouter, herr, hallocated, hfreed⟩ := of_decide_eq_true hfacts
  refine ⟨b, w, hb, hnone, _, Prod.ext hrouter (Prod.ext herr rfl), hallocated, hfreed, ?_⟩
  rintro ⟨⟨made, gone, -, hgone, hnodup, -⟩, -⟩
  have hstart : World.freed { w with answers := [some 0, some 0, none] } = [] := hnone
  rw [hstart, List.nil_append] at hgone
  rw [hgone.symm.trans hfreed] at hnodup
  exact absurd hnodup (by decide)

end Wrouter
