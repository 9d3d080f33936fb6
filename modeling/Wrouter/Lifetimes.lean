import Wrouter.Holdings
import Wrouter.Lib.Runs
import Wrouter.Service

/-!
# Blocks over the life of a program

A program makes a builder, routers, dispatchers and snapshots and frees them, in any order.
Whatever the allocator refuses meanwhile, every block is with one of them or was given back once.
-/
namespace Wrouter

open CLib Ownership Runs

/-! ## Dispatchers and the last of the builder -/

structure HeapDispatcher where
  block : Block
  data : Dispatcher

def heapDispatcherCreate (router : Router) (w : World) : Option HeapDispatcher × World :=
  match w.malloc 1 with
  | (none, w) => (none, w)
  | (some b, w) =>
    if router.maxParams ≠ 0 then
      match paramsAlloc .zero router.maxParams w with
      | (false, _, w) => (none, w.free (some b))
      | (true, params, w) => (some ⟨b, router, .zero, params⟩, w)
    else (some ⟨b, router, .zero, .zero⟩, w)

def paramsFree (params : Params) (w : World) : World := w.free params.base

def wrouterDispatcherFree (dispatcher : Option HeapDispatcher) (w : World) : World :=
  match dispatcher with
  | none => w
  | some d => (paramsFree d.data.params w).free (some d.block)

/-- Compile and destroy the builder, whatever the compilation returned. -/
def wrouterConsume (L : Libc) (builder : Option HeapBuilder) (w : World) :
    Option (Option Router × WrouterError × World) :=
  match builder with
  | none => some (none, .nullArgument, w)
  | some b =>
    let r := wrouterCompile L (some b.erase) w
    (heapBuilderFree b r.2.2).map fun w => (r.1, r.2.1, w)

theorem heapDispatcherCreate_erase (router : Router) (w : World) :
    wrouterDispatcherCreate router w =
      ((heapDispatcherCreate router w).1.map HeapDispatcher.data,
        (heapDispatcherCreate router w).2) := by
  unfold wrouterDispatcherCreate heapDispatcherCreate
  rcases w.malloc 1 with ⟨_ | b, w₁⟩
  · rfl
  dsimp only
  split
  · rcases paramsAlloc .zero router.maxParams w₁ with ⟨_ | _, params, w₂⟩ <;> rfl
  · rfl

/-! ## A program -/

/-- What a program holds. A handle is the number of what it stands for, with a hole once that was
freed; a dispatcher also knows its router's. -/
structure Program where
  builder : Option HeapBuilder
  routers : List (Option Router)
  dispatchers : List (Option (HeapDispatcher × Nat))
  snapshots : List (Option Snapshot)
  world : World

inductive ProgramCall where
  | addRoute (pattern : Option Bytes) (route : Route)
  | compile
  | consume
  | builderFree
  | routerFree (router : Nat)
  | dispatcherCreate (router : Nat)
  | resolve (dispatcher : Nat) (path : Bytes)
  | dispatcherFree (dispatcher : Nat)
  | paramsCopy (dispatcher : Nat)
  | snapshotFree (snapshot : Nat)
  deriving DecidableEq, Repr

/-- One call, whatever it returns; none where it follows a null pointer, uses what was freed or
leaves a buffer. -/
def Program.call (L : Libc) (call : ProgramCall) (p : Program) : Option Program :=
  match call with
  | .addRoute pattern route => p.builder.map fun b =>
    let r := heapAddRoute b pattern route p.world
    { p with builder := some r.2.1, world := r.2.2 }
  | .compile =>
    let r := wrouterCompile L (p.builder.map HeapBuilder.erase) p.world
    some { p with routers := p.routers ++ r.1.toList.map some, world := r.2.2 }
  | .consume => (wrouterConsume L p.builder p.world).map fun r =>
    { p with builder := none, routers := p.routers ++ r.1.toList.map some, world := r.2.2 }
  | .builderFree =>
    match p.builder with
    | none => some p
    | some b => (heapBuilderFree b p.world).map fun w => { p with builder := none, world := w }
  | .routerFree i => (live p.routers i).map fun router =>
    { p with routers := p.routers.set i none, world := wrouterFree (some router) p.world }
  | .dispatcherCreate i => (live p.routers i).map fun router =>
    let r := heapDispatcherCreate router p.world
    { p with dispatchers := p.dispatchers ++ (r.1.map fun d => (d, i)).toList.map some, world := r.2 }
  | .resolve j path => do
    let (d, i) ← live p.dispatchers j
    let _ ← live p.routers i
    let (_, data) ← wrouterResolve L d.data path
    some { p with dispatchers := p.dispatchers.set j (some (⟨d.block, data⟩, i)) }
  | .dispatcherFree j => (live p.dispatchers j).map fun d =>
    { p with
      dispatchers := p.dispatchers.set j none, world := wrouterDispatcherFree (some d.1) p.world }
  | .paramsCopy j => do
    let (d, i) ← live p.dispatchers j
    let _ ← live p.routers i
    let (snapshot, w) ← wrouterParamsCopy (some d.data.params) p.world
    some { p with snapshots := p.snapshots ++ snapshot.toList.map some, world := w }
  | .snapshotFree k => (live p.snapshots k).map fun snapshot =>
    { p with
      snapshots := p.snapshots.set k none, world := wrouterSnapshotFree (some snapshot) p.world }

/-- Not at the second allocation of a part: what the part freed there is freed again. -/
def FreesOnce (b : Builder) (answers : List (Option Nat)) : Prop :=
  refused (allocations b) answers ≠ some .symbolRegion ∧
    refused (allocations b) answers ≠ some .terminalBase

instance (b : Builder) (answers : List (Option Nat)) : Decidable (FreesOnce b answers) :=
  inferInstanceAs (Decidable (_ ∧ _))

/-- Compiling the builder would free nothing twice. -/
def Program.compilesOnce (p : Program) : Bool :=
  p.builder.all fun b => b.erase.corrupted || decide (FreesOnce b.erase p.world.answers)

def Program.freesOnce (call : ProgramCall) (p : Program) : Bool :=
  match call with
  | .compile | .consume => p.compilesOnce
  | _ => true

/-! ## What the objects own -/

def Router.blocks (r : Router) : Multiset Nat := (r.owned : Multiset Nat) + {r.block.id}

def HeapDispatcher.owned (d : HeapDispatcher) : Multiset Nat :=
  owns d.data.params.base + {d.block.id}

def Snapshot.owned (s : Snapshot) : Multiset Nat :=
  owns (s.params.base.map Ptr.block) + owns (s.region.map Ptr.block) + {s.block.id}

def Program.owned (p : Program) : Multiset Nat :=
  p.builder.elim 0 HeapBuilder.owned + ownedBy Router.blocks p.routers +
    ownedBy (fun d => d.1.owned) p.dispatchers + ownedBy Snapshot.owned p.snapshots

theorem Spends.turns_made {made : List Nat} {w w' : World} (h : Spends made [] w w') :
    Turns w.ledger 0 w'.ledger made := by
  have hledger : w'.ledger = ⟨w.ledger.next + made.length,
      (List.range' w.ledger.next made.length : Multiset Nat) + w.ledger.made, w.ledger.gone⟩ := by
    have hfresh : List.range' w.ledger.next made.length = made := h.fresh.symm
    rw [World.ledger, h.next, h.allocated, h.freed, List.append_nil, hfresh, ← Multiset.coe_add,
      add_comm (w.allocated : Multiset Nat)]
    rfl
  have hturns := turns_allocs w.ledger made.length
  rw [← hledger] at hturns
  exact hturns.congr rfl (congrArg _ h.fresh.symm)

theorem Spends.turns_gone {gone : List Nat} {w w' : World} (h : Spends [] gone w w') :
    Turns w.ledger gone w'.ledger 0 := by
  have hledger : w'.ledger = ⟨w.ledger.next, w.ledger.made, (gone : Multiset Nat) + w.ledger.gone⟩ := by
    rw [World.ledger, h.next, h.allocated, h.freed, List.append_nil, ← Multiset.coe_add,
      add_comm (w.freed : Multiset Nat)]
    rfl
  rw [hledger]
  exact turns_frees w.ledger gone

/-- A part that is done owns its blocks. -/
theorem PartEnd.turns {first second : Allocation} {plan rest : List Allocation} {blocks : List Nat}
    {w w' : World} (h : PartEnd first second plan rest blocks w w' true) :
    Turns w.ledger 0 w'.ledger blocks := by
  cases h with
  | whole made hspends hperm _ =>
    exact hspends.turns_made.congr rfl (Multiset.coe_eq_coe.mpr hperm.symm)

theorem PartEnd.keeps {first second : Allocation} {plan rest : List Allocation} {blocks : List Nat}
    {w w' : World} (h : PartEnd first second plan rest blocks w w' true) : w'.freed = w.freed := by
  cases h with
  | whole made hspends _ _ => rw [hspends.freed, List.append_nil]

/-! ## Compiling -/

structure SameBlocks (e e' : Emit) : Prop where
  ledger : e'.world.ledger = e.world.ledger
  terminals : e'.terminals.blocks = e.terminals.blocks

theorem SameBlocks.refl (e : Emit) : SameBlocks e e := ⟨rfl, rfl⟩

theorem SameBlocks.trans {e e' e'' : Emit} (h : SameBlocks e e') (h' : SameBlocks e' e'') :
    SameBlocks e e'' :=
  ⟨h'.ledger.trans h.ledger, h'.terminals.trans h.terminals⟩

section Graph

variable (L : Libc) (literals params : Symbols) (retain : Bool)

theorem SameBlocks.terminate {e e' : Emit} (h : SameBlocks e e') (ref : Nat) (route : Route) :
    SameBlocks e (e'.terminate retain ref route) := by
  refine h.trans ⟨retain_ledger _ _ _, ?_⟩
  simp [Emit.terminate, terminalAppend, Terminals.blocks, Option.map_map, Function.comp_def]

theorem node_blocks (e : Emit) (n : Nat) (terminal : Option Route) :
    SameBlocks e (e.node retain n terminal) := by
  cases terminal with
  | none => exact ⟨rfl, rfl⟩
  | some route =>
    refine SameBlocks.terminate retain ?_ _ route
    exact ⟨rfl, rfl⟩

theorem specialEdge_blocks (e : Emit) (i : Nat) (sp : Special Segment) :
    SameBlocks e (e.specialEdge L params i sp) := by
  cases sp <;> exact ⟨rfl, rfl⟩

theorem trailingEdge_blocks (e : Emit) (i : Nat) (trailing : Option Route) :
    SameBlocks e (e.trailingEdge i trailing) := by
  unfold Emit.trailingEdge
  split <;> exact ⟨rfl, rfl⟩

theorem trailingNode_blocks (e : Emit) (i : Nat) (trailing : Option Route) :
    SameBlocks e (e.trailingNode retain i trailing) := by
  cases trailing with
  | none => exact .refl e
  | some route =>
    refine SameBlocks.terminate retain ?_ _ route
    exact ⟨rfl, rfl⟩

theorem emitSymbols_blocks (l : List Segment) (e : Emit) :
    SameBlocks e (emitSymbols L literals l e) := by
  induction l generalizing e with
  | nil => exact .refl e
  | cons c l ih =>
    rw [emitSymbols]
    have hrest := ih ((e.advance 2).set e.cur (symbolResolve L literals (c.str.getD [])))
    exact ⟨hrest.ledger, hrest.terminals⟩

mutual
theorem graphCompile_blocks : ∀ (s : Segment) (e : Emit),
    SameBlocks e (graphCompile L literals params retain s e).2
  | ⟨_, children, _, terminal, trailing, special, childCount, _⟩, e => by
    rw [graphCompile]
    dsimp only
    have hnode := node_blocks retain e childCount terminal
    have hspecial := hnode.trans (specialEdge_blocks L params _ e.cur special)
    have htrailing := hspecial.trans (trailingEdge_blocks _ e.cur trailing)
    refine SameBlocks.trans ?_ (trailingNode_blocks retain _ _ trailing)
    refine SameBlocks.trans ?_ (graphCompileSpecial_blocks special _ _)
    split
    · refine SameBlocks.trans (htrailing.trans (emitSymbols_blocks L literals children _)) ?_
      exact ⟨(graphCompileChildren_blocks children _ _).ledger,
        (graphCompileChildren_blocks children _ _).terminals⟩
    · exact htrailing

theorem graphCompileSpecial_blocks : ∀ (special : Special Segment) (edge : Nat) (e : Emit),
    SameBlocks e (graphCompileSpecial L literals params retain special edge e)
  | .param p, edge, e => by
    rw [graphCompileSpecial]
    have hp := graphCompile_blocks p e
    exact ⟨hp.ledger, hp.terminals⟩
  | .wildcard route, _, e => by
    rw [graphCompileSpecial]
    refine SameBlocks.terminate retain ?_ _ route
    exact ⟨rfl, rfl⟩
  | .wildcardNull, _, e => .refl e
  | .paramNull, _, e => .refl e
  | .none, _, e => .refl e

theorem graphCompileChildren_blocks : ∀ (children : List Segment) (slot : Nat) (e : Emit),
    SameBlocks e (graphCompileChildren L literals params retain children slot e)
  | [], _, e => .refl e
  | child :: rest, slot, e => by
    rw [graphCompileChildren]
    have hchild := graphCompile_blocks child e
    have hset : SameBlocks e ((graphCompile L literals params retain child e).2.set (slot + 1)
      (graphCompile L literals params retain child e).1) := ⟨hchild.ledger, hchild.terminals⟩
    exact hset.trans (graphCompileChildren_blocks rest _ _)
end

end Graph

/-- A symbol list that was compiled had both of its allocations. -/
theorem symbolCompile_done {L : Libc} {tbl : SymbolTable} {w w' : World} {sym : Symbols}
    (h : symbolCompile L tbl w = (.ok, sym, w')) :
    PartEnd .symbolBase .symbolRegion (symbolAllocations tbl ++ []) [] sym.blocks w w' true := by
  obtain ⟨e, sym', w'', heq, -, hpart⟩ := symbolCompile_part L tbl w []
  rw [h] at heq
  simp only [Prod.mk.injEq] at heq
  obtain ⟨rfl, rfl, rfl⟩ := heq
  exact hpart

theorem terminalAlloc_done {n : Nat} {w w' : World} {t : Terminals}
    (h : terminalAlloc .zero n w = (true, t, w')) :
    PartEnd .terminalRefs .terminalBase [.terminalRefs, .terminalBase] [] t.blocks w w' true := by
  obtain ⟨done, t', w'', heq, -, hpart⟩ := terminalAlloc_part n w []
  rw [h] at heq
  simp only [Prod.mk.injEq] at heq
  obtain ⟨rfl, rfl, rfl⟩ := heq
  exact hpart

/-- A compilation that comes to its end: it only took blocks. -/
theorem compileRouter_turns (L : Libc) (b : Builder) {router : Router} (hblank : router.Blank)
    {w : World} (hok : (compileRouter L b router w).1 = .ok) :
    let r := compileRouter L b router w
    Turns w.ledger 0 r.2.2.ledger r.2.1.owned ∧ r.2.1.block = router.block ∧
      r.2.2.ledger.gone = w.ledger.gone := by
  obtain ⟨block, graph, literals, params, terminals, fallback, maxParams, numRoutes, graphSize,
    retain, release⟩ := router
  obtain ⟨rfl, rfl, rfl, rfl⟩ := hblank
  intro r
  unfold r
  unfold compileRouter at hok ⊢
  dsimp only at hok ⊢
  split
  · rename_i hrange
    rw [if_pos hrange] at hok
    simp at hok
  rename_i hrange
  rw [if_neg hrange] at hok
  rcases hliterals : symbolCompile L b.literals w with ⟨e₁, literals, w₁⟩
  rw [hliterals] at hok
  dsimp only at hok ⊢
  split
  · rename_i hne
    rw [if_pos hne] at hok
    exact absurd hok hne
  rename_i he₁
  obtain rfl := not_not.mp he₁
  rw [if_neg he₁] at hok
  rcases hparams : symbolCompile L b.params w₁ with ⟨e₂, params, w₂⟩
  rw [hparams] at hok
  dsimp only at hok ⊢
  split
  · rename_i hne
    rw [if_pos hne] at hok
    exact absurd hok hne
  rename_i he₂
  obtain rfl := not_not.mp he₂
  rw [if_neg he₂] at hok
  rcases hterminals : terminalAlloc .zero (graphStats b.root .zero).terminals w₂ with
    ⟨_ | _, terminals, w₃⟩
  · rw [hterminals] at hok
    simp at hok
  rw [hterminals] at hok
  rw [if_neg (by simp)] at hok ⊢
  rcases hgraph : w₃.malloc ((graphStats b.root .zero).size * 2) with ⟨_ | g, w₄⟩
  · rw [hgraph] at hok
    simp at hok
  have hliterals := symbolCompile_done hliterals
  have hparams := symbolCompile_done hparams
  have hterminals := terminalAlloc_done hterminals
  have hparts := ((hliterals.turns.seq hparams.turns).seq hterminals.turns).seq (malloc_turns hgraph)
  have hfreed : w₄.freed = w.freed := by
    rw [World.freed, (malloc_fresh hgraph).2.2, List.filterMap_append, ← World.freed,
      hterminals.keeps, hparams.keeps, hliterals.keeps]
    exact List.append_nil _
  dsimp only
  have hsame := graphCompile_blocks L literals params retain b.root
    ⟨List.replicate (graphStats b.root .zero).size 0, terminals, 0, w₄⟩
  unfold compileGraph
  rw [hsame.ledger]
  refine ⟨?_, rfl, congrArg (fun l : List Nat => (l : Multiset Nat)) hfreed⟩
  rw [Router.owned]
  dsimp only
  rw [hsame.terminals]
  refine hparts.congr (by simp) ?_
  simp only [Option.map_some, ← Multiset.coe_add, owns]
  abel

theorem releaseRoutes_ledger (routes : List Route) (installed : Bool) (w : World) :
    (routes.foldl (fun w route => w.release installed route.ctx) w).ledger = w.ledger := by
  induction routes generalizing w with
  | nil => rfl
  | cons route routes ih => rw [List.foldl_cons, ih, release_ledger]

/-- Freeing a router gives back each of its blocks once. -/
theorem wrouterFree_turns (r : Router) (w : World) :
    Turns w.ledger r.blocks (wrouterFree (some r) w).ledger 0 := by
  unfold wrouterFree Router.blocks Router.owned
  dsimp only
  generalize hstart : (r.terminals.baseData.take r.terminals.count).foldl
    (fun w route => w.release r.release route.ctx) (w.release r.release r.fallback.ctx) = v
  have hledger : v.ledger = w.ledger := by rw [← hstart, releaseRoutes_ledger, release_ledger]
  rw [← hledger]
  have hparts := (((symbolsFree_spends r.literals v).turns_gone.seq
    (symbolsFree_spends r.params _).turns_gone).seq (terminalsFree_spends r.terminals _).turns_gone)
  have hgraph := free_after (b := r.graph.map Ptr.block) (hparts.congr rfl (by simp))
  refine (free_after (b := some r.block) hgraph).congr ?_ rfl
  simp only [← Multiset.coe_add, owns]
  abel

/-- A compilation that broke off, once its router is freed. -/
theorem BrokenOff.turns {b : Builder} {router router' : Router} {e : WrouterError} {w w' : World}
    (h : BrokenOff b router router' e w w')
    (honce : refused (partAllocations b) w.answers ≠ some .symbolRegion ∧
      refused (partAllocations b) w.answers ≠ some .terminalBase) :
    Turns w.ledger {router.block.id} (wrouterFree (some router') w').ledger 0 := by
  obtain ⟨made, gone, hspends, ⟨rfl, hperm, -⟩ | ⟨-, htwice⟩⟩ := h.spends
  · have hmade := hspends.turns_made.frame {router.block.id}
    have hfree := wrouterFree_turns router' w'
    rw [Router.blocks, h.block, Multiset.coe_eq_coe.mpr hperm] at hfree
    exact (hmade.congr (zero_add _) rfl).trans hfree
  · exact absurd htwice (not_or.mpr honce)

/-- A compilation makes a router or leaves nothing. -/
theorem wrouterCompile_turns (L : Libc) (b : Builder) (w : World)
    (h : b.corrupted = true ∨ FreesOnce b w.answers) :
    let r := wrouterCompile L (some b) w
    Turns w.ledger 0 r.2.2.ledger (r.1.elim 0 Router.blocks) := by
  intro r
  unfold r wrouterCompile
  dsimp only
  split
  · exact .refl _ _
  rename_i hlive
  have honce : FreesOnce b w.answers := h.resolve_left hlive
  obtain ⟨hnone, hanswers⟩ := malloc_refused w 1
  rcases hblock : w.malloc 1 with ⟨_ | block, w₁⟩
  · exact malloc_turns hblock
  have hfirst := malloc_turns hblock
  rw [hblock] at hnone hanswers
  rw [FreesOnce, allocations, refused_cons, if_neg fun hrefused => Option.some_ne_none block
    (hnone.mpr hrefused), ← hanswers, ← retain_answers w₁ b.retain b.fallback.ctx] at honce
  rw [← retain_ledger w₁ b.retain b.fallback.ctx] at hfirst
  have hblank : Router.Blank ⟨block, none, .zero, .zero, .zero, b.fallback, 0, 0, 0, b.retain,
    b.release⟩ := ⟨rfl, rfl, rfl, rfl⟩
  dsimp only
  split
  · rename_i hfail
    rcases compileRouter_ends L b hblank (w₁.retain b.retain b.fallback.ctx) with
      ⟨hok, -⟩ | ⟨-, hbroken, -⟩
    · exact absurd hok hfail
    · exact hfirst.trans (hbroken.turns honce)
  · rename_i hok
    obtain ⟨hturns, hsame, -⟩ := compileRouter_turns L b hblank (not_not.mp hok)
    refine (hfirst.seq hturns).congr (add_zero _) ?_
    rw [Option.elim_some, Router.blocks, hsame, owns_some, add_comm]

/-- A block was freed twice on the way from one world to the other. -/
def freesTwice (w w' : World) : Bool := !decide (w'.freed.drop w.freed.length).Nodup

/-- Compiling this builder would. -/
def FreesAgain (b : Builder) (answers : List (Option Nat)) : Prop :=
  b.corrupted = false ∧ ¬ FreesOnce b answers

/-- A block is freed twice where the freed ones repeat. -/
theorem freesTwice_append {w w' : World} {gone : List Nat} (h : w'.freed = w.freed ++ gone) :
    freesTwice w w' = true ↔ ¬ gone.Nodup := by
  rw [freesTwice, h, List.drop_left]
  simp

/-- A compilation frees a block twice where it breaks off at the second allocation of a part. -/
theorem wrouterCompile_freesTwice (L : Libc) (b : Builder) (w : World) :
    freesTwice w (wrouterCompile L (some b) w).2.2 = true ↔ FreesAgain b w.answers := by
  have hnone {w' : World} (h : w'.freed.length = w.freed.length) : freesTwice w w' = false := by
    rw [freesTwice, ← h, List.drop_length]
    rfl
  unfold wrouterCompile
  dsimp only
  split
  · rename_i hcorrupted
    rw [hnone rfl, FreesAgain, hcorrupted]
    simp
  rename_i hlive
  rw [Bool.not_eq_true] at hlive
  rw [FreesAgain, hlive, FreesOnce]
  rcases malloc_spends w 1 .router (partAllocations b) with
    ⟨w₁, hm, hspends, hrefused⟩ | ⟨block, w₁, hm, hspends, hnext⟩
  · rw [hm, allocations, hrefused]
    have hlen : (wrouterFree none w₁).freed.length = w.freed.length := by
      rw [wrouterFree, hspends.freed, List.append_nil]
    rw [hnone hlen]
    simp
  rw [hm, allocations, hnext]
  dsimp only
  have hblank : Router.Blank ⟨block, none, .zero, .zero, .zero, b.fallback, 0, 0, 0, b.retain,
    b.release⟩ := ⟨rfl, rfl, rfl, rfl⟩
  have hend := compileRouter_ends L b hblank (w₁.retain b.retain b.fallback.ctx)
  have hwhole := compileRouter_turns L b hblank (w := w₁.retain b.retain b.fallback.ctx)
  generalize compileRouter L b _ _ = r at hend hwhole
  dsimp only at hend hwhole
  rw [retain_answers] at hend
  obtain ⟨hok, hrange, hrefused⟩ | ⟨hne, hbroken, -⟩ := hend
  · rw [if_neg (not_not.mpr hok), hrefused]
    have hlen := congrArg Multiset.card (hwhole hok).2.2
    rw [World.ledger, World.ledger, Multiset.coe_card, Multiset.coe_card, retain_freed,
      hspends.freed, List.append_nil] at hlen
    rw [hnone hlen]
    simp
  rw [if_pos hne]
  obtain ⟨made, gone, -, hgone, hnodup, -, hcases⟩ := hbroken.freed (b := b) rfl rfl rfl hspends
  rw [freesTwice_append hgone]
  obtain ⟨rfl, hperm, hplan⟩ | ⟨htwice, hplan⟩ := hcases
  · have hall := (List.perm_append_singleton block.id r.2.1.owned).trans (hperm.cons _)
    exact iff_of_false (not_not.mpr (hall.nodup_iff.mpr hnodup)) fun h => h.2 hplan
  · refine iff_of_true (fun hall => ?_) ⟨rfl, fun h => hplan.elim h.1 h.2⟩
    rw [← List.append_assoc] at hall
    exact htwice (List.nodup_append.mp hall).1

/-! ## Dispatchers and snapshots -/

theorem heapDispatcherCreate_turns (router : Router) (w : World) :
    let r := heapDispatcherCreate router w
    Turns w.ledger 0 r.2.ledger (r.1.elim 0 HeapDispatcher.owned) := by
  intro r
  unfold r heapDispatcherCreate paramsAlloc
  rcases hblock : w.malloc 1 with ⟨_ | b, w₁⟩
  · exact malloc_turns hblock
  have hfirst := malloc_turns hblock
  dsimp only
  split
  · rcases hbase : w₁.malloc (router.maxParams * 24) with ⟨_ | base, w₂⟩
    · have hboth := hfirst.seq (malloc_turns hbase)
      exact (hboth.congr (add_zero _) (add_zero _)).trans (free_turns w₂ (some b))
    · have hboth := hfirst.seq (malloc_turns hbase)
      exact hboth.congr (add_zero _) (add_comm _ _)
  · exact hfirst.congr rfl (zero_add _).symm

theorem wrouterDispatcherFree_turns (d : HeapDispatcher) (w : World) :
    Turns w.ledger d.owned (wrouterDispatcherFree (some d) w).ledger 0 :=
  free_after (b := some d.block) (free_turns w d.data.params.base)

theorem wrouterSnapshotFree_turns (s : Snapshot) (w : World) :
    Turns w.ledger s.owned (wrouterSnapshotFree (some s) w).ledger 0 :=
  free_after (b := some s.block) (free_after (free_turns w (s.params.base.map Ptr.block)))

/-- A copy that fails at any point takes back what it had. -/
theorem wrouterParamsCopy_turns {params : Params} {w w' : World} {snapshot : Option Snapshot}
    (h : wrouterParamsCopy (some params) w = some (snapshot, w')) :
    Turns w.ledger 0 w'.ledger (snapshot.elim 0 Snapshot.owned) := by
  unfold wrouterParamsCopy paramsNtAlloc at h
  dsimp only at h
  rcases hblock : w.malloc 24 with ⟨_ | b, w₁⟩
  · rw [hblock] at h
    obtain ⟨rfl, rfl⟩ := by simpa only [Option.some.injEq, Prod.mk.injEq] using h
    exact malloc_turns hblock
  rw [hblock] at h
  dsimp only at h
  have hfirst : Turns w.ledger 0 w₁.ledger (Snapshot.owned ⟨b, ⟨none, 0⟩, none⟩) :=
    malloc_turns hblock
  have hback := hfirst.trans (wrouterSnapshotFree_turns ⟨b, ⟨none, 0⟩, none⟩ w₁)
  split at h
  · obtain ⟨rfl, rfl⟩ := by simpa only [Option.some.injEq, Prod.mk.injEq] using h
    exact hfirst
  split at h
  · obtain ⟨rfl, rfl⟩ := by simpa only [Option.some.injEq, Prod.mk.injEq] using h
    exact hback
  split at h
  · obtain ⟨rfl, rfl⟩ := by simpa only [Option.some.injEq, Prod.mk.injEq] using h
    exact hback
  rename_i size _
  rcases hregion : w₁.malloc size with ⟨_ | r, w₂⟩
  · rw [hregion] at h
    obtain ⟨rfl, rfl⟩ := by simpa only [Option.some.injEq, Prod.mk.injEq] using h
    have hboth := hfirst.seq (malloc_turns hregion)
    exact (hboth.congr (add_zero _) (add_zero _)).trans
      (wrouterSnapshotFree_turns ⟨b, ⟨none, 0⟩, none⟩ w₂)
  rw [hregion] at h
  dsimp only at h
  have hsecond : Turns w.ledger 0 w₂.ledger (owns (some r) + {b.id}) :=
    (hfirst.seq (malloc_turns hregion)).congr (add_zero _) (add_comm _ _)
  rcases hbase : w₂.malloc (16 * params.count) with ⟨_ | base, w₃⟩
  · rw [hbase] at h
    obtain ⟨rfl, rfl⟩ := by simpa only [Option.some.injEq, Prod.mk.injEq] using h
    have hboth := hsecond.seq (malloc_turns hbase)
    have hfree := wrouterSnapshotFree_turns ⟨b, ⟨none, 0⟩, some ⟨r, List.replicate size 0⟩⟩ w₃
    exact (hboth.congr (add_zero _) (add_zero _)).trans hfree
  rw [hbase] at h
  dsimp only at h
  split at h
  · simp at h
  · obtain ⟨rfl, rfl⟩ := by simpa only [Option.some.injEq, Prod.mk.injEq] using h
    have hboth := hsecond.seq (malloc_turns hbase)
    refine hboth.congr (add_zero _) ?_
    simp only [Option.elim, Snapshot.owned, Option.map_some]
    abel

/-! ## Every call keeps the books -/

def Program.Usable (p : Program) : Prop := ∀ b, p.builder = some b → b.erase.Usable

def Program.Keeps (p q : Program) : Prop := Turns p.world.ledger p.owned q.world.ledger q.owned

section Calls

variable {L : Libc} {p q : Program}

/-- Adding a route keeps the books, whatever it returns. -/
theorem addRoute_keeps {pattern : Option Bytes} {route : Route} (hp : p.Usable)
    (h : p.call L (.addRoute pattern route) = some q) : q.Usable ∧ p.Keeps q := by
  obtain ⟨b, hb, rfl⟩ := Option.map_eq_some_iff.mp h
  have husable := wrouterAddRoute_usable (hp b hb) pattern route p.world
  rw [heapAddRoute_erase b pattern route p.world] at husable
  refine ⟨fun b' hb' => ?_, ?_⟩
  · obtain rfl := Option.some.inj hb'
    exact husable
  · have hadd := (heapAddRoute_turns (hp b hb) pattern route p.world).frame
      (ownedBy Router.blocks p.routers + ownedBy (fun d => d.1.owned) p.dispatchers +
        ownedBy Snapshot.owned p.snapshots)
    refine hadd.congr ?_ ?_
    · rw [Program.owned, hb, Option.elim_some]
      abel
    · rw [Program.owned, Option.elim_some]
      abel

theorem Program.compilesOnce_some (p : Program) {b : HeapBuilder} (h : p.compilesOnce = true)
    (hb : p.builder = some b) : b.erase.corrupted = true ∨ FreesOnce b.erase p.world.answers := by
  rw [Program.compilesOnce, hb, Option.all_some, Bool.or_eq_true] at h
  exact h.imp_right of_decide_eq_true

/-- So does compiling, unless a part broke off at its second allocation. -/
theorem compile_keeps (hp : p.Usable) (honce : p.compilesOnce = true)
    (h : p.call L .compile = some q) : q.Usable ∧ p.Keeps q := by
  obtain rfl := Option.some.inj h
  refine ⟨hp, ?_⟩
  have hcompile : Turns p.world.ledger 0
      (wrouterCompile L (p.builder.map HeapBuilder.erase) p.world).2.2.ledger
      ((wrouterCompile L (p.builder.map HeapBuilder.erase) p.world).1.elim 0 Router.blocks) := by
    cases hb : p.builder with
    | none => exact .refl _ _
    | some b => exact wrouterCompile_turns L b.erase p.world (p.compilesOnce_some honce hb)
  refine (hcompile.frame p.owned).congr (zero_add _) ?_
  simp only [Program.owned, ownedBy_new]
  abel

/-- The builder goes, whatever became of the compilation. -/
theorem consume_keeps (honce : p.compilesOnce = true) (h : p.call L .consume = some q) :
    q.Usable ∧ p.Keeps q := by
  obtain ⟨⟨router, e, w⟩, hconsume, rfl⟩ := Option.map_eq_some_iff.mp h
  refine ⟨fun b hb => by simp at hb, ?_⟩
  have hturns : Turns p.world.ledger (p.builder.elim 0 HeapBuilder.owned) w.ledger
      (router.elim 0 Router.blocks) := by
    cases hb : p.builder with
    | none =>
      rw [hb] at hconsume
      obtain ⟨rfl, -, rfl⟩ := by simpa [wrouterConsume] using hconsume
      exact .refl _ _
    | some b =>
      rw [hb] at hconsume
      obtain ⟨w', hfree, heq⟩ := Option.map_eq_some_iff.mp hconsume
      obtain ⟨rfl, -, rfl⟩ := by simpa only [Prod.mk.injEq] using heq
      have hcompile := wrouterCompile_turns L b.erase p.world (p.compilesOnce_some honce hb)
      have hboth := hcompile.seq (heapBuilderFree_turns hfree)
      exact hboth.congr (zero_add _) (add_zero _)
  refine (hturns.frame (ownedBy Router.blocks p.routers +
    ownedBy (fun d => d.1.owned) p.dispatchers + ownedBy Snapshot.owned p.snapshots)).congr ?_ ?_
  · rw [Program.owned]
    abel
  · simp only [Program.owned, ownedBy_new, Option.elim_none]
    abel

/-- Freeing the builder gives back all of it. -/
theorem builderFree_keeps (hp : p.Usable) (h : p.call L .builderFree = some q) :
    q.Usable ∧ p.Keeps q := by
  unfold Program.call at h
  cases hb : p.builder with
  | none =>
    obtain rfl : p = q := by simpa [hb] using h
    exact ⟨hp, .refl _ _⟩
  | some b =>
    simp only [hb] at h
    obtain ⟨w, hfree, rfl⟩ := Option.map_eq_some_iff.mp h
    refine ⟨fun b hb => by simp at hb, ?_⟩
    refine ((heapBuilderFree_turns hfree).frame (ownedBy Router.blocks p.routers +
      ownedBy (fun d => d.1.owned) p.dispatchers + ownedBy Snapshot.owned p.snapshots)).congr ?_ ?_
    · rw [Program.owned, hb, Option.elim_some]
      abel
    · rw [Program.owned, Option.elim_none]
      abel

/-- A handle to a router, a dispatcher or a snapshot is given up. -/
theorem free_keeps (h : (∃ i, p.call L (.routerFree i) = some q) ∨
    (∃ j, p.call L (.dispatcherFree j) = some q) ∨ ∃ k, p.call L (.snapshotFree k) = some q) :
    q.builder = p.builder ∧ p.Keeps q := by
  rcases h with ⟨i, h⟩ | ⟨j, h⟩ | ⟨k, h⟩ <;> obtain ⟨x, hx, rfl⟩ := Option.map_eq_some_iff.mp h <;>
    refine ⟨rfl, ?_⟩
  · refine ((Turns.drop hx (wrouterFree_turns x p.world)).frame
      (p.builder.elim 0 HeapBuilder.owned + ownedBy (fun d => d.1.owned) p.dispatchers +
        ownedBy Snapshot.owned p.snapshots)).congr ?_ ?_ <;>
    · rw [Program.owned]
      abel
  · refine ((Turns.drop (f := fun d => d.1.owned) hx (wrouterDispatcherFree_turns x.1 p.world)).frame
      (p.builder.elim 0 HeapBuilder.owned + ownedBy Router.blocks p.routers +
        ownedBy Snapshot.owned p.snapshots)).congr ?_ ?_ <;>
    · rw [Program.owned]
      abel
  · refine ((Turns.drop hx (wrouterSnapshotFree_turns x p.world)).frame
      (p.builder.elim 0 HeapBuilder.owned + ownedBy Router.blocks p.routers +
        ownedBy (fun d => d.1.owned) p.dispatchers)).congr ?_ ?_ <;>
    · rw [Program.owned]
      abel

theorem resolve_base {d d' : Dispatcher} {path : Bytes} {ctx : Nat}
    (h : wrouterResolve L d path = some (ctx, d')) : d'.params.base = d.params.base := by
  obtain ⟨r, hr, heq⟩ := Option.map_eq_some_iff.mp h
  obtain ⟨-, rfl⟩ := by simpa only [Prod.mk.injEq] using heq
  exact resolveRequest_base (Dispatcher.request_some.mp hr).1

/-- Dispatchers are made, used and copied from. -/
theorem dispatcher_keeps (h : (∃ i, p.call L (.dispatcherCreate i) = some q) ∨
    (∃ j path, p.call L (.resolve j path) = some q) ∨ ∃ j, p.call L (.paramsCopy j) = some q) :
    q.builder = p.builder ∧ p.Keeps q := by
  rcases h with ⟨i, h⟩ | ⟨j, path, h⟩ | ⟨j, h⟩
  · obtain ⟨router, -, rfl⟩ := Option.map_eq_some_iff.mp h
    refine ⟨rfl, ((heapDispatcherCreate_turns router p.world).frame p.owned).congr
      (zero_add _) ?_⟩
    have helim : ((heapDispatcherCreate router p.world).1.map fun d => (d, i)).elim 0
        (fun d => d.1.owned) =
        (heapDispatcherCreate router p.world).1.elim 0 HeapDispatcher.owned := by
      cases (heapDispatcherCreate router p.world).1 <;> rfl
    simp only [Program.owned, ownedBy_new, helim]
    abel
  · obtain ⟨⟨d, i⟩, hd, h⟩ := Option.bind_eq_some_iff.mp h
    obtain ⟨router, -, h⟩ := Option.bind_eq_some_iff.mp h
    obtain ⟨⟨ctx, data⟩, hresolve, h⟩ := Option.bind_eq_some_iff.mp h
    obtain rfl := Option.some.inj h
    refine ⟨rfl, ?_⟩
    have hsame : HeapDispatcher.owned ⟨d.block, data⟩ = d.owned := by
      rw [HeapDispatcher.owned, resolve_base hresolve]
      rfl
    have howned : ownedBy (fun d => d.1.owned) (p.dispatchers.set j (some (⟨d.block, data⟩, i))) =
        ownedBy (fun d => d.1.owned) p.dispatchers := ownedBy_set hd hsame
    rw [Program.Keeps, Program.owned, Program.owned, howned]
    exact .refl _ _
  · obtain ⟨⟨d, i⟩, -, h⟩ := Option.bind_eq_some_iff.mp h
    obtain ⟨router, -, h⟩ := Option.bind_eq_some_iff.mp h
    obtain ⟨⟨snapshot, w⟩, hcopy, h⟩ := Option.bind_eq_some_iff.mp h
    obtain rfl := Option.some.inj h
    refine ⟨rfl, ((wrouterParamsCopy_turns hcopy).frame p.owned).congr (zero_add _) ?_⟩
    simp only [Program.owned, ownedBy_new]
    abel

/-- One call: what the builder promises stays, and every block is accounted for. -/
theorem call_keeps {call : ProgramCall} (hp : p.Usable) (honce : p.freesOnce call = true)
    (h : p.call L call = some q) : q.Usable ∧ p.Keeps q := by
  have hsame (h : q.builder = p.builder ∧ p.Keeps q) : q.Usable ∧ p.Keeps q :=
    ⟨fun b hb => hp b (h.1 ▸ hb), h.2⟩
  cases call with
  | addRoute pattern route => exact addRoute_keeps hp h
  | compile => exact compile_keeps hp honce h
  | consume => exact consume_keeps honce h
  | builderFree => exact builderFree_keeps hp h
  | routerFree i => exact hsame (free_keeps (Or.inl ⟨i, h⟩))
  | dispatcherFree j => exact hsame (free_keeps (Or.inr (Or.inl ⟨j, h⟩)))
  | snapshotFree k => exact hsame (free_keeps (Or.inr (Or.inr ⟨k, h⟩)))
  | dispatcherCreate i => exact hsame (dispatcher_keeps (Or.inl ⟨i, h⟩))
  | resolve j path => exact hsame (dispatcher_keeps (Or.inr (Or.inl ⟨j, path, h⟩)))
  | paramsCopy j => exact hsame (dispatcher_keeps (Or.inr (Or.inr ⟨j, h⟩)))

end Calls

/-! ## Runs -/

def Program.start (b : Option HeapBuilder) (w : World) : Program := ⟨b, [], [], [], w⟩

/-- Over any run that comes through, from the creation of the builder on: every block handed out is
owned by one live object or was given back, once. Allocations may be refused anywhere but at the
second allocation of a part of a router. -/
theorem every_block_accounted_for (L : Libc) {options : Options} {w w' : World}
    {others : Multiset Nat} (hw : Balanced w.ledger others) {b : Option HeapBuilder}
    (hcreate : heapBuilderCreate options w = some (b, w')) {calls : List ProgramCall} {p : Program}
    (hrun : attempt (Program.call L) calls (Program.start b w') = some p)
    (honce : allowed (Program.call L) Program.freesOnce calls (Program.start b w') = true) :
    Balanced p.world.ledger (p.owned + others) := by
  have hstart : Turns w.ledger 0 w'.ledger (Program.owned (.start b w')) := by
    refine (heapBuilderCreate_turns hcreate).congr rfl ?_
    simp [Program.owned, Program.start, ownedBy]
  have husable : (Program.start b w').Usable := by
    rintro b' rfl _
    exact ⟨[], (wrouterBuilderCreate_holds (heapBuilderCreate_erase hcreate)).1⟩
  have hcalls := attempt_rel (I := Program.Usable) (R := Program.Keeps) (fun _ => .refl _ _)
    Turns.trans (fun _ _ _ hp honce h => call_keeps hp honce h) husable honce hrun
  have hbalanced := hstart.trans hcalls.2 others
  rw [zero_add] at hbalanced
  exact hbalanced hw

/-- A dictionary that cannot be had, a second compilation, a request, a copy, and everything freed
in another order than it was made. -/
def lifetime : List ProgramCall :=
  [.addRoute (some (ascii "/a/:x")) ⟨5, 1⟩, .compile, .compile, .dispatcherCreate 0,
    .resolve 0 (ascii "/a/1"), .paramsCopy 0, .consume, .routerFree 1, .dispatcherFree 0,
    .routerFree 0, .snapshotFree 0]

/-- A program of every kind of call, with a refusal in it, that frees all its 37 blocks. -/
theorem every_block_accounted_for_lifetime : ∃ b w' p,
    heapBuilderCreate countingOptions ⟨List.replicate 16 (some 0) ++ [none], 0, []⟩ = some (b, w') ∧
      attempt (Program.call .reference) lifetime (Program.start b w') = some p ∧
      p.owned = 0 ∧ p.world.freed.length = 37 ∧ Balanced p.world.ledger (p.owned + 0) := by
  have hw : Balanced (World.ledger ⟨List.replicate 16 (some 0) ++ [none], 0, []⟩) 0 :=
    ⟨fun b hb => absurd hb (Multiset.notMem_zero b), Multiset.nodup_zero, rfl⟩
  have hruns : ((heapBuilderCreate countingOptions
      ⟨List.replicate 16 (some 0) ++ [none], 0, []⟩).any fun r =>
      (attempt (Program.call .reference) lifetime (Program.start r.1 r.2)).any (fun p =>
        p.owned = 0 ∧ p.world.freed.length = 37) &&
      allowed (Program.call .reference) Program.freesOnce lifetime (Program.start r.1 r.2)) := by
    decide +kernel
  obtain ⟨⟨b, w'⟩, hcreate, hruns⟩ := (Option.any_eq_true _ _).mp hruns
  obtain ⟨hp, honce⟩ := Bool.and_eq_true_iff.mp hruns
  obtain ⟨p, hrun, hend⟩ := (Option.any_eq_true _ _).mp hp
  obtain ⟨howned, hfreed⟩ := of_decide_eq_true hend
  exact ⟨b, w', p, hcreate, hrun, howned, hfreed,
    every_block_accounted_for .reference hw hcreate hrun honce⟩

end Wrouter
