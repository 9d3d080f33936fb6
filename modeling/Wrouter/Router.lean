import Wrouter.Graph
import Wrouter.Lexer

/-!
# Router and matcher

A request is matched by one walk over the compiled graph, without backtracking.
The walk records parameters as it goes and remembers the last wildcard it passed.
The slots that `param_next` hands out are logged. The walk itself goes on as if the buffer were
long enough; a call of the library that takes a slot past it has no result.
-/
namespace Wrouter

open CLib

structure Router where
  block : Block
  graph : Option (Ptr (List Nat))
  literals : Symbols
  params : Symbols
  terminals : Terminals
  fallback : Route
  maxParams : Nat
  numRoutes : Nat
  graphSize : Nat
  retain : Bool
  release : Bool
  deriving DecidableEq, Repr

/-- `name` is a terminated string; `value` is `length` bytes from the pointer on. -/
structure Param where
  name : Option Bytes
  value : Option Bytes
  length : Nat
  deriving DecidableEq, Repr

/-- `WILDCARD_PARAM`. -/
def wildcardParam : Bytes := [95]

/-- A buffer of `allocated` slots from `base` on. A slot past them stands for memory of others, and
nothing that was written or read there is ever the result of a call. -/
structure Params where
  base : Option Block
  allocated : Nat
  slots : Nat → Param
  count : Nat

def Params.zero : Params := ⟨none, 0, fun _ => ⟨none, none, 0⟩, 0⟩

def Params.list (p : Params) : List Param := (List.range p.count).map p.slots

/-- `&params->base[params->count++]`. -/
def paramNext (p : Params) : Nat × Params := (p.count, { p with count := p.count + 1 })

def Params.store (p : Params) (slot : Nat) (param : Param) : Params :=
  { p with slots := fun i => if i = slot then param else p.slots i }

structure Dispatcher where
  router : Router
  lx : Lexer
  params : Params

/-- The variables of `route_match` that live across `goto lexer_next`, and the log
of the slots handed out. -/
structure MatchState where
  cursor : Nat
  pSym : Option Nat
  pEdge : Option Nat
  wEdge : Option Nat
  tEdge : Option Nat
  wParam : Option Bytes
  lx : Lexer
  params : Params
  touched : List Nat

inductive MatchStep where
  | next (s : MatchState)
  | done (route : Option Route) (s : MatchState)

def hasFlag (word flag : Nat) : Bool := word &&& flag != 0

def MatchState.record (s : MatchState) (param : Param) : MatchState :=
  let r := paramNext s.params
  { s with params := r.2.store r.1 param, touched := s.touched ++ [r.1] }

/-- `not_found`: no parameters. -/
def MatchState.notFound (s : MatchState) : MatchStep :=
  .done none { s with params := { s.params with count := 0 } }

/-- Resolve the segment to a symbol and search the node's literal edges for it. -/
def literalEdge (L : Libc) (router : Router) (g : List Nat) (lEdgeBase nLiterals : Nat)
    (tok : Token) : Option Nat :=
  if nLiterals = 0 then none
  else
    let symbol := symbolNresolve L router.literals (tok.ptr.getD []) tok.length
    if symbol = 0 then none
    else match Search.search 16 (fun i => cell g (lEdgeBase + i * 2)) symbol nLiterals with
      | some i => some (cell g (lEdgeBase + i * 2 + 1))
      | none => none

/-- Step over the node's special and trailing edges, remembering them. -/
def MatchState.enter (s : MatchState) (word : Nat) (tok : Token) : MatchState :=
  let s := { s with cursor := s.cursor + 1 }
  let s := if hasFlag word nodeFlagHasParam then
    { s with pSym := some s.cursor, pEdge := some (s.cursor + 1), cursor := s.cursor + 2 } else s
  let s := if hasFlag word nodeFlagHasWildcard then
    { s with wEdge := some s.cursor, wParam := tok.ptr, cursor := s.cursor + 1 } else s
  if hasFlag word nodeFlagHasTrailing then
    { s with tEdge := some s.cursor, cursor := s.cursor + 1 } else s

/-- From one `lexer_next` to the next, or to an exit. -/
def matchStep (L : Libc) (router : Router) (g : List Nat) (s : MatchState) : MatchStep :=
  let r := lexerNext s.lx
  let tok := r.1
  let node := s.cursor
  let word := cell g node
  let s := { s with lx := r.2 }.enter word tok
  match tok.type with
  | .literal =>
    match literalEdge L router g s.cursor (word &&& nodeLiteralsMask) tok with
    | some offset => .next { s with cursor := offset }
    | none =>
      if hasFlag word nodeFlagHasParam then
        let name := symbolLookup router.params (cell g (s.pSym.getD 0))
        let s := s.record ⟨name.map CString.text, tok.ptr, tok.length⟩
        .next { s with cursor := cell g (s.pEdge.getD 0) }
      else match s.wEdge with
        | some wEdge =>
          -- the wildcard's value runs from its own segment to the end of the request
          let s := s.record ⟨some wildcardParam, s.wParam, u16 (s.wParam.getD []).length⟩
          .done (terminalLookup router.terminals (cell g wEdge)) s
        | none => s.notFound
  | .trailing =>
    if hasFlag word nodeFlagHasTrailing then
      .done (terminalLookup router.terminals (cell g (s.tEdge.getD 0))) s
    else s.notFound
  | .end_ =>
    if hasFlag word nodeFlagTerminal then .done (terminalLookup router.terminals node) s
    else s.notFound
  | _ => s.notFound

def matchLoop (L : Libc) (router : Router) (g : List Nat) :
    Nat → MatchState → Option (Option Route × MatchState)
  | 0, _ => none
  | fuel + 1, s =>
    match matchStep L router g s with
    | .done route s => some (route, s)
    | .next s => matchLoop L router g fuel s

structure MatchResult where
  route : Option Route
  dispatcher : Dispatcher
  touched : List Nat

/-- Every pass but the last consumes a segment, so the request's length bounds them;
none would mean that they ran out. -/
def routeMatch (L : Libc) (d : Dispatcher) : Option MatchResult :=
  match d.router.graph with
  | none => some ⟨none, { d with params := { d.params with count := 0 } }, []⟩
  | some g =>
    let s : MatchState := ⟨0, none, none, none, none, none, d.lx, { d.params with count := 0 }, []⟩
    (matchLoop L d.router g.data (d.lx.length + 1) s).map fun r =>
      ⟨r.1, { d with lx := r.2.lx, params := r.2.params }, r.2.touched⟩

def wrouterRouteCount (router : Router) : Nat := router.numRoutes

def wrouterFree (router : Option Router) (w : World) : World :=
  match router with
  | none => w
  | some r =>
    let w := w.release r.release r.fallback.ctx
    let w := (r.terminals.baseData.take r.terminals.count).foldl
      (fun w route => w.release r.release route.ctx) w
    let w := terminalsFree r.terminals (symbolsFree r.params (symbolsFree r.literals w))
    (w.free (r.graph.map Ptr.block)).free (some r.block)

end Wrouter
