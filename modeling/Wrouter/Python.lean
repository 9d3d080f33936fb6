import Mathlib.Data.Nat.PSub
import Wrouter.Callbacks
import Wrouter.Lib.Counted

/-!
# The Python binding

Builders, routers and dispatchers are Python objects, and the context of a route is any Python
object. The library counts its references to contexts through the callbacks; a dispatcher holds
on to its router. The threads of a program take turns, so its calls come one after the other.
-/
namespace Wrouter

open CLib Counted

/-! ## Objects -/

inductive PyItem where
  | none
  | object
  | dict (params : List (Bytes × Bytes))
  | builder (builder : HeapBuilder) (owner : Nat)
  | router (router : Router)
  | dispatcher (dispatcher : HeapDispatcher) (owner router : Nat)

/-- What must not happen. In `doubleFree` the library frees a block again, in `dangling` a
constructor uses its object after it freed it. -/
inductive PyFault where
  | nullPointer
  | doubleFree
  | deadObject
  | dangling
  | undefined
  deriving DecidableEq, Repr

/-- The objects, the references in the variables of the program, those nobody will give back, what
the runtime answers to its allocations (an exhausted list answers yes) and the library's world. -/
structure Python where
  cells : List (Cell PyItem)
  vars : List Nat
  lost : List Nat
  grants : List Bool
  world : World

-- the runtime's own reference keeps `None`
def Python.start (grants : List Bool) (w : World) : Python := ⟨[⟨1, .none⟩], [], [0], grants, w⟩

def Python.alloc (p : Python) : Bool × Python :=
  match p.grants with
  | [] => (true, p)
  | granted :: rest => (granted, { p with grants := rest })

def positions (ctxs : List Nat) : List Nat := ctxs.filterMap Nat.ppred

def letGo (w w' : World) : List Nat :=
  (w'.callbacks.drop w.callbacks.length).filterMap fun
    | .release ctx => ctx.ppred
    | _ => none

/-- `PyBuilder_dealloc`, `PyRouter_dealloc` and `PyDispatcher_dealloc`, with the references they
give back. -/
def dealloc (item : PyItem) (w : World) : Except PyFault (List Nat × World) :=
  match item with
  | .builder b _ =>
    match heapBuilderFree b w with
    | none => .error .nullPointer
    | some w' => .ok (letGo w w', w')
  | .router router =>
    let w' := wrouterFree (some router) w
    .ok (letGo w w', w')
  | .dispatcher d _ router => .ok ([router], wrouterDispatcherFree (some d) w)
  | .none | .object | .dict _ => .ok ([], w)

def Python.incref (p : Python) (i : Nat) : Except PyFault Python :=
  (share .deadObject p.cells i).map fun cells => { p with cells := cells }

def Python.decref (p : Python) (i : Nat) : Except PyFault Python :=
  (drop .deadObject dealloc (total p.cells) [i] p.cells p.world).map fun r =>
    { p with cells := r.1, world := r.2 }

/-- `py_retain` and `py_release` -/
def Python.onCallback (p : Python) : Event → Except PyFault Python
  | .retain (i + 1) => p.incref i
  | .release (i + 1) => p.decref i
  | _ => .ok p

def Python.listen (p : Python) (w : World) : Except PyFault Python :=
  (w.callbacks.drop p.world.callbacks.length).foldlM Python.onCallback { p with world := w }

def Python.push (item : PyItem) (p : Python) : Python :=
  { p with cells := p.cells ++ [⟨1, item⟩], vars := p.vars ++ [p.cells.length] }

def Python.setItem (p : Python) (i : Nat) (item : PyItem) : Python :=
  { p with cells := p.cells.modify i fun x => { x with item := item } }

def Python.look (p : Python) (v : Nat) : Option (Nat × PyItem) := do
  let i ← p.vars[v]?
  let x ← p.cells[i]?
  some (i, x.item)

/-! ## Calls -/

/-- A result or an exception; `systemError` is what the interpreter makes of NULL without an
exception, or of a result with one. -/
inductive PyReply where
  | done
  | resolved (ctx : Nat) (params : List (Bytes × Bytes))
  | nameError
  | attributeError
  | typeError
  | valueError
  | runtimeError
  | memoryError
  | systemError
  | routeError (reason : String)
  deriving DecidableEq, Repr

def builderOptions (paramSyntax : ParamSyntax) : Options := ⟨0, 0, paramSyntax, true, true⟩

-- the argument may be missing or of another type
def pyBuilderNew (thread : Nat) (arg : Option (Option ParamSyntax)) (p : Python) :
    Except PyFault (PyReply × Python) :=
  match p.alloc with
  | (false, p) => .ok (.memoryError, p)
  | (true, p) =>
    match p.alloc with
    | (false, p) => .ok (.systemError, p)
    | (true, p) =>
      match arg.getD (some .colon) with
      | none => .ok (.typeError, p)
      | some paramSyntax =>
        match heapBuilderCreate (builderOptions paramSyntax) p.world with
        | none => .error .nullPointer
        | some (none, w) => (p.listen w).map fun p => (.systemError, p)
        | some (some b, w) => (p.listen w).map fun p => (.done, p.push (.builder b thread))

def pyBuilderAdd (thread v : Nat) (pattern : Bytes) (ctx : Nat) (p : Python) :
    Except PyFault (PyReply × Python) :=
  match p.look v, p.look ctx with
  | some (i, .builder b owner), some (k, _) =>
    if 0 ∈ pattern then .ok (.valueError, p)
    else if owner ≠ thread then .ok (.runtimeError, p)
    else
      let r := heapAddRoute b (some pattern) ⟨0, k + 1⟩ p.world
      (p.listen r.2.2).map fun p =>
        let p := p.setItem i (.builder r.2.1 owner)
        if r.1 = .noMemory then (.memoryError, p)
        else if r.1 ≠ .ok then (.routeError (wrouterStrerror r.1), p)
        else (.done, p)
  | some _, some _ => .ok (.attributeError, p)
  | _, _ => .ok (.nameError, p)

def pyRouterFromRouter (router : Router) (p : Python) : PyReply × Python :=
  -- where there is no object for it the router stays behind
  let leave (p : Python) : Python :=
    { p with lost := p.lost ++ positions (if router.release then router.holders else []) }
  match p.alloc with
  | (false, p) => (.memoryError, leave p)
  | (true, p) =>
    match p.alloc with
    | (false, p) => (.memoryError, leave p)
    | (true, p) => (.done, p.push (.router router))

def pyCompiled (r : Option Router × WrouterError) (p : Python) :
    Except PyFault (PyReply × Python) :=
  if r.2 = .noMemory then .ok (.memoryError, p)
  else if r.2 ≠ .ok then .ok (.routeError (wrouterStrerror r.2), p)
  else match r.1 with
    | none => .error .nullPointer
    | some router => .ok (pyRouterFromRouter router p)

def pyBuilderCompile (L : Libc) (thread v : Nat) (p : Python) : Except PyFault (PyReply × Python) :=
  match p.look v with
  | some (_, .builder b owner) =>
    if owner ≠ thread then .ok (.runtimeError, p)
    else
      let r := wrouterCompile L (some b.erase) p.world
      if freesTwice p.world r.2.2 then .error .doubleFree
      else do
        let p ← p.listen r.2.2
        pyCompiled (r.1, r.2.1) p
  | some _ => .ok (.attributeError, p)
  | none => .ok (.nameError, p)

-- the clean-up reads the object it has just freed
def pyDispatcherNew (thread v : Nat) (p : Python) : Except PyFault (PyReply × Python) :=
  match p.look v with
  | some (i, .router router) =>
    match p.alloc with
    | (false, p) => .ok (.memoryError, p)
    | (true, p) => do
      let p ← p.incref i
      match p.alloc with
      | (false, _) => .error .dangling
      | (true, p) =>
        match heapDispatcherCreate router p.world with
        | (none, _) => .error .dangling
        | (some d, w) => .ok (.done, { p with world := w }.push (.dispatcher d thread i))
  | some _ => .ok (.typeError, p)
  | none => .ok (.nameError, p)

/-- `PyDict_SetItem` -/
def dictSet (dict : List (Bytes × Bytes)) (key value : Bytes) : List (Bytes × Bytes) :=
  if dict.any fun e => e.1 = key then dict.map fun e => if e.1 = key then (key, value) else e
  else dict ++ [(key, value)]

/-- The loop over the parameters: the dictionary, and whether an exception stands because an entry
could not be stored. Both strings are made before either is looked at. -/
def pyParams : List Param → List (Bytes × Bytes) → Bool → Python →
    Option (List (Bytes × Bytes) × Bool) × Python
  | [], dict, raised, p => (some (dict, raised), p)
  | param :: params, dict, raised, p =>
    let k := p.alloc
    let v := k.2.alloc
    if k.1 && v.1 then
      match v.2.alloc with
      | (false, p) => pyParams params dict true p
      | (true, p) => pyParams params (dictSet dict param.nameText param.valueText) raised p
    else (none, v.2)

/-- `PyTuple_Pack` takes references of its own, and the one the dictionary came with stays behind.
The program takes the pair apart; where an exception stands the interpreter lets go of it. -/
def pyPair (ctx : Nat) (dict : List (Bytes × Bytes)) (raised : Bool) (p : Python) :
    Except PyFault (PyReply × Python) :=
  let k := p.cells.length
  match p.alloc with
  | (false, p) =>
    .ok (.memoryError, { p with cells := p.cells ++ [⟨1, .dict dict⟩], lost := p.lost ++ [k] })
  | (true, p) => do
    let shared ← p.incref ctx
    if raised then
      pure (.systemError, { p with cells := p.cells ++ [⟨1, .dict dict⟩], lost := p.lost ++ [k] })
    else
      let p : Python := { shared with
        cells := shared.cells ++ [⟨2, .dict dict⟩], vars := p.vars ++ [ctx, k],
        lost := p.lost ++ [k] }
      pure (.resolved ctx dict, p)

def pyAnswer (ctx : Nat) (params : List Param) (p : Python) : Except PyFault (PyReply × Python) :=
  match p.alloc with
  | (false, p) => .ok (.memoryError, p)
  | (true, p) =>
    match pyParams params [] false p with
    | (none, p) => .ok (.memoryError, p)
    | (some (dict, raised), p) => pyPair ctx dict raised p

def pyDispatcherResolve (L : Libc) (thread v : Nat) (path : Bytes) (p : Python) :
    Except PyFault (PyReply × Python) :=
  match p.look v with
  | some (i, .dispatcher d owner router) =>
    if 0 ∈ path then .ok (.valueError, p)
    else if owner ≠ thread then .ok (.runtimeError, p)
    else if refsAt p.cells router = 0 then .error .deadObject
    else match wrouterResolve L d.data path with
      | none => .error .undefined
      | some (ctx, data) =>
        pyAnswer (ctx.ppred.getD 0) data.params.list
          (p.setItem i (.dispatcher ⟨d.block, data⟩ owner router))
  | some _ => .ok (.attributeError, p)
  | none => .ok (.nameError, p)

/-- The loop of `py_build_router`: a pattern and a context, or something else. -/
def pyBuildRoutes : List (Option (Bytes × Nat)) → HeapBuilder → World →
    Option PyReply × HeapBuilder × World
  | [], b, w => (none, b, w)
  | none :: _, b, w => (some .typeError, b, w)
  | some (pattern, k) :: rest, b, w =>
    if 0 ∈ pattern then (some .typeError, b, w)
    else
      let r := heapAddRoute b (some pattern) ⟨0, k + 1⟩ w
      if r.1 = .noMemory then (some .memoryError, r.2)
      else if r.1 ≠ .ok then (some (.routeError (wrouterStrerror r.1)), r.2)
      else pyBuildRoutes rest r.2.1 r.2.2

def uncounted : Options := ⟨0, 0, .colon, false, false⟩

/-- The contexts by their positions. -/
def Python.named (p : Python) (routes : List (Option (Bytes × Nat))) :
    Option (List (Option (Bytes × Nat))) :=
  routes.mapM fun route => match route with
    | none => some none
    | some (pattern, v) => (p.look v).map fun c => some (pattern, c.1)

def pyBuildRouter (L : Libc) (routes : List (Option (Bytes × Nat))) (p : Python) :
    Except PyFault (PyReply × Python) :=
  match p.named routes with
  | none => .ok (.nameError, p)
  | some routes =>
    match heapBuilderCreate uncounted p.world with
    | none => .error .nullPointer
    | some (none, w) => (p.listen w).map fun p => (.memoryError, p)
    | some (some b, w) =>
      match pyBuildRoutes routes b w with
      | (some reply, b, w) =>
        match heapBuilderFree b w with
        | none => .error .nullPointer
        | some w => (p.listen w).map fun p => (reply, p)
      | (none, b, w) =>
        let r := wrouterCompile L (some b.erase) w
        if freesTwice w r.2.2 then .error .doubleFree
        else match heapBuilderFree b r.2.2 with
        | none => .error .nullPointer
        | some w => do
          let p ← p.listen w
          pyCompiled (r.1, r.2.1) p

/-- What a program does; variables go by their numbers, which close up when one goes. -/
inductive PyCall where
  | object
  | copy (v : Nat)
  | forget (v : Nat)
  | builder (arg : Option (Option ParamSyntax))
  | add (v : Nat) (pattern : Bytes) (ctx : Nat)
  | compile (v : Nat)
  | dispatcher (v : Nat)
  | resolve (v : Nat) (path : Bytes)
  | buildRouter (routes : List (Option (Bytes × Nat)))
  deriving DecidableEq, Repr

def Python.call (L : Libc) (thread : Nat) (call : PyCall) (p : Python) :
    Except PyFault (PyReply × Python) :=
  match call with
  | .object => .ok (.done, p.push .object)
  | .copy v =>
    match p.vars[v]? with
    | none => .ok (.nameError, p)
    | some i => (p.incref i).map fun p => (.done, { p with vars := p.vars ++ [i] })
  | .forget v =>
    match p.vars[v]? with
    | none => .ok (.nameError, p)
    | some i => ({ p with vars := p.vars.eraseIdx v }.decref i).map fun p => (.done, p)
  | .builder arg => pyBuilderNew thread arg p
  | .add v pattern ctx => pyBuilderAdd thread v pattern ctx p
  | .compile v => pyBuilderCompile L thread v p
  | .dispatcher v => pyDispatcherNew thread v p
  | .resolve v path => pyDispatcherResolve L thread v path p
  | .buildRouter routes => pyBuildRouter L routes p

/-- The calls of a program, each with its thread. -/
def Python.run (L : Libc) : List (Nat × PyCall) → Python → Except PyFault (List PyReply × Python)
  | [], p => .ok ([], p)
  | (thread, call) :: rest, p => do
    let r ← p.call L thread call
    let rs ← r.2.run L rest
    pure (r.1 :: rs.1, rs.2)

end Wrouter
