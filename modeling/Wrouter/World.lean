import Wrouter.Lib.CLib

/-!
# The outside of the library

Allocation and the caller's callbacks are the only effects. A world answers each
allocation from a list (an address, or a failure), hands out fresh block
identities, and keeps the trace of what happened. An exhausted list answers yes,
so a list of answers fixes any finite behaviour of the allocator.
-/
namespace Wrouter

open CLib

inductive WrouterError where
  | ok
  | noMemory
  | outOfRange
  | illegalPattern
  | duplicateRoute
  | literalConflictsWithParam
  | paramConflictsWithWildcard
  | paramConflictsWithLiteral
  | paramNameMismatch
  | wildcardConflictsWithParam
  | wildcardNotFinal
  | nullArgument
  | builderCorrupted
  deriving DecidableEq, Repr

def wrouterStrerror : WrouterError → String
  | .ok => "Success."
  | .noMemory => "Insufficient memory."
  | .outOfRange => "Value or index out of range."
  | .illegalPattern => "Malformed route pattern."
  | .duplicateRoute => "Duplicate route."
  | .literalConflictsWithParam =>
    "A literal segment conflicts with an existing parameter segment."
  | .paramConflictsWithWildcard =>
    "A parameter segment conflicts with an existing wildcard segment."
  | .paramConflictsWithLiteral =>
    "A parameter segment conflicts with an existing literal segment."
  | .paramNameMismatch =>
    "The parameter name does not match the existing parameter at this position."
  | .wildcardConflictsWithParam =>
    "A wildcard segment conflicts with an existing parameter segment."
  | .wildcardNotFinal =>
    "A wildcard segment must be the final segment in the route pattern."
  | .nullArgument => "Null argument."
  | .builderCorrupted =>
    "The builder tree is corrupted due to a failed route insertion; start afresh with a new builder."

/-- Every code has a text of its own. -/
theorem wrouterStrerror_injective : Function.Injective wrouterStrerror := by
  intro e e' h
  revert h
  cases e <;> cases e' <;> decide

/-- A handler and a context, both opaque addresses to the library; 0 is NULL. -/
structure Route where
  handler : Nat
  ctx : Nat
  deriving DecidableEq, Repr

inductive ParamSyntax where
  | colon
  | brace
  | angle
  deriving DecidableEq, Repr

/-- `wrouter_options_t`; a callback matters only by being installed or not. -/
structure Options where
  fallbackHandler : Nat
  fallbackCtx : Nat
  paramSyntax : ParamSyntax
  retain : Bool
  release : Bool
  deriving DecidableEq, Repr

/-- Parameters as `:name`, no fallback and no callbacks. -/
def plainOptions : Options := ⟨0, 0, .colon, false, false⟩

structure Block where
  id : Nat
  addr : Nat
  deriving DecidableEq, Repr

inductive Event where
  | alloc (block size : Nat)
  | free (block : Nat)
  | retain (ctx : Nat)
  | release (ctx : Nat)
  deriving DecidableEq, Repr

structure World where
  answers : List (Option Nat)
  next : Nat
  trace : List Event
  deriving DecidableEq, Repr

def World.empty : World := ⟨[], 0, []⟩

/-- A pointer that owns its block, with what the block holds. -/
structure Ptr (α : Type) where
  block : Block
  data : α
  deriving DecidableEq, Repr

/-- `malloc` and `calloc` differ only in the contents, which the caller sets. -/
def World.malloc (w : World) (size : Nat) : Option Block × World :=
  match w.answers with
  | [] => (some ⟨w.next, 0⟩, { w with next := w.next + 1, trace := w.trace ++ [.alloc w.next size] })
  | some a :: rest =>
    (some ⟨w.next, a⟩,
      { answers := rest, next := w.next + 1, trace := w.trace ++ [.alloc w.next size] })
  | none :: rest => (none, { w with answers := rest })

/-- `free(NULL)` does nothing. -/
def World.free (w : World) (b : Option Block) : World :=
  match b with
  | none => w
  | some b => { w with trace := w.trace ++ [.free b.id] }

/-- A callback runs only if it is installed. -/
def World.retain (w : World) (installed : Bool) (ctx : Nat) : World :=
  if installed then { w with trace := w.trace ++ [.retain ctx] } else w

def World.release (w : World) (installed : Bool) (ctx : Nat) : World :=
  if installed then { w with trace := w.trace ++ [.release ctx] } else w

/-- Whether an allocation succeeds, and what is left to answer, is fixed by the answers alone. -/
theorem malloc_answers (w v : World) (h : w.answers = v.answers) (m n : Nat) :
    (w.malloc m).1.isSome = (v.malloc n).1.isSome ∧
      (w.malloc m).2.answers = (v.malloc n).2.answers := by
  unfold World.malloc
  rw [h]
  split <;> exact ⟨rfl, rfl⟩

/-- A block that is handed out is the next one, and the trace has it. -/
theorem malloc_fresh {w w' : World} {n : Nat} {b : Block} (h : w.malloc n = (some b, w')) :
    b.id = w.next ∧ w'.next = w.next + 1 ∧ w'.trace = w.trace ++ [.alloc w.next n] := by
  unfold World.malloc at h
  split at h <;> simp only [Prod.mk.injEq, Option.some.injEq, reduceCtorEq, false_and] at h <;>
    obtain ⟨rfl, rfl⟩ := h <;> exact ⟨rfl, rfl, rfl⟩

theorem malloc_none {w w' : World} {n : Nat} (h : w.malloc n = (none, w')) :
    w'.next = w.next ∧ w'.trace = w.trace := by
  unfold World.malloc at h
  split at h <;> simp only [Prod.mk.injEq, reduceCtorEq, false_and, true_and] at h
  subst h
  exact ⟨rfl, rfl⟩

/-- A refusal is the next answer, and every call uses one up. -/
theorem malloc_refused (w : World) (n : Nat) :
    ((w.malloc n).1 = none ↔ w.answers[0]? = some none) ∧
      (w.malloc n).2.answers = w.answers.tail := by
  unfold World.malloc
  split <;> rename_i h <;> simp [h]

@[simp] theorem free_answers (w : World) (b : Option Block) : (w.free b).answers = w.answers := by
  cases b <;> rfl

@[simp] theorem retain_answers (w : World) (i : Bool) (ctx : Nat) :
    (w.retain i ctx).answers = w.answers := by
  cases i <;> rfl

@[simp] theorem release_answers (w : World) (i : Bool) (ctx : Nat) :
    (w.release i ctx).answers = w.answers := by
  cases i <;> rfl

end Wrouter
