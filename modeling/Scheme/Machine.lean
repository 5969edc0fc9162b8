import Scheme.Files
import Scheme.Store
import Scheme.Value.List

/-!
# The machine

An evaluation changes a `Machine`: the store of frames, the supply of labels for new objects, the
number of evaluations under way, and what has been written to the two output streams. The files
that programs can load are given.

An action in `EvalM` either gives a result or stops, and the changes made until then stay either
way. It stops for a fault, which programs can cause and sessions report, or it halts for a reason
outside the language: the fuel is used up, or a file is asked for that has not been read yet.

`nested` counts an evaluation while it runs: past `maxDepth` it faults, and the count is the same
again when it is over, whatever the outcome.
-/

namespace Scheme

/-- The state of an interpreter. -/
structure Machine where
  store : Store
  /-- The next label; every label in use is below it. -/
  nextLabel : Label
  /-- The number of evaluations under way. -/
  depth : Nat
  /-- What was written to the standard output. -/
  out : String
  /-- What was written to the error stream. -/
  err : String
  files : String → FileEntry

/-- Reasons to stop that the language does not know of. -/
inductive Halt where
  | outOfFuel
  | unreadFile (name : String)
deriving DecidableEq, Repr

/-- Why an action stopped. -/
inductive Stop where
  | fault (f : Fault)
  | halt (h : Halt)

/-- Actions on a machine. -/
abbrev EvalM := EStateM Stop Machine

/-- At most this many evaluations are under way at once. -/
def maxDepth : Nat := 1000

namespace EvalM

/-- Stops for a fault. -/
def fail {α : Type} (f : Fault) : EvalM α := throw (.fault f)

/-- Halts. -/
def halt {α : Type} (h : Halt) : EvalM α := throw (.halt h)

/-- The outcome of a check as an action. -/
def check {α : Type} : Except Fault α → EvalM α
  | .ok a => pure a
  | .error f => fail f

/-- Runs an action and gives its fault as a result; it is not tried to go on after a halt. -/
def attempt {α : Type} (x : EvalM α) : EvalM (Except Fault α) := fun m =>
  match x m with
  | .ok a m => .ok (.ok a) m
  | .error (.fault f) m => .ok (.error f) m
  | .error (.halt h) m => .error (.halt h) m

/-- Runs an action as one more evaluation under way. -/
def nested {α : Type} (x : EvalM α) : EvalM α := fun m =>
  if maxDepth ≤ m.depth then .error (.fault .tooDeep) m
  else
    match x { m with depth := m.depth + 1 } with
    | .ok a m => .ok a { m with depth := m.depth - 1 }
    | .error e m => .error e { m with depth := m.depth - 1 }

/-! ## Objects -/

/-- A label that no object has. -/
def newLabel : EvalM Label := fun m =>
  .ok m.nextLabel { m with nextLabel := m.nextLabel + 1 }

/-- A new pair. -/
def cons (a d : Value) : EvalM Value := do
  return .pair (← newLabel) a d

/-- New pairs for the elements, given last first, in front of `tail`. -/
def consReversed (tail : Value) : List Value → EvalM Value
  | [] => pure tail
  | a :: rest => do consReversed (← cons a tail) rest

/-- A new list of the elements. -/
def newList (items : List Value) : EvalM Value := consReversed .nil items.reverse

/-- A new string. -/
def newString (s : String) : EvalM Value := do
  return .str (← newLabel) s

/-- Makes a datum a value, with new labels all through; `met` holds the elements of the list in
front of it, last first, if there is one. -/
def embedOnto (met : List Value) : Datum → EvalM Value
  | .int i => consReversed (.int i) met
  | .float f => consReversed (.float f) met
  | .bool b => consReversed (.bool b) met
  | .sym name => consReversed (.sym name) met
  | .nil => consReversed .nil met
  | .str s => do consReversed (← newString s) met
  | .pair a d => do embedOnto ((← embedOnto [] a) :: met) d

/-- Makes a datum a value, with new labels all through. -/
def embed (d : Datum) : EvalM Value := embedOnto [] d

/-- The results of an action on the elements of a list, from left to right. Where the chain ends
in something other than the empty list, the fault comes after its elements. -/
def mapItems (g : Value → EvalM Value) (v : Value) : EvalM (List Value) := do
  let (xs, fault?) := v.walk
  let ys ← xs.mapM g
  match fault? with
  | none => pure ys
  | some f => fail f

/-! ## Frames -/

/-- The value of a name seen from a frame. -/
def lookup (f : FrameId) (x : String) : EvalM Value := fun m =>
  match m.store.get? f x with
  | some v => .ok v m
  | none => .error (.fault (.unbound x)) m

/-- Binds a name in a frame. -/
def define (f : FrameId) (x : String) (v : Value) : EvalM Unit := fun m =>
  .ok () { m with store := m.store.define f x v }

/-- A new frame. -/
def newFrame (parent : Option FrameId) (bindings : Bindings) : EvalM FrameId := fun m =>
  .ok m.store.size { m with store := m.store.push ⟨parent, bindings⟩ }

/-! ## Output -/

/-- Writes to the standard output. -/
def emit (text : String) : EvalM Unit := fun m => .ok () { m with out := m.out ++ text }

/-- Writes to the error stream. -/
def emitError (text : String) : EvalM Unit := fun m => .ok () { m with err := m.err ++ text }

/-- The written form of a value in the present store. -/
def writtenNow (v : Value) : EvalM String := fun m =>
  .ok (v.written m.store.frameText) m

/-- The displayed form of a value in the present store. -/
def displayedNow (v : Value) : EvalM String := fun m =>
  .ok (v.displayed m.store.frameText) m

/-- The wording of a fault in the present store. -/
def messageNow (f : Fault) : EvalM String := fun m =>
  .ok (f.message m.store.frameText) m

end EvalM

namespace Machine

/-- A machine whose only frame is a global one with these built-in procedures. -/
def new (builtins : List Builtin) (files : String → FileEntry) : Machine where
  store := ⟨#[⟨none, Bindings.putAll [] (builtins.map fun b => (b.name, .builtin b))⟩]⟩
  nextLabel := Value.noLabel + 1
  depth := 0
  out := ""
  err := ""
  files := files

/-- The global frame of a machine. -/
def globalFrame : FrameId := 0

end Machine

end Scheme
