import Scheme.Program
import Scheme.Step

/-!
# Loading

Loading a text evaluates its expressions in order. One that fails is reported on the error stream
and the next is evaluated all the same; the number of failures is the result. Where the text
cannot be read on, loading itself fails, and what was evaluated before stays.

A file is found under its name or under its name with the extension. Its expressions are
evaluated in the global frame.
-/

namespace Scheme

open EvalM

/-- The line that reports a fault. -/
def report (f : Fault) : EvalM String := do
  return "Error: " ++ (← messageNow f) ++ "\n"

/-- Evaluates the expression that a datum is. -/
def evalDatum (ev : Evaluator) (f : FrameId) (d : Datum) : EvalM Value := do
  ev (.eval (← embed d) f)

/-- Evaluates one expression of a loaded text and counts it if it fails. -/
def loadDatum (ev : Evaluator) (f : FrameId) (failures : Nat) (d : Datum) : EvalM Nat := do
  match ← attempt (evalDatum ev f d) with
  | .ok _ => return failures
  | .error fault =>
    emitError (← report fault)
    return failures + 1

/-- Evaluates the expressions of a text that came from `origin`. -/
def loadProgram (ev : Evaluator) (origin : String) (f : FrameId) (p : Program) : EvalM Nat := do
  let failures ← p.exprs.foldlM (loadDatum ev f) 0
  match p.ending.error? with
  | none => return failures
  | some e => fail (.unreadableSource origin e)

/-- Evaluates the expressions of a text in a frame. -/
def loadSource (ev : Evaluator) (source origin : String) (f : FrameId) : EvalM Nat :=
  loadProgram ev origin f (Program.ofText source)

/-- The extension of files that hold programs. -/
def extension : String := ".scm"

/-- The contents of a file, if there is one of this name. -/
def contents? (name : String) : EvalM (Option ByteArray) := fun m =>
  match m.files name with
  | .file bytes => .ok (some bytes) m
  | .unread => .error (.halt (.unreadFile name)) m
  | _ => .ok none m

/-- The file of this name, or of this name with the extension: its path and contents. -/
def findSource (name : String) : EvalM (String × ByteArray) := do
  match ← contents? name with
  | some bytes => return (name, bytes)
  | none =>
    match ← contents? (name ++ extension) with
    | some bytes => return (name ++ extension, bytes)
    | none => fail (.cannotOpen name)

/-- The global frame above a frame. -/
def rootFrame (f : FrameId) : EvalM FrameId := fun m => .ok (m.store.root f) m

/-- Evaluates the expressions of a file in the global frame above `f`. -/
def loadFile (ev : Evaluator) (name : String) (f : FrameId) : EvalM Nat := do
  let (path, bytes) ← findSource name
  match String.fromUTF8? bytes with
  | some source => loadSource ev source path (← rootFrame f)
  | none => fail (.notText path)

end Scheme
