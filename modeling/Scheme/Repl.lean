import Scheme.Eval
import Scheme.Text.Lines

/-!
# The read-eval-print loop

Lines are taken one at a time. Each expression is evaluated as soon as it is complete and its
value is written on a line of its own, unless there is none. An expression that the line leaves
open waits in the buffer for the lines that follow. A fault or a misspelling is reported in the
output, and the rest of what has been read is dropped.
-/

namespace Scheme

open EvalM

namespace Repl

/-- The prompt while an expression is open. -/
def continuation : String := "... "

/-- Writes a value on a line of its own; what has no value is not written. -/
def printResult : Value → EvalM Unit
  | .undefined => pure ()
  | v => do emit ((← writtenNow v) ++ "\n")

/-- Evaluates expressions and prints their values, up to the first that fails. Tells whether none
did. -/
def evalPrint (ev : Evaluator) (f : FrameId) : List Datum → EvalM Bool
  | [] => pure true
  | d :: rest => do
    match ← attempt (evalDatum ev f d) with
    | .ok v =>
      printResult v
      evalPrint ev f rest
    | .error fault =>
      emit (← report fault)
      pure false

/-- Takes what has been read and not been dealt with, and gives what has to wait. -/
def turn (ev : Evaluator) (f : FrameId) (buffer : List Char) : EvalM (List Char) := do
  let p := Program.ofChars buffer
  if ← evalPrint ev f p.exprs then
    match p.ending with
    | .finished => pure []
    | .incomplete pending => pure pending
    | .misspelt m =>
      emit (← report (.unreadable (.misspelt m)))
      pure []
  else pure []

/-- Shows the prompt that fits the buffer, if there is one to show. -/
def showPrompt (prompt : Option String) (buffer : List Char) : EvalM Unit :=
  match prompt with
  | some p => emit (if Text.allBlank buffer then p else continuation)
  | none => pure ()

/-- The end of the input; an expression that is still open is reported. -/
def close (buffer : List Char) : EvalM Unit :=
  if Text.allBlank buffer then pure ()
  else do emit (← report (.unreadable .incomplete))

/-- Works through the lines of an input. Tells whether all of them were text. -/
def session (ev : Evaluator) (f : FrameId) (prompt : Option String) :
    (buffer : List Char) → List (Option (List Char)) → EvalM Bool
  | buffer, [] => do
    showPrompt prompt buffer
    close buffer
    pure true
  | buffer, none :: _ => do
    showPrompt prompt buffer
    pure false
  | buffer, some line :: rest => do
    showPrompt prompt buffer
    let pending ← turn ev f (buffer ++ line)
    session ev f prompt pending rest

/-- The failure of an input that is no text. -/
def invalidInput : String := "stream did not contain valid UTF-8"

end Repl

/-- Reads, evaluates and prints the expressions of some bytes in a frame. Tells whether the bytes
were text to their end. -/
def repl (ev : Evaluator) (f : FrameId) (prompt : Option String) (input : ByteArray) :
    EvalM Bool :=
  Repl.session ev f prompt [] (Text.inputLines input)

end Scheme
