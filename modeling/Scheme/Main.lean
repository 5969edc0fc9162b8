import Scheme.Cli

/-!
# The program

Everything that touches the world: arguments, streams and files. An action of the interpreter
that asks for a file nobody has looked at halts; the file is then looked at and the action starts
again from the machine that it had started from.
-/

namespace Scheme.Main

open EvalM

/-- What is on disk under a name. An error code may come with its sign turned. -/
def look (name : String) : IO FileEntry := do
  try
    let bytes ← IO.FS.readBinFile name
    match (← (← IO.FS.realPath name).metadata).type with
    | .other => return .device bytes
    | _ => return .file bytes
  catch
    | .inappropriateType _ code _ => return if code = 21 then .directory else .throughFile
    | .invalidArgument _ code _ =>
      return if code = 36 || code + 36 = 0 then .tooLong else .absent
    | _ => return .absent

/-- The files that have been looked at. -/
abbrev Known := List (String × FileEntry)

/-- Shows what has been written since the last time. -/
def flush (m : Machine) : IO Machine := do
  let stdout ← IO.getStdout
  let stderr ← IO.getStderr
  stdout.putStr m.out
  stdout.flush
  stderr.putStr m.err
  return { m with out := "", err := "" }

/-- Runs an action that handles its faults itself, and shows what it wrote. -/
partial def perform {α : Type} (known : Known) (m : Machine) (x : EvalM α) :
    IO (Option α × Known × Machine) := do
  match x { m with files := fun name => (known.lookup name).getD .unread } with
  | .ok a m => return (some a, known, ← flush m)
  | .error (.halt (.unreadFile name)) _ => perform ((name, ← look name) :: known) m x
  | .error _ m => return (none, known, ← flush m)

/-- The bytes of the next line of a stream, with its newline, behind those read so far. -/
partial def readLine (stream : IO.FS.Stream) (read : ByteArray) : IO ByteArray := do
  let next ← stream.read 1
  match next.toList with
  | [] => return read
  | b :: _ => if b = 10 then return read.push b else readLine stream (read.push b)

/-- Reads, evaluates and prints typed input line by line. -/
partial def converse (known : Known) (m : Machine) (buffer : List Char) : IO UInt32 := do
  let (_, known, m) ← perform known m (Repl.showPrompt (some Cli.prompt) buffer)
  let line ← readLine (← IO.getStdin) ByteArray.empty
  if line.isEmpty then
    let _ ← perform known m (Repl.close buffer)
    return 0
  else
    match Text.decode? line.toList with
    | some cs =>
      let (pending, known, m) ←
        perform known m (Repl.turn evaluate Machine.globalFrame (buffer ++ cs))
      converse known m (pending.getD [])
    | none =>
      let (_, _, _) ← perform known m Cli.invalidInput
      return 1

end Scheme.Main

open Scheme in
/-- Runs the interpreter on the arguments of the command line. -/
def main (args : List String) : IO UInt32 := do
  match Cli.Options.ofArgs args with
  | .error e =>
    (← IO.getStderr).putStr (e.message ++ "\n")
    return 1
  | .ok o =>
    let m := Session.new fun _ => .unread
    let (status, known, m) ← Main.perform [] m (Cli.loadAll o.load)
    if status != some 0 then return 1
    else if o.quit then return 0
    else
      match o.script with
      | some path =>
        let (status, _, _) ← Main.perform known m (Cli.runScript path)
        return UInt32.ofNat (status.getD 1)
      | none => Main.converse known m []
