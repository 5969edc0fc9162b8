import Scheme.Session

/-!
# The command line

Options name files to load before anything else, in order, and say whether to stop then. A
script, if there is one, is worked through like typed input but without a prompt; else the
standard input is. A file that cannot be loaded ends the program at once.
-/

namespace Scheme

open EvalM

namespace Cli

/-- What the arguments ask for. -/
structure Options where
  /-- Files to load first. -/
  load : List String
  /-- Stop after loading. -/
  quit : Bool
  script : Option String
deriving DecidableEq, Repr

/-- Why arguments cannot be understood. -/
inductive UsageError where
  | unrecognized (arg : String)
  | missingValue (option : String)
deriving DecidableEq, Repr

/-- The wording of an error in the arguments. -/
def UsageError.message : UsageError → String
  | unrecognized arg => "Unrecognized argument: " ++ arg
  | missingValue option => "No value provided for option '" ++ option ++ "'."

/-- Takes an argument that is no option. -/
def Options.positional (o : Options) (arg : String) : Except UsageError Options :=
  match o.script with
  | none => .ok { o with script := some arg }
  | some _ => .error (.unrecognized arg)

/-- Takes the remaining arguments; behind `--` none is an option. -/
def Options.parse (o : Options) : List String → Except UsageError Options
  | [] => .ok o
  | arg :: rest =>
    if arg = "-f" ∨ arg = "--file" then
      match rest with
      | [] => .error (.missingValue arg)
      | name :: rest => parse { o with load := o.load ++ [name] } rest
    else if arg = "-q" ∨ arg = "--quit" then parse { o with quit := true } rest
    else if arg = "--" then rest.foldlM Options.positional o
    else if arg.toList.head? = some '-' then .error (.unrecognized arg)
    else do parse (← o.positional arg) rest

/-- What the arguments ask for. -/
def Options.ofArgs (args : List String) : Except UsageError Options :=
  Options.parse ⟨[], false, none⟩ args

/-- The prompt for typed input. -/
def prompt : String := "scm> "

/-- Loads files in order. The exit status is that of a failure if one cannot be loaded. -/
def loadAll : List String → EvalM Nat
  | [] => pure 0
  | name :: rest => do
    match ← attempt (loadFile evaluate name Machine.globalFrame) with
    | .ok _ => loadAll rest
    | .error fault =>
      emitError (← report fault)
      pure 1

/-- The report of an input that cannot be read, with the exit status. -/
def cannotRead (reason : String) : EvalM Nat := do
  emitError ("I/O error: " ++ reason ++ "\n")
  pure 1

/-- The report of an input that is no text. -/
def invalidInput : EvalM Nat := cannotRead Repl.invalidInput

/-- Works through an input and gives the exit status. -/
def interact (prompt : Option String) (input : ByteArray) : EvalM Nat := do
  if ← repl evaluate Machine.globalFrame prompt input then pure 0 else invalidInput

/-- The report of a script that cannot be opened. -/
def cannotOpenScript (path reason : String) : EvalM Nat := do
  emitError ("Error: could not open file '" ++ path ++ "': " ++ reason ++ "\n")
  pure 1

/-- Works through a script and gives the exit status. -/
def runScript (path : String) : EvalM Nat := fun m =>
  match m.files path with
  | .file bytes => interact none bytes m
  | .device bytes => interact none bytes m
  | .directory => cannotRead "Is a directory (os error 21)" m
  | .absent => cannotOpenScript path "No such file or directory (os error 2)" m
  | .throughFile => cannotOpenScript path "Not a directory (os error 20)" m
  | .tooLong => cannotOpenScript path "File name too long (os error 36)" m
  | .unread => .error (.halt (.unreadFile path)) m

/-- Runs the program with the contents of the standard input and gives the exit status. -/
def run (o : Options) (stdin : ByteArray) : EvalM Nat := do
  let status ← loadAll o.load
  if status ≠ 0 then pure status
  else if o.quit then pure 0
  else
    match o.script with
    | some path => runScript path
    | none => interact (some prompt) stdin

end Cli

end Scheme
