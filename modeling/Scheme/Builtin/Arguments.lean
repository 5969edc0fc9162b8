import Scheme.Value.List

/-!
# Arguments of built-in procedures

Checks that built-in procedures share. Each gives what the procedure works on, or the fault that
it reports.
-/

namespace Scheme.Arguments

/-- Exactly one argument. -/
def one : List Value → Except Fault Value
  | [v] => .ok v
  | args => .error (.wrongCount 1 args.length)

/-- Exactly two arguments. -/
def two : List Value → Except Fault (Value × Value)
  | [v, w] => .ok (v, w)
  | args => .error (.wrongCount 2 args.length)

/-- No argument. -/
def none : List Value → Except Fault Unit
  | [] => .ok ()
  | args => .error (.wrongCount 0 args.length)

/-- A number as a double. -/
def number (v : Value) : Except Fault Float :=
  match v.toFloat? with
  | some f => .ok f
  | Option.none => .error (.notNumber v)

/-- A number as it is. -/
def numeric : Value → Except Fault Value
  | .int i => .ok (.int i)
  | .float f => .ok (.float f)
  | v => .error (.notNumber v)

/-- An integer. -/
def integer : Value → Except Fault Int
  | .int i => .ok i
  | v => .error (.notInteger v)

/-- A proper list, by its elements. -/
def list (v : Value) : Except Fault (List Value) :=
  match v.spine with
  | (xs, .nil) => .ok xs
  | _ => .error (.notList v)

/-- The frame of the call, which stands behind the other arguments. -/
def withFrame (args : List Value) : Except Fault (List Value × FrameId) :=
  match args.getLast? with
  | some (.env f) => .ok (args.dropLast, f)
  | _ => .error .missingFrame

end Scheme.Arguments
