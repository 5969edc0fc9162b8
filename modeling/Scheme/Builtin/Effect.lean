import Scheme.Builtin.Number
import Scheme.Builtin.Predicate
import Scheme.Machine

/-!
# Procedures with an effect

Procedures that make new pairs, write to the standard output, or serve an embedding program. None
of them evaluates anything.
-/

namespace Scheme

open EvalM

namespace ListOp

/-- The first part of a pair. -/
def first : Value → Except Fault Value
  | .pair _ a _ => .ok a
  | _ => .error .notPair

/-- The second part of a pair. -/
def second : Value → Except Fault Value
  | .pair _ _ d => .ok d
  | _ => .error .notPair

/-- The elements of all but the last argument, copied in front of the last, which is kept. -/
def appendAll (args : List Value) : EvalM Value :=
  match args.getLast? with
  | none => pure .nil
  | some last => do
    let lists ← check (args.dropLast.mapM Arguments.list)
    consReversed last lists.flatten.reverse

/-- What a procedure on lists does. -/
def run (args : List Value) : ListOp → EvalM Value
  | car => check (Arguments.one args >>= first)
  | cdr => check (Arguments.one args >>= second)
  | cons => do
    let (a, d) ← check (Arguments.two args)
    EvalM.cons a d
  | list => newList args
  | append => appendAll args
  | length => do
    let items ← check (Arguments.one args >>= Arguments.list)
    return .int items.length

end ListOp

namespace OutputOp

/-- What an output procedure does. -/
def run (args : List Value) : OutputOp → EvalM Value
  | display => do
    let v ← check (Arguments.one args)
    emit (← displayedNow v)
    return .undefined
  | print => do
    let v ← check (Arguments.one args)
    emit ((← writtenNow v) ++ "\n")
    return .undefined
  | newline => do
    check (Arguments.none args)
    emit "\n"
    return .undefined

end OutputOp

namespace HostOp

/-- What an embedding program's procedure does. -/
def run (args : List Value) : HostOp → EvalM Value
  | here =>
    match args.getLast? with
    | some v => pure v
    | none => EvalM.fail .missingFrame
  | fail =>
    match args with
    | [] => EvalM.fail (.custom "")
    | v :: _ => do EvalM.fail (.custom (← displayedNow v))

end HostOp

end Scheme
