/-!
# Built-in procedures

The procedures that come with the interpreter, grouped by what they work on, and the names that
programs know them by. `Builtin.standard` lists those of every new session. The two of
`Builtin.hosting` are for a program that embeds the interpreter: one answers the calling frame,
the other always fails.
-/

namespace Scheme

/-- The order relations between numbers. -/
inductive Relation where
  | eq | lt | gt | le | ge
deriving DecidableEq, Repr

/-- Procedures on numbers. -/
inductive NumericOp where
  | add | sub | mul | div
  | quotient | remainder | modulo
  | abs | expt
  | compare (r : Relation)
  | even | odd | zero
deriving DecidableEq, Repr

/-- Procedures on pairs and lists. -/
inductive ListOp where
  | car | cdr | cons | list | append | length
deriving DecidableEq, Repr

/-- Tests of one value. -/
inductive Test where
  | null | pair | list | number | integer | symbol | string | boolean | procedure | atom | not
deriving DecidableEq, Repr

/-- Comparisons of two values. -/
inductive Likeness where
  /-- The same object. -/
  | same
  /-- The same structure. -/
  | equal
deriving DecidableEq, Repr

/-- Procedures that write to the standard output. -/
inductive OutputOp where
  | display | print | newline
deriving DecidableEq, Repr

/-- Procedures that evaluate; they are given the frame of the call. -/
inductive ControlOp where
  | eval | apply | load
deriving DecidableEq, Repr

/-- Procedures of an embedding program. -/
inductive HostOp where
  /-- Answers its last argument, the frame of the call. -/
  | here
  /-- Fails with its first argument as the message. -/
  | fail
deriving DecidableEq, Repr

/-- A built-in procedure. -/
inductive Builtin where
  | numeric (op : NumericOp)
  | list (op : ListOp)
  | test (t : Test)
  | likeness (l : Likeness)
  | output (op : OutputOp)
  | control (op : ControlOp)
  | host (op : HostOp)
deriving DecidableEq, Repr

/-! ## Names -/

/-- The name of a relation. -/
def Relation.name : Relation → String
  | eq => "="
  | lt => "<"
  | gt => ">"
  | le => "<="
  | ge => ">="

/-- The name of a procedure on numbers. -/
def NumericOp.name : NumericOp → String
  | add => "+"
  | sub => "-"
  | mul => "*"
  | div => "/"
  | quotient => "quotient"
  | remainder => "remainder"
  | modulo => "modulo"
  | abs => "abs"
  | expt => "expt"
  | compare r => r.name
  | even => "even?"
  | odd => "odd?"
  | zero => "zero?"

/-- The name of a procedure on lists. -/
def ListOp.name : ListOp → String
  | car => "car"
  | cdr => "cdr"
  | cons => "cons"
  | list => "list"
  | append => "append"
  | length => "length"

/-- The name of a test. -/
def Test.name : Test → String
  | null => "null?"
  | pair => "pair?"
  | list => "list?"
  | number => "number?"
  | integer => "integer?"
  | symbol => "symbol?"
  | string => "string?"
  | boolean => "boolean?"
  | procedure => "procedure?"
  | atom => "atom?"
  | not => "not"

/-- The name of a comparison. -/
def Likeness.name : Likeness → String
  | same => "eq?"
  | equal => "equal?"

/-- The name of an output procedure. -/
def OutputOp.name : OutputOp → String
  | display => "display"
  | print => "print"
  | newline => "newline"

/-- The name of a procedure that evaluates. -/
def ControlOp.name : ControlOp → String
  | eval => "eval"
  | apply => "apply"
  | load => "load"

/-- The name of an embedding program's procedure. -/
def HostOp.name : HostOp → String
  | here => "here"
  | fail => "fail"

namespace Builtin

/-- The name by which programs know a built-in procedure. -/
def name : Builtin → String
  | numeric op => op.name
  | list op => op.name
  | test t => t.name
  | likeness l => l.name
  | output op => op.name
  | control op => op.name
  | host op => op.name

/-- Whether the frame of the call is passed behind the arguments. -/
def wantsFrame : Builtin → Bool
  | control _ => true
  | host .here => true
  | _ => false

/-- The procedures of every session. -/
def standard : List Builtin :=
  [.control .eval, .control .apply, .control .load,
   .numeric .add, .numeric .sub, .numeric .mul, .numeric .div, .numeric .quotient,
   .numeric .remainder, .numeric .modulo, .numeric .abs, .numeric .expt,
   .numeric (.compare .eq), .numeric (.compare .lt), .numeric (.compare .gt),
   .numeric (.compare .le), .numeric (.compare .ge),
   .numeric .even, .numeric .odd, .numeric .zero,
   .list .car, .list .cdr, .list .cons, .list .list, .list .append, .list .length,
   .test .null, .test .pair, .test .list, .test .number, .test .integer, .test .symbol,
   .test .string, .test .boolean, .test .procedure, .test .atom, .test .not,
   .likeness .same, .likeness .equal,
   .output .display, .output .print, .output .newline]

/-- The procedures that an embedding program may add. -/
def hosting : List Builtin := [.host .here, .host .fail]

/-- Every procedure but those of an embedding program is standard. -/
theorem mem_standard_iff (b : Builtin) : b ∈ standard ↔ ∀ op, b ≠ .host op := by
  constructor
  · rintro h op rfl
    cases op <;> simp [standard] at h
  · intro h
    cases b with
    | numeric op =>
      cases op with
      | compare r => cases r <;> simp [standard]
      | _ => simp [standard]
    | list op => cases op <;> simp [standard]
    | test t => cases t <;> simp [standard]
    | likeness l => cases l <;> simp [standard]
    | output op => cases op <;> simp [standard]
    | control op => cases op <;> simp [standard]
    | host op => exact absurd rfl (h op)

end Builtin

end Scheme
