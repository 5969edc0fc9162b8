import Scheme.Fault

/-!
# How messages begin

Most faults have a wording of the interpreter's own, so their messages begin with words that do not
hang on what is at fault (`Fault.opening?`). None of these wordings begins like the name of a
standard procedure, nor does one of the names (`clash_openings`), so a text cannot be taken for
both. The message of a fault that is reported under a name begins with that name, whatever was
reported (`Fault.begins_under`).
-/

namespace Scheme

/-! ## How messages begin -/

/-- The text begins with the words `o`. -/
def Begins (o text : String) : Prop := o.toList <+: text.toList

instance (o text : String) : Decidable (Begins o text) :=
  inferInstanceAs (Decidable (o.toList <+: text.toList))

theorem Begins.append {o text : String} (h : Begins o text) (rest : String) :
    Begins o (text ++ rest) := by
  rw [Begins, String.toList_append]
  exact h.trans (List.prefix_append _ _)

theorem Begins.refl (text : String) : Begins text text := List.prefix_rfl

/-- Neither of two texts begins with the other. -/
def Clash (o o' : String) : Prop := ¬Begins o o' ∧ ¬Begins o' o

instance (o o' : String) : Decidable (Clash o o') := inferInstanceAs (Decidable (_ ∧ _))

/-- A text cannot begin in two ways that differ. -/
theorem Clash.not_begins {o o' text : String} (h : Clash o o') (ho : Begins o text) :
    ¬Begins o' text :=
  fun ho' => (List.prefix_or_prefix_of_prefix ho ho').elim h.1 h.2

/-- The words that the message of a fault begins with, if the interpreter has chosen them. -/
def Fault.opening? : Fault → Option String
  | undefinedExpression => some "Cannot evaluate an undefined expression."
  | unbound _ => some "unknown identifier: "
  | malformedList _ => some "malformed list: "
  | badlyFormed _ => some "badly formed expression: "
  | badForm .. => some "badly formed expression: "
  | tooFewOperands .. => some "too few operands in form: "
  | tooManyOperands .. => some "too many operands in form: "
  | arityMismatch .. => some "arity mismatch: expected "
  | badFormals _ => some "badly formed formals: "
  | badParameters _ => some "badly formed formals: "
  | duplicateParameter .. => some "badly formed formals: "
  | badDefine _ => some "bad argument to define: "
  | tooDeep => some "maximum recursion depth exceeded"
  | notCallable _ => some "Cannot call "
  | elseNotLast => some "else must be last"
  | emptyElse => some "badly formed else clause"
  | badBindings _ => some "bad bindings list in let form: "
  | badBinding _ => some "bad binding in let form: "
  | wrongCount .. => some "expects exactly "
  | tooFewArguments .. => some "expects at least "
  | notArgumentList _ => some "argument list expected, got "
  | notFileName _ => some "argument must be a symbol or string, got "
  | oneFileExpected _ => some "expected exactly 1 argument, got "
  | cannotOpen _ => some "could not open file '"
  | notText _ => some "could not read file '"
  | notNumber _ => some "expected a number, got "
  | notInteger _ => some "expected an integer, got "
  | divisionByZero => some "division by zero"
  | notComparable => some "cannot compare NaN"
  | notPair => some "argument must be a pair"
  | notList _ => some "argument must be a list, got "
  | missingFrame => some "missing calling environment"
  | unreadableSource .. => none
  | unreadable _ => none
  | custom _ => none
  | inside .. => none

/-- A message begins with the opening words of its fault. -/
theorem Fault.begins_opening {e : Fault} {o : String} (h : e.opening? = some o)
    (t : FrameId → String) : Begins o (e.message t) := by
  have hself := Begins.refl o
  cases e with
  | undefinedExpression | tooDeep | elseNotLast | emptyElse | divisionByZero | notComparable
  | notPair | missingFrame =>
    cases h
    exact hself
  | cannotOpen | notText =>
    cases h
    exact (hself.append _).append _
  | arityMismatch | wrongCount | tooFewArguments =>
    cases h
    exact ((hself.append _).append _).append _
  | duplicateParameter =>
    cases h
    exact (((hself.append _).append _).append _).append _
  | unreadableSource | unreadable | custom | inside => cases h
  | _ =>
    cases h
    exact hself.append _

/-- All words that messages begin with. -/
def openings : List String :=
  ["Cannot evaluate an undefined expression.", "unknown identifier: ", "malformed list: ",
    "badly formed expression: ", "too few operands in form: ", "too many operands in form: ",
    "arity mismatch: expected ", "badly formed formals: ", "bad argument to define: ",
    "maximum recursion depth exceeded", "Cannot call ", "else must be last",
    "badly formed else clause", "bad bindings list in let form: ", "bad binding in let form: ",
    "expects exactly ", "expects at least ", "argument list expected, got ",
    "argument must be a symbol or string, got ", "expected exactly 1 argument, got ",
    "could not open file '", "could not read file '", "expected a number, got ",
    "expected an integer, got ", "division by zero", "cannot compare NaN",
    "argument must be a pair", "argument must be a list, got ", "missing calling environment"]

theorem Fault.opening_mem {e : Fault} {o : String} (h : e.opening? = some o) : o ∈ openings := by
  cases e <;> cases h <;> simp [openings]

/-- No message begins like the name of a standard procedure. -/
theorem clash_openings : ∀ o ∈ openings, ∀ b ∈ Builtin.standard, Clash o b.name := by
  decide +kernel

/-- The names of the procedures that evaluate are told apart from all others by how they begin. -/
theorem clash_names : ∀ op ∈ [ControlOp.eval, ControlOp.apply],
    ∀ b ∈ Builtin.standard ++ Builtin.hosting, b ≠ .control op → Clash b.name op.name := by
  decide +kernel

namespace Fault

/-- A message that begins with the name stays as it is. -/
theorem under_of_begins {name message : String} (h : Begins name message) :
    under name message = message :=
  if_pos (List.isPrefixOf_iff_prefix.mpr h)

theorem under_of_not_begins {name message : String} (h : ¬Begins name message) :
    under name message = name ++ ": " ++ message :=
  if_neg fun hp => h (List.isPrefixOf_iff_prefix.mp hp)

/-- What is reported under a name begins with it. -/
theorem begins_under (name message : String) : Begins name (under name message) := by
  by_cases h : Begins name message
  · rwa [under_of_begins h]
  · rw [under_of_not_begins h]
    exact ((Begins.refl name).append _).append _

/-- The name and the colon are there if they were there already or if the name was not. -/
theorem begins_colon_under {name message : String}
    (h : Begins name message → Begins (name ++ ": ") message) :
    Begins (name ++ ": ") (under name message) := by
  by_cases hn : Begins name message
  · rw [under_of_begins hn]
    exact h hn
  · rw [under_of_not_begins hn]
    exact (Begins.refl _).append _

end Fault

end Scheme
