import Scheme.Datum
import Scheme.Token

/-!
# The reader

`Datum.read` reads the first datum of a text. It takes one token at a time and keeps the
expressions that are still open on a stack: a quotation that waits for its datum, a list with the
elements read so far, a dotted list that waits for its tail or for its closing mark. A finished
datum goes to the innermost open expression, and when none is open it is the answer.

When the text ends inside an expression the reading is `incomplete`, since more text could finish
it; when nothing but blanks and comments is left it is `finished`.
-/

namespace Scheme

/-- Why a text spells no datum. -/
inductive Misspelling where
  | invalidToken (text : String)
  | invalidNumeral (text : String)
  | strayClosing
  | strayDot
  /-- A dot directly behind the opening mark of a list. -/
  | leadingDot
  /-- Something other than the closing mark behind the tail of a dotted list. -/
  | crowdedTail
deriving DecidableEq, Repr

/-- Why reading gave no datum. -/
inductive ReadError where
  | misspelt (m : Misspelling)
  /-- No expression is left. -/
  | finished
  /-- The text ends inside an expression. -/
  | incomplete
deriving DecidableEq, Repr

namespace Misspelling

/-- The wording of a misspelling. -/
def message : Misspelling → String
  | invalidToken text => "invalid token: " ++ text
  | invalidNumeral text => "invalid numeral: " ++ text
  | strayClosing => "unexpected ')'"
  | strayDot => "unexpected '.'"
  | leadingDot => "'.' must follow a list element"
  | crowdedTail => "expected one element after '.'"

end Misspelling

namespace ReadError

/-- The wording of a failed reading. -/
def message : ReadError → String
  | misspelt m => "syntax error: " ++ m.message
  | finished => "end of input"
  | incomplete => "unexpected end of input"

end ReadError

/-! ## Atoms -/

namespace Datum

/-- The number that a numeral spells: a double if there is a point or a power mark in it. -/
def ofNumeral (text : String) : Except Misspelling Datum :=
  let cs := text.toList
  if cs.contains '.' || cs.contains 'e' || cs.contains 'E' then
    match Numeral.decimal? cs with
    | some f => .ok (.float f)
    | none => .error (.invalidNumeral text)
  else
    match Numeral.integer? cs with
    | some i => .ok (.int i)
    | none => .error (.invalidNumeral text)

/-- The datum that a symbol token names: three of them spell constants. -/
def ofSymbol (text : String) : Datum :=
  if text = "nil" then .nil
  else if text = "true" then .bool true
  else if text = "false" then .bool false
  else .sym text

end Datum

/-! ## Open expressions -/

/-- An expression whose end has not been read. Elements are kept last first. -/
inductive OpenExpr where
  /-- A quotation that waits for its datum. -/
  | quotation
  /-- A list that waits for an element, a dot or its closing mark. -/
  | list (read : List Datum)
  /-- A list behind its dot that waits for the tail. -/
  | dotted (read : List Datum)
  /-- A dotted list that waits for its closing mark. -/
  | tailed (read : List Datum) (tail : Datum)

/-- The state of a reading between two tokens: the open expressions, innermost first, or the
datum that closed the last of them. -/
inductive Progress where
  | done (d : Datum)
  | more (stack : List OpenExpr)

namespace Progress

/-- Hands a datum to the innermost open expression. -/
def give (d : Datum) : List OpenExpr → Progress
  | [] => .done d
  | .quotation :: stack => give d.quoting stack
  | .list read :: stack => .more (.list (d :: read) :: stack)
  | .dotted read :: stack => .more (.tailed read d :: stack)
  | .tailed read tail :: stack => .more (.tailed read tail :: stack)

/-- The progress that one token makes where a datum may start. -/
def begin (t : Token) (stack : List OpenExpr) : Except Misspelling Progress :=
  match t with
  | .number text => (Datum.ofNumeral text).map (give · stack)
  | .string text => .ok (give (.str text) stack)
  | .boolean b => .ok (give (.bool b) stack)
  | .symbol text => .ok (give (Datum.ofSymbol text) stack)
  | .opening => .ok (.more (.list [] :: stack))
  | .quote => .ok (.more (.quotation :: stack))
  | .closing =>
    match stack with
    | .list read :: outer => .ok (give (Datum.chain .nil read) outer)
    | _ => .error .strayClosing
  | .dot =>
    match stack with
    | .list [] :: _ => .error .leadingDot
    | .list read :: outer => .ok (.more (.dotted read :: outer))
    | _ => .error .strayDot

/-- The progress that one token makes: behind the tail of a dotted list only the closing mark is
taken. -/
def feed (t : Token) : List OpenExpr → Except Misspelling Progress
  | .tailed read tail :: outer =>
    if t = .closing then .ok (give (Datum.chain tail read) outer) else .error .crowdedTail
  | stack => begin t stack

end Progress

/-! ## Reading -/

/-- An answer of the reader together with the text behind what it took. -/
abbrev Reading := Except ReadError Datum × List Char

namespace Datum

/-- Reads on with the given expressions open. -/
def readWithin (stack : List OpenExpr) (cs : List Char) : Reading :=
  match h : Lexeme.next cs with
  | (.finished, rest) =>
    (.error (if stack.isEmpty then .finished else .incomplete), rest)
  | (.unclosed, rest) => (.error .incomplete, rest)
  | (.invalid text, rest) => (.error (.misspelt (.invalidToken text)), rest)
  | (.token t, rest) =>
    have : rest.length < cs.length := Lexeme.rest_lt_of_token h
    match Progress.feed t stack with
    | .error m => (.error (.misspelt m), rest)
    | .ok (.done d) => (.ok d, rest)
    | .ok (.more stack') => readWithin stack' rest
termination_by cs.length

/-- Reads the first datum of a text. -/
def read (cs : List Char) : Reading := readWithin [] cs

/-- The first datum of a text. -/
def ofText (s : String) : Except ReadError Datum := (read s.toList).1

/-! ## Progress -/

theorem next_rest_le (cs : List Char) : (Lexeme.next cs).2.length ≤ cs.length := by
  by_cases h : (Lexeme.next cs).1 = .finished
  · unfold Lexeme.next at h ⊢
    have := Lexeme.skip_length_le false cs
    revert h
    cases hs : Lexeme.skip false cs with
    | nil => simp
    | cons c rest =>
      intro _
      have := Lexeme.start_length_le c rest
      simp only [hs, List.length_cons] at *
      omega
  · exact Nat.le_of_lt (Lexeme.rest_lt h)

/-- A reading never gives back more text than it was given. -/
theorem readWithin_rest_le (stack : List OpenExpr) (cs : List Char) :
    (readWithin stack cs).2.length ≤ cs.length := by
  fun_induction readWithin stack cs with
  | case1 stack cs rest h => simpa [h] using next_rest_le cs
  | case2 stack cs rest h => simpa [h] using next_rest_le cs
  | case3 stack cs text rest h => simpa [h] using next_rest_le cs
  | case4 stack cs t rest h hlt m hf => simpa [h] using next_rest_le cs
  | case5 stack cs t rest h hlt d hf => simpa [h] using next_rest_le cs
  | case6 stack cs t rest h hlt stack' hf ih =>
    exact Nat.le_trans ih (Nat.le_of_lt hlt)

/-- A reading that gives a datum takes at least one character. -/
theorem rest_lt_of_readWithin {stack : List OpenExpr} {cs rest : List Char} {d : Datum}
    (h : readWithin stack cs = (.ok d, rest)) : rest.length < cs.length := by
  rw [readWithin] at h
  split at h
  · simp at h
  · simp at h
  · simp at h
  · next t rest' hn =>
    have hlt := Lexeme.rest_lt_of_token hn
    split at h
    · simp at h
    · simp only [Prod.mk.injEq] at h
      simpa [← h.2] using hlt
    · next stack' _ =>
      have := readWithin_rest_le stack' rest'
      rw [h] at this
      exact Nat.lt_of_le_of_lt this hlt

/-- A datum takes at least one character. -/
theorem rest_lt_of_read {cs rest : List Char} {d : Datum} (h : read cs = (.ok d, rest)) :
    rest.length < cs.length :=
  rest_lt_of_readWithin h

end Datum

end Scheme
