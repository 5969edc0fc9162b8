import Scheme.Reader

/-!
# Programs

A program is a text taken as a sequence of expressions. `Program.ofChars` reads expressions as
long as it can; how it stops is the `Ending`: the text is finished, it ends inside an expression,
whose text is kept, or it is misspelt. Whoever runs a program decides what an ending means.
-/

namespace Scheme

/-- Where the reading of a program stopped. -/
inductive Ending where
  | finished
  /-- The text ends inside an expression; `pending` starts where the one before it ended. -/
  | incomplete (pending : List Char)
  | misspelt (m : Misspelling)
deriving DecidableEq, Repr

/-- The expressions of a text in front of its ending. -/
structure Program where
  exprs : List Datum
  ending : Ending

namespace Ending

/-- The error that an ending other than the end of the text is. -/
def error? : Ending → Option ReadError
  | finished => none
  | incomplete _ => some .incomplete
  | misspelt m => some (.misspelt m)

/-- The ending of a text on which reading fails. -/
def ofError (cs : List Char) : ReadError → Ending
  | .finished => .finished
  | .incomplete => .incomplete cs
  | .misspelt m => .misspelt m

end Ending

namespace Program

/-- Reads on; `read` holds the expressions so far, last first. -/
def ofCharsOnto (read : List Datum) (cs : List Char) : Program :=
  match h : Datum.read cs with
  | (.ok d, rest) =>
    have : rest.length < cs.length := Datum.rest_lt_of_read h
    ofCharsOnto (d :: read) rest
  | (.error e, _) => ⟨read.reverse, .ofError cs e⟩
termination_by cs.length

/-- The program that a text spells. -/
def ofChars (cs : List Char) : Program := ofCharsOnto [] cs

/-- The program that a text spells. -/
def ofText (s : String) : Program := ofChars s.toList

/-- All expressions of a text, if it has no other ending than its end. -/
def all (p : Program) : Except ReadError (List Datum) :=
  match p.ending.error? with
  | none => .ok p.exprs
  | some e => .error e

theorem ofCharsOnto_eq (read : List Datum) (cs : List Char) :
    ofCharsOnto read cs = ⟨read.reverse ++ (ofChars cs).exprs, (ofChars cs).ending⟩ := by
  have key : ∀ (n : Nat) (read : List Datum) (cs : List Char), cs.length ≤ n →
      ofCharsOnto read cs = ⟨read.reverse ++ (ofCharsOnto [] cs).exprs,
        (ofCharsOnto [] cs).ending⟩ := by
    intro n
    induction n with
    | zero =>
      intro read cs hn
      rw [ofCharsOnto.eq_def read, ofCharsOnto.eq_def []]
      split
      · next d rest h =>
        have := Datum.rest_lt_of_read h
        omega
      · next e rest h => simp
    | succ n ih =>
      intro read cs hn
      rw [ofCharsOnto.eq_def read, ofCharsOnto.eq_def []]
      split
      · next d rest h =>
        have := Datum.rest_lt_of_read h
        rw [ih (d :: read) rest (by omega), ih [d] rest (by omega)]
        simp
      · next e rest h => simp
  exact key cs.length read cs (Nat.le_refl _)

/-- A text that starts with an expression is the program of that expression and what the rest
spells. -/
theorem ofChars_of_read {cs rest : List Char} {d : Datum} (h : Datum.read cs = (.ok d, rest)) :
    ofChars cs = ⟨d :: (ofChars rest).exprs, (ofChars rest).ending⟩ := by
  rw [ofChars, ofCharsOnto.eq_def]
  split
  · next d' rest' h' =>
    rw [h] at h'
    simp only [Prod.mk.injEq, Except.ok.injEq] at h'
    obtain ⟨rfl, rfl⟩ := h'
    rw [ofCharsOnto_eq]
    simp
  · next e rest' h' => simp [h] at h'

/-- A text on which reading fails holds no expression. -/
theorem ofChars_of_error {cs rest : List Char} {e : ReadError}
    (h : Datum.read cs = (.error e, rest)) : ofChars cs = ⟨[], .ofError cs e⟩ := by
  rw [ofChars, ofCharsOnto.eq_def]
  split
  · next d' rest' h' => simp [h] at h'
  · next e' rest' h' =>
    rw [h] at h'
    simp only [Prod.mk.injEq, Except.error.injEq] at h'
    simp [h'.1]

end Program

end Scheme
