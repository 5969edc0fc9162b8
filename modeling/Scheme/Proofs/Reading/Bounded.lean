import Scheme.Proofs.Reading.Lines
import Scheme.Session

/-!
# Reading by computation

The reader goes on while there is text, and the length of what is left shows that it comes to an
end. To read a given text by computation, `Program.readBounded` goes on for a given number of
tokens instead; what it gives is what the text spells (`Program.all_of_readBounded`), and so what is
evaluated (`Session.evalText_of_readBounded`).
-/

namespace Scheme

namespace Program

/-- Reads the expressions of a text with at most this many tokens. -/
def readBounded : (bound : Nat) → List OpenExpr → List Char → Option (List Datum)
  | 0, _, _ => none
  | n + 1, stack, cs =>
    match Lexeme.next cs with
    | (.finished, _) => if stack.isEmpty then some [] else none
    | (.token t, rest) =>
      match Progress.feed t stack with
      | .ok (.done d) => (readBounded n [] rest).map (d :: ·)
      | .ok (.more stack') => readBounded n stack' rest
      | .error _ => none
    | _ => none

/-- Inside of open expressions the first of the data closes the last of them. -/
theorem readBounded_cases {n : Nat} {stack : List OpenExpr} {cs : List Char}
    {ds : List Datum} (h : readBounded n stack cs = some ds) :
    (stack = [] ∧ ofChars cs = ⟨ds, .finished⟩) ∨
    ∃ d ds' rest, ds = d :: ds' ∧ Datum.readWithin stack cs = (.ok d, rest) ∧
      ofChars rest = ⟨ds', .finished⟩ := by
  induction n generalizing stack cs ds with
  | zero => simp [readBounded] at h
  | succ n ih =>
    rw [readBounded] at h
    split at h
    · next rest hnext =>
      split at h
      · next hstack =>
        obtain rfl := List.isEmpty_iff.mp hstack
        obtain rfl := Option.some.inj h
        have hread : Datum.read cs = (.error .finished, rest) := by
          rw [Datum.read, Datum.readWithin_eq, hnext]
          rfl
        exact .inl ⟨rfl, ofChars_of_error hread⟩
      · simp at h
    · next t rest hnext =>
      split at h
      · next d hfeed =>
        obtain ⟨ds', hds', rfl⟩ := Option.map_eq_some_iff.mp h
        refine .inr ⟨d, ds', rest, rfl, Datum.readWithin_token hnext hfeed, ?_⟩
        rcases ih hds' with ⟨-, hrest⟩ | ⟨d', ds'', rest', rfl, hread, hrest⟩
        · exact hrest
        · rw [ofChars_of_read hread, hrest]
      · next stack' hfeed =>
        have hresume : Datum.readWithin stack cs = Datum.readWithin stack' rest :=
          Datum.readWithin_token hnext hfeed
        rw [hresume]
        rcases ih h with ⟨rfl, -⟩ | hrest
        · exact absurd hfeed (Progress.feed_ne_more_nil t stack)
        · exact .inr hrest
      · simp at h
    · simp at h

/-- What a bounded reading finds is what the program reads as. -/
theorem all_of_readBounded (n : Nat) {source : String} {ds : List Datum}
    (h : readBounded n [] source.toList = some ds) : (ofText source).all = .ok ds := by
  have hprogram : ofChars source.toList = ⟨ds, .finished⟩ := by
    rcases readBounded_cases h with ⟨-, hall⟩ | ⟨d, ds', rest, rfl, hread, hrest⟩
    · exact hall
    · rw [ofChars_of_read hread, hrest]
  rw [ofText, hprogram]
  rfl

end Program

namespace Session

/-- A text whose data a bounded reading has found is evaluated as these data. -/
theorem evalText_of_readBounded (n : Nat) {source : String} {ds : List Datum}
    (h : Program.readBounded n [] source.toList = some ds) :
    evalText source = evalAll .undefined ds := by
  rw [evalText, Program.all_of_readBounded n h]

/-- A rule to evaluate closed texts by. -/
theorem evalText_eq_evalAll (n : Nat) {source : String}
    (h : (Program.readBounded n [] source.toList).isSome = true) :
    evalText source = evalAll .undefined ((Program.readBounded n [] source.toList).getD []) := by
  obtain ⟨ds, hds⟩ := Option.isSome_iff_exists.mp h
  rw [hds]
  exact evalText_of_readBounded n hds

end Session

end Scheme
