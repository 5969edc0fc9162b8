import Scheme.Proofs.Reading.Bounded
import Scheme.Proofs.Reading.Grammar

/-!
# Reading a text that goes on

A text can come in pieces, and what is read from the first of them must not change when the next
one is there. Behind a newline it does not. A reading that gave a datum or found a misspelling gives
the same answer, up to the same position, whatever follows (`Datum.readFrom_append`).

For whole programs this means that they can be put together line by line: behind a text that is read
to its end, the expressions of what follows are added to those of the text
(`Program.ofChars_append_finished`), and behind a misspelling nothing is
(`Program.ofChars_append_misspelt`). `reading_stable` states it for texts with a newline between
them, which may end in an atom or in a comment.
-/

namespace Scheme

/-! ## Positions -/

namespace Datum

/-- Reads a datum from a position of a text on. The answer comes with the position behind what was
taken. -/
def readFrom (cs : List Char) (k : Nat) : Except ReadError Datum × Nat :=
  let reading := read (cs.drop k)
  (reading.1, cs.length - reading.2.length)

/-- A datum or a misspelling is found up to the same position, whatever follows the lines. -/
theorem readFrom_append {cs : List Char} (hw : WholeLines cs) {k p : Nat}
    {r : Except ReadError Datum} (h : readFrom cs k = (r, p)) (hf : r ≠ .error .finished)
    (hi : r ≠ .error .incomplete) (t : List Char) : readFrom (cs ++ t) k = (r, p) := by
  obtain ⟨hr, hp⟩ := Prod.mk.inj h
  have hk : k ≤ cs.length := by
    by_contra hk
    rw [List.drop_eq_nil_of_le (Nat.le_of_not_le hk)] at hr
    exact hf (hr.symm.trans (read_finished_iff.mpr .nil))
  have hdrop : read ((cs ++ t).drop k) = (r, (read (cs.drop k)).2 ++ t) := by
    rw [List.drop_append_of_le_length hk]
    exact readWithin_append (.inl (hw.of_suffix (List.drop_suffix k cs))) (Prod.ext hr rfl) hf hi
  rw [readFrom, hdrop, ← hp]
  simp only [List.length_append, Nat.add_sub_add_right]

end Datum

/-! ## Programs -/

namespace Program

/-- Behind a text that is read to its end, the expressions of what follows are added. -/
theorem ofChars_append_finished {cs t : List Char} (hp : Parted cs t)
    (h : (ofChars cs).ending = .finished) :
    (ofChars (cs ++ t)).exprs = (ofChars cs).exprs ++ (ofChars t).exprs ∧
      (ofChars (cs ++ t)).ending.error? = (ofChars t).ending.error? := by
  obtain ⟨left, e, rest, hleft, hread, hending, happend⟩ := exists_remainder cs
  rw [happend t hp]
  cases e with
  | finished =>
    have happ : Datum.read (left ++ t) = Datum.read t :=
      Datum.readWithin_append_finished (hp.of_suffix hleft) hread
    exact ⟨congrArg (_ ++ ·) (ofChars_congr happ).1, (ofChars_congr happ).2⟩
  | _ => simp [h, Ending.ofError] at hending

/-- Behind a misspelling nothing more is read. -/
theorem ofChars_append_misspelt {cs t : List Char} (hp : Parted cs t) {m : Misspelling}
    (h : (ofChars cs).ending = .misspelt m) :
    ofChars (cs ++ t) = ⟨(ofChars cs).exprs, .misspelt m⟩ := by
  obtain ⟨left, e, rest, hleft, hread, hending, happend⟩ := exists_remainder cs
  rw [happend t hp]
  cases e with
  | misspelt m' =>
    obtain rfl : m = m' := Ending.misspelt.inj (h.symm.trans hending)
    have happ : Datum.read (left ++ t) = (.error (.misspelt m), rest ++ t) :=
      Datum.readWithin_append (hp.of_suffix hleft) hread (by simp) (by simp)
    rw [ofChars_of_error happ]
    simp [Ending.ofError]
  | _ => simp [h, Ending.ofError] at hending

/-- A program that is refused for a misspelling ends in this misspelling. -/
theorem ending_of_all_misspelt {p : Program} {m : Misspelling}
    (h : p.all = .error (.misspelt m)) : p.ending = .misspelt m := by
  obtain ⟨exprs, ending⟩ := p
  cases ending with
  | misspelt m' =>
    rw [ReadError.misspelt.inj (Except.error.inj h)]
  | _ => simp [all, Ending.error?] at h

end Program

/-- What has been read stays as it is when the text goes on behind a newline. From any position, a
datum or a misspelling is found with the same end position whatever follows. So the expressions of a
text that can be read to its end stand in front of those of what follows, which can fail to be read
in its own way only; and a misspelling is the same misspelling. -/
theorem reading_stable (s t : String) :
    (∀ k r p, Datum.readFrom (s ++ "\n").toList k = (r, p) →
      (∃ d, r = .ok d) ∨ (∃ m, r = .error (.misspelt m)) →
        Datum.readFrom (s ++ "\n" ++ t).toList k = (r, p)) ∧
    (∀ es, (Program.ofText s).all = .ok es →
      (Program.ofText (s ++ "\n" ++ t)).all = (Program.ofText t).all.map (es ++ ·)) ∧
    ∀ m, (Program.ofText s).all = .error (.misspelt m) →
      (Program.ofText (s ++ "\n" ++ t)).all = .error (.misspelt m) := by
  have hline : (s ++ "\n").toList = s.toList ++ ['\n'] := by simp
  have htext : (s ++ "\n" ++ t).toList = s.toList ++ '\n' :: t.toList := by simp
  have hparted : Parted s.toList ('\n' :: t.toList) := .inr rfl
  have hnewline : Datum.read ('\n' :: t.toList) = Datum.read t.toList :=
    Datum.readWithin_blank Text.isBlank_newline [] t.toList
  refine ⟨fun k r p h hr => ?_, fun es h => ?_, fun m h => ?_⟩
  · rw [hline] at h
    have hwhole : WholeLines (s.toList ++ ['\n']) := by simp [WholeLines]
    rw [htext, List.append_cons]
    refine Datum.readFrom_append hwhole h ?_ ?_ t.toList
    all_goals rcases hr with ⟨d, rfl⟩ | ⟨m, rfl⟩ <;> simp
  · have hs : Program.ofChars s.toList = ⟨es, .finished⟩ := Program.eq_of_all h
    obtain ⟨hexprs, hending⟩ := Program.ofChars_append_finished hparted (by rw [hs])
    obtain ⟨hexprs', hending'⟩ := Program.ofChars_congr hnewline
    rw [hexprs', hs] at hexprs
    simp only [Program.all, Program.ofText, htext, hexprs, hending, hending']
    cases (Program.ofChars t.toList).ending.error? <;> rfl
  · have hs : (Program.ofChars s.toList).ending = .misspelt m := Program.ending_of_all_misspelt h
    rw [Program.ofText, htext, Program.ofChars_append_misspelt hparted hs]
    rfl

/-- A first line that ends in a comment, and a second one. -/
theorem reading_stable_comment :
    (Program.ofText "'a ; (b").all = .ok [.quoting (.sym "a")] ∧
    (Program.ofText "2").all = .ok [.int 2] ∧
    (Program.ofText ("'a ; (b" ++ "\n" ++ "2")).all = .ok [.quoting (.sym "a"), .int 2] := by
  have hs : (Program.ofText "'a ; (b").all = .ok [.quoting (.sym "a")] :=
    Program.all_of_readBounded 3 rfl
  have ht : (Program.ofText "2").all = .ok [.int 2] := Program.all_of_readBounded 2 rfl
  refine ⟨hs, ht, ?_⟩
  rw [(reading_stable "'a ; (b" "2").2.1 _ hs, ht]
  rfl

end Scheme
