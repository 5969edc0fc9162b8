import Scheme.Proofs.Accounting

/-!
# Reading comes to an end

A reader that is called again and again from where it stopped `Advances` if each call takes at least
one character, until the answer is that nothing is left. Then the end is reached after as many calls
as there are characters, and one more (`Advances.callAt_last`). Lexemes are taken off a text in this
way and so are data, whatever errors are among the answers.

`Datum.ReadsIn` and `Program.ReadsIn` follow a reading lexeme by lexeme and count them. There are no
more than characters of the text, and one for its end. `reading_advances` states it for single data,
for programs, which are what is loaded, and for the turns of a session.
-/

namespace Scheme

/-! ## Readers that go forward -/

/-- From every position of a text of this size the reader goes forward, until it gives its last
answer, at the end of the text. -/
structure Advances {α : Type} (reader : Nat → α × Nat) (size : Nat) (last : α) : Prop where
  at_end : ∀ k ≤ size, (reader k).1 = last → (reader k).2 = size
  forward : ∀ k ≤ size, (reader k).1 ≠ last → k < (reader k).2 ∧ (reader k).2 ≤ size

namespace Advances

variable {α : Type} {reader : Nat → α × Nat} {size : Nat} {last : α}

/-- At the end there is only the last answer. -/
theorem callAt_size (h : Advances reader size last) (n : Nat) :
    callAt reader size n = (last, size) := by
  have hlast : (reader size).1 = last := by
    by_contra hne
    obtain ⟨hlt, hle⟩ := h.forward size (Nat.le_refl size) hne
    exact absurd hlt (Nat.not_lt_of_ge hle)
  have hsize : reader size = (last, size) :=
    Prod.ext hlast (h.at_end size (Nat.le_refl size) hlast)
  induction n with
  | zero => exact hsize
  | succ n ih => rw [callAt, ih, hsize]

/-- The last answer comes after as many other answers as there are characters left, or fewer. -/
theorem callAt_last (h : Advances reader size last) {k : Nat} (hk : k ≤ size) :
    ∃ n ≤ size - k, ∀ m ≥ n, callAt reader k m = (last, size) := by
  -- The induction is on what is left of the text; a call that is not the last shortens it.
  induction hn : size - k using Nat.strong_induction_on generalizing k with
  | _ left ih =>
    subst hn
    by_cases hlast : (reader k).1 = last
    · refine ⟨0, Nat.zero_le _, fun m _ => ?_⟩
      have hend := h.at_end k hk hlast
      cases m with
      | zero => exact Prod.ext hlast hend
      | succ m => rw [callAt_succ, hend, h.callAt_size]
    · obtain ⟨hlt, hle⟩ := h.forward k hk hlast
      obtain ⟨n, hn, hend⟩ := ih (size - (reader k).2) (by omega) hle rfl
      refine ⟨n + 1, by omega, fun m hm => ?_⟩
      obtain ⟨m, rfl⟩ : ∃ m', m = m' + 1 := ⟨m - 1, by omega⟩
      rw [callAt_succ]
      exact hend m (Nat.le_of_succ_le_succ hm)

/-- What takes characters off the front of a text goes forward from position to position. -/
theorem of_front {take : List Char → α × List Char}
    (hend : ∀ ds, (take ds).1 = last → (take ds).2 = [])
    (hlt : ∀ ds, (take ds).1 ≠ last → (take ds).2.length < ds.length) (cs : List Char) :
    Advances (fun k => ((take (cs.drop k)).1, cs.length - (take (cs.drop k)).2.length)) cs.length
      last := by
  refine ⟨fun k _ hlast => ?_, fun k hk hne => ?_⟩
  · simp [hend _ hlast]
  · have hless := hlt _ hne
    rw [List.length_drop] at hless
    exact ⟨by dsimp only; omega, Nat.sub_le _ _⟩

end Advances

/-- Taking lexeme after lexeme goes forward until the text has come to its end. -/
theorem Lexeme.nextFrom_advances (cs : List Char) :
    Advances (Lexeme.nextFrom cs) cs.length .finished :=
  .of_front (fun _ h => rest_eq_nil rfl (.inr h)) (fun _ => rest_lt) cs

namespace Datum

/-- A reading takes at least one lexeme. -/
theorem readWithin_rest_le_next (stack : List OpenExpr) (cs : List Char) :
    (readWithin stack cs).2.length ≤ (Lexeme.next cs).2.length := by
  fun_cases readWithin stack cs with
  | case6 t rest h _ stack' hf => simpa [h] using readWithin_rest_le stack' rest
  | _ => simp [*]

/-- A reading takes at least one character if there is an expression. -/
theorem rest_lt_of_ne_finished {cs : List Char} (h : (read cs).1 ≠ .error .finished) :
    (read cs).2.length < cs.length := by
  have hnext : (Lexeme.next cs).1 ≠ .finished := fun hf =>
    h (read_finished_iff.mpr (Lexeme.next_finished_iff.mp hf))
  exact (readWithin_rest_le_next [] cs).trans_lt (Lexeme.rest_lt hnext)

theorem rest_eq_nil_of_finished {cs : List Char} (h : (read cs).1 = .error .finished) :
    (read cs).2 = [] := by
  have hnext := Lexeme.next_finished_iff.mpr (read_finished_iff.mp h)
  have hrest : (Lexeme.next cs).2 = [] := Lexeme.rest_eq_nil rfl (.inr hnext)
  have hle := readWithin_rest_le_next [] cs
  rw [hrest] at hle
  exact List.eq_nil_of_length_eq_zero (Nat.le_zero.mp hle)

/-- Reading datum after datum goes forward until the text has come to its end. -/
theorem readFrom_advances (cs : List Char) :
    Advances (readFrom cs) cs.length (.error .finished) :=
  .of_front (fun _ => rest_eq_nil_of_finished) (fun _ => rest_lt_of_ne_finished) cs

/-! ## Readings by the number of lexemes -/

/-- A reading that comes to its answer with lexeme number `n`, counted from 1. -/
inductive ReadsIn : (n : Nat) → List OpenExpr → List Char → Reading → Prop
  | finished {stack : List OpenExpr} {cs rest : List Char}
      (h : Lexeme.next cs = (.finished, rest)) :
      ReadsIn 1 stack cs (.error (if stack.isEmpty then .finished else .incomplete), rest)
  | unclosed {stack : List OpenExpr} {cs rest : List Char}
      (h : Lexeme.next cs = (.unclosed, rest)) : ReadsIn 1 stack cs (.error .incomplete, rest)
  | invalid {stack : List OpenExpr} {cs rest : List Char} {text : String}
      (h : Lexeme.next cs = (.invalid text, rest)) :
      ReadsIn 1 stack cs (.error (.misspelt (.invalidToken text)), rest)
  | misspelt {stack : List OpenExpr} {cs rest : List Char} {t : Token} {e : Misspelling}
      (h : Lexeme.next cs = (.token t, rest)) (hf : Progress.feed t stack = .error e) :
      ReadsIn 1 stack cs (.error (.misspelt e), rest)
  | done {stack : List OpenExpr} {cs rest : List Char} {t : Token} {d : Datum}
      (h : Lexeme.next cs = (.token t, rest)) (hf : Progress.feed t stack = .ok (.done d)) :
      ReadsIn 1 stack cs (.ok d, rest)
  | more {n : Nat} {stack stack' : List OpenExpr} {cs rest : List Char} {t : Token} {r : Reading}
      (h : Lexeme.next cs = (.token t, rest)) (hf : Progress.feed t stack = .ok (.more stack'))
      (hr : ReadsIn n stack' rest r) : ReadsIn (n + 1) stack cs r

/-- Every lexeme of a reading takes a character, the one at the end of the text excepted, and a
datum is found in front of it. -/
theorem exists_readsIn (stack : List OpenExpr) (cs : List Char) :
    ∃ n, ReadsIn n stack cs (readWithin stack cs) ∧
      n + (readWithin stack cs).2.length ≤ cs.length + 1 ∧
      ∀ d, (readWithin stack cs).1 = .ok d → n + (readWithin stack cs).2.length ≤ cs.length := by
  fun_induction readWithin stack cs with
  | case1 stack cs rest h =>
    have hle : rest.length ≤ cs.length := by simpa [h] using next_rest_le cs
    exact ⟨1, .finished h, by dsimp only; omega, by simp⟩
  | case2 stack cs rest h =>
    have hle : rest.length ≤ cs.length := by simpa [h] using next_rest_le cs
    exact ⟨1, .unclosed h, by dsimp only; omega, by simp⟩
  | case3 stack cs text rest h =>
    have hle : rest.length ≤ cs.length := by simpa [h] using next_rest_le cs
    exact ⟨1, .invalid h, by dsimp only; omega, by simp⟩
  | case4 stack cs t rest h hlt m hf =>
    exact ⟨1, .misspelt h hf, by dsimp only; omega, by simp⟩
  | case5 stack cs t rest h hlt d hf =>
    have hle : 1 + rest.length ≤ cs.length := by omega
    exact ⟨1, .done h hf, Nat.le_succ_of_le hle, fun _ _ => hle⟩
  | case6 stack cs t rest h hlt stack' hf ih =>
    obtain ⟨n, hn, hle, hok⟩ := ih
    refine ⟨n + 1, .more h hf hn, by omega, fun d hd => ?_⟩
    have := hok d hd
    omega

end Datum

namespace Program

/-- The reading of a program, by `n` lexemes in all. -/
inductive ReadsIn : (n : Nat) → List Char → Program → Prop
  | stop {n : Nat} {cs rest : List Char} {e : ReadError}
      (h : Datum.ReadsIn n [] cs (.error e, rest)) : ReadsIn n cs ⟨[], .ofError cs e⟩
  | datum {n m : Nat} {cs rest : List Char} {d : Datum} {p : Program}
      (h : Datum.ReadsIn n [] cs (.ok d, rest)) (hr : ReadsIn m rest p) :
      ReadsIn (n + m) cs ⟨d :: p.exprs, p.ending⟩

theorem exists_readsIn (cs : List Char) : ∃ n ≤ cs.length + 1, ReadsIn n cs (ofChars cs) := by
  induction hlength : cs.length using Nat.strong_induction_on generalizing cs with
  | _ left ih =>
    subst hlength
    obtain ⟨n, hn, hle, hok⟩ := Datum.exists_readsIn [] cs
    rw [← Datum.read] at hn hle hok
    rcases hr : Datum.read cs with ⟨e | d, rest⟩
    · rw [hr] at hn hle
      rw [ofChars_of_error hr]
      exact ⟨n, (Nat.le_add_right _ _).trans hle, .stop hn⟩
    · rw [hr] at hn hok
      have hn_le : n + rest.length ≤ cs.length := hok d rfl
      obtain ⟨m, hm_le, hm⟩ := ih rest.length (Datum.rest_lt_of_read hr) rest rfl
      rw [ofChars_of_read hr]
      exact ⟨n + m, by omega, .datum hn hm⟩

end Program

/-! ## Sessions -/

/-- There are no more lines than characters. -/
theorem Text.length_linesOnto_le (read cs : List Char) :
    (linesOnto read cs).length ≤ read.length + cs.length := by
  induction cs generalizing read with
  | nil => cases read <;> simp [linesOnto]
  | cons c cs ih =>
    rw [linesOnto]
    split
    · have := ih []
      simp only [List.length_cons, List.length_nil] at this ⊢
      omega
    · have := ih (c :: read)
      simp only [List.length_cons] at this ⊢
      omega

/-- The text of a turn is a part of the input. -/
theorem Repl.turn_length_le {ev : Evaluator} {f : FrameId} {prompt : Option String}
    {cs line buffer : List Char} {read rest : List (List Char)} {m m' : Machine}
    (hlines : Text.lines cs = read ++ line :: rest)
    (h : takeLines ev f prompt [] read m = .ok buffer m') :
    (buffer ++ line).length ≤ cs.length := by
  obtain ⟨turns, hturns⟩ := History.of_takeLines h
  have hinput := congrArg List.length hturns.accounted.input_eq
  rw [← Text.flatten_lines cs, hlines]
  simp only [List.length_append, List.flatten_append, List.flatten_cons] at hinput ⊢
  omega

/-- Reading always goes forward. From any position of a text, a lexeme is taken or a datum is read
with at least one character, unless nothing but blanks and comments is left, and then the position
is the end of the text. So repeated calls come to the end, whatever errors they give, with one call
more than there are characters at most. The same bounds the lexemes that are taken to read the first
datum of a text or the program of it, which is what is loaded; and in a session, which has no more
lines than its input has characters, the lexemes that are taken for each line. -/
theorem reading_advances (s : String) :
    (∀ k, ((Lexeme.nextFrom s.toList k).1 = .finished ↔ OnlyBlanks (s.toList.drop k)) ∧
      ((Datum.readFrom s.toList k).1 = .error .finished ↔ OnlyBlanks (s.toList.drop k))) ∧
    Advances (Lexeme.nextFrom s.toList) s.length .finished ∧
    Advances (Datum.readFrom s.toList) s.length (.error .finished) ∧
    (∀ k ≤ s.length,
      (∃ n < s.length + 1, ∀ m ≥ n,
        callAt (Lexeme.nextFrom s.toList) k m = (.finished, s.length)) ∧
      ∃ n < s.length + 1, ∀ m ≥ n,
        callAt (Datum.readFrom s.toList) k m = (.error .finished, s.length)) ∧
    (∃ n ≤ s.length + 1, ∃ rest, Datum.ReadsIn n [] s.toList (Datum.ofText s, rest)) ∧
    (∃ p, (∃ n ≤ s.length + 1, Program.ReadsIn n s.toList p) ∧ (Program.ofText s).all = p.all ∧
      ∀ ev origin f, loadSource ev s origin f = loadProgram ev origin f p) ∧
    (Text.lines s.toList).length ≤ s.length ∧
    ∀ ev f prompt read line rest m buffer m', Text.lines s.toList = read ++ line :: rest →
      Repl.takeLines ev f prompt [] read m = .ok buffer m' →
        ∃ n ≤ s.length + 1,
          Program.ReadsIn n (buffer ++ line) (Program.ofChars (buffer ++ line)) := by
  rw [← String.length_toList]
  have hnext := Lexeme.nextFrom_advances s.toList
  have hread := Datum.readFrom_advances s.toList
  refine ⟨fun k => ⟨Lexeme.next_finished_iff, Datum.read_finished_iff⟩, hnext, hread,
    fun k hk => ⟨?_, ?_⟩, ?_,
    ⟨Program.ofText s, Program.exists_readsIn s.toList, rfl, fun _ _ _ => rfl⟩, ?_, ?_⟩
  · obtain ⟨n, hn, hlast⟩ := hnext.callAt_last hk
    exact ⟨n, by omega, hlast⟩
  · obtain ⟨n, hn, hlast⟩ := hread.callAt_last hk
    exact ⟨n, by omega, hlast⟩
  · obtain ⟨n, hn, hle, -⟩ := Datum.exists_readsIn [] s.toList
    exact ⟨n, by omega, _, hn⟩
  · simpa [Text.lines] using Text.length_linesOnto_le [] s.toList
  · intro ev f prompt read line rest m buffer m' hlines htake
    have hle := Repl.turn_length_le hlines htake
    obtain ⟨n, hn, hreads⟩ := Program.exists_readsIn (buffer ++ line)
    exact ⟨n, by omega, hreads⟩

/-- An invalid atom and an open string inside a list, which is open in front of the second line. -/
theorem reading_advances_unclosed :
    let cs := "(\n#z \"a".toList
    let m := Machine.new [] fun _ => .absent
    callAt (Lexeme.nextFrom cs) 1 0 = (.invalid "#z", 4) ∧
    callAt (Lexeme.nextFrom cs) 1 1 = (.unclosed, 7) ∧
    (∀ n ≥ 7, callAt (Lexeme.nextFrom cs) 1 n = (.finished, 7)) ∧
    Repl.takeLines evaluate Machine.globalFrame none [] ["(\n".toList] m = .ok "(\n".toList m ∧
    ∃ n ≤ 8, Program.ReadsIn n cs (Program.ofChars cs) := by
  intro cs m
  have hopen : (Datum.read "(\n".toList).1 = .error .incomplete := by
    rw [Datum.read, Datum.readWithin_token (p := .more [.list []]) rfl rfl, Progress.resume,
      Datum.readWithin_eq]
    rfl
  have hfirst : Repl.History evaluate Machine.globalFrame none m ["(\n".toList] [[]]
      "(\n".toList m := .line .start (.waiting hopen)
  have hlines : Text.lines cs = ["(\n".toList] ++ "#z \"a".toList :: [] := by decide
  obtain ⟨-, -, -, hcalls, -, -, -, hturn⟩ := reading_advances "(\n#z \"a"
  obtain ⟨n, (hn : n < 8), hlast⟩ := (hcalls 1 (by decide)).1
  exact ⟨rfl, rfl, fun m hm => hlast m (by omega), hfirst.takeLines_eq,
    hturn _ _ _ _ _ _ _ _ _ hlines hfirst.takeLines_eq⟩

end Scheme
