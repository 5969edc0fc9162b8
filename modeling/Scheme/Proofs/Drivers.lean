import Scheme.Session
import Scheme.Proofs.Reading.Lines
import Scheme.Proofs.Simulation.Indifference

/-!
# Three ways to run a program

A program can be evaluated as a whole, loaded, or typed line by line into a session that prints
each value. `Run` says which evaluations take place, from which machine and to which, when the
expressions of a program succeed one after the other, and something is done with each value.

Programs cannot look at what has been written, so an evaluation behind other output has the same
value and writes the same (`evalDatum_output`). The session reads whole lines, and by
`Program.ofChars_append` it finds the expressions of the text, wherever the line breaks are
(`Repl.session_lines`). `drivers_agree` puts the three together.
-/

namespace Scheme

open EvalM

/-! ## Output -/

/-- Machines that differ in what was written before their present evaluation. -/
def Output.indifference (a b : String) : Indifference where
  machine m m' := ∃ o, m.out = a ++ o ∧ m' = { m with out := b ++ o }
  lax _ := False
  store := by rintro m m' ⟨o, -, rfl⟩; rfl
  nextLabel := by rintro m m' ⟨o, -, rfl⟩; rfl
  files := by rintro m m' ⟨o, -, rfl⟩; rfl
  setStore s := by rintro ⟨o, ho, rfl⟩; exact ⟨o, ho, rfl⟩
  setLabel i := by rintro ⟨o, ho, rfl⟩; exact ⟨o, ho, rfl⟩
  emit text := by
    rintro ⟨o, ho, rfl⟩
    exact ⟨o ++ text, by rw [ho, String.append_assoc], by rw [String.append_assoc]⟩
  emitError text := by rintro ⟨o, ho, rfl⟩; exact ⟨o, ho, rfl⟩
  lax_inside _ := False.elim
  lax_file _ _ h := h.elim

instance (a b : String) : (Output.indifference a b).simulation.Nests where
  limit := by rintro w m m' ⟨o, -, rfl⟩ h; exact h
  limit_lax := by rintro w m m' ⟨o, -, rfl⟩ h; exact .inl h
  enter := by rintro w m m' ⟨o, ho, rfl⟩; exact ⟨o, ho, rfl⟩
  leave := by rintro w m m' ⟨o, ho, rfl⟩; exact ⟨o, ho, rfl⟩

/-- An evaluation only adds to the output, and what it adds and gives does not depend on what was
written before. -/
theorem evalDatum_output {f : FrameId} {d : Datum} {m m₁ : Machine} {v : Value}
    (h : evalDatum evaluate f d m = .ok v m₁) :
    ∃ o, m₁.out = m.out ++ o ∧
      ∀ p, evalDatum evaluate f d { m with out := p } = .ok v { m₁ with out := p ++ o } := by
  have key : ∀ p, ∃ o, m₁.out = m.out ++ o ∧
      evalDatum evaluate f d { m with out := p } = .ok v { m₁ with out := p ++ o } := by
    intro p
    let I := Output.indifference m.out p
    have hrun : I.simulation.Evaluators evaluate evaluate := I.simulation.run ample
    have hm : I.machine m { m with out := p } := ⟨"", by simp, by simp⟩
    rcases Indifference.related_cases (Simulation.evalDatum hrun rfl d m _ hm) with
      ⟨a, m₂, m₂', h₁, h₂, o, ho, rfl⟩ | ⟨s, m₂, m₂', h₁, -⟩ | ⟨s, m₂, -, hl⟩
    · obtain ⟨rfl, rfl⟩ := EStateM.Result.ok.inj (h.symm.trans h₁)
      exact ⟨o, ho, h₂⟩
    · exact absurd (h.symm.trans h₁) (by simp)
    · exact hl.elim
  obtain ⟨o, ho, -⟩ := key m.out
  refine ⟨o, ho, fun p => ?_⟩
  obtain ⟨o', ho', hp⟩ := key p
  obtain rfl : o' = o := (String.append_right_inj m.out).mp (ho'.symm.trans ho)
  exact hp

/-! ## Runs of programs -/

/-- The line that shows a value; what has no value is not shown. -/
def shownLine (store : Store) : Value → String
  | .undefined => ""
  | v => v.written store.frameText ++ "\n"

/-- One evaluation of an expression. -/
structure Evaluation where
  datum : Datum
  before : Machine
  value : Value
  after : Machine

namespace Evaluation

/-- What an evaluation writes. -/
def output (e : Evaluation) : String :=
  String.ofList (e.after.out.toList.drop e.before.out.toList.length)

/-- What a session shows of the value. -/
def shown (e : Evaluation) : String := shownLine e.after.store e.value

/-- What was written before comes first, and then the output of the evaluation. -/
theorem output_eq {e : Evaluation} {o : String} (h : e.after.out = e.before.out ++ o) :
    e.output = o := by
  rw [output, h, String.toList_append, List.drop_left, String.ofList_toList]

/-- The same evaluation behind other output. -/
structure SameBehind (e e' : Evaluation) : Prop where
  datum_eq : e'.datum = e.datum
  before_eq : e'.before = { e.before with out := e'.before.out }
  value_eq : e'.value = e.value
  after_eq : e'.after = { e.after with out := e'.before.out ++ e.output }

theorem SameBehind.map_datum {es es' : List Evaluation} (h : List.Forall₂ SameBehind es es') :
    es'.map datum = es.map datum := by
  induction h with
  | nil => rfl
  | cons h _ ih => rw [List.map_cons, List.map_cons, h.datum_eq, ih]

end Evaluation

/-- The expressions are evaluated one after the other with success, and `tell` is done with each
value. -/
inductive Run (ev : Evaluator) (f : FrameId) (tell : Value → EvalM Unit) :
    Machine → List Evaluation → Machine → Prop
  | nil (m : Machine) : Run ev f tell m [] m
  | cons {d : Datum} {v : Value} {m m₁ m₂ m' : Machine} {es : List Evaluation}
      (he : evalDatum ev f d m = .ok v m₁) (ht : tell v m₁ = .ok () m₂)
      (hr : Run ev f tell m₂ es m') : Run ev f tell m (⟨d, m, v, m₁⟩ :: es) m'

/-- Does nothing with a value. -/
def ignore : Value → EvalM Unit := fun _ => pure ()

/-- What a session writes in a run: the output of each evaluation and then its value. -/
def transcript : List Evaluation → String
  | [] => ""
  | e :: es => e.output ++ e.shown ++ transcript es

section Drivers

variable {ev : Evaluator} {f : FrameId} {m m' : Machine} {es : List Evaluation}

/-- The value of the last expression, or the given one if there is none. -/
def lastValue (last : Value) (es : List Evaluation) : Value :=
  (es.getLast?.map Evaluation.value).getD last

theorem evalInTurn_of_run (h : Run ev Machine.globalFrame ignore m es m') (last : Value) :
    Session.evalInTurn ev last (es.map Evaluation.datum) m = .ok (lastValue last es) m' := by
  induction h generalizing last with
  | nil m => rfl
  | @cons d v m m₁ m₂ m' es he ht _ ih =>
    obtain ⟨-, rfl⟩ := EStateM.Result.ok.inj ht
    rw [List.map_cons, Session.evalInTurn, bind_ok he, ih v]
    rw [lastValue, lastValue, List.getLast?_cons]
    cases es.getLast? <;> rfl

theorem foldlM_loadDatum_of_run (h : Run ev f ignore m es m') (failures : Nat) :
    (es.map Evaluation.datum).foldlM (loadDatum ev f) failures m = .ok failures m' := by
  induction h with
  | nil m => rfl
  | @cons d v m m₁ m₂ m' es he ht _ ih =>
    obtain ⟨-, rfl⟩ := EStateM.Result.ok.inj ht
    have hload : loadDatum ev f failures d m = .ok failures m₁ := by
      rw [loadDatum, bind_ok (attempt_ok he)]
      rfl
    rw [List.map_cons, List.foldlM_cons, bind_ok hload, ih]

namespace Repl

theorem evalPrint_of_run (h : Run ev f printResult m es m') :
    evalPrint ev f (es.map Evaluation.datum) m = .ok true m' := by
  induction h with
  | nil m => rfl
  | @cons d v m m₁ m₂ m' es he ht _ ih =>
    rw [List.map_cons, evalPrint, bind_ok (attempt_ok he)]
    simp only
    rw [bind_ok ht, ih]

/-- Expressions succeed together when the first of them do and then the others. -/
theorem evalPrint_append_ok {ds ds' : List Datum}
    (h : evalPrint ev f (ds ++ ds') m = .ok true m') :
    ∃ m₁, evalPrint ev f ds m = .ok true m₁ ∧ evalPrint ev f ds' m₁ = .ok true m' := by
  induction ds generalizing m with
  | nil => exact ⟨m, rfl, h⟩
  | cons d ds ih =>
    rw [List.cons_append, evalPrint] at h
    obtain ⟨r, m₁, hr, h⟩ := bind_eq_ok h
    rw [evalPrint, bind_ok hr]
    cases r with
    | ok v =>
      obtain ⟨u, m₂, hprint, h⟩ := bind_eq_ok h
      obtain ⟨m₃, h₁, h₂⟩ := ih h
      exact ⟨m₃, (bind_ok hprint).trans h₁, h₂⟩
    | error e =>
      obtain ⟨-, m₂, -, h⟩ := bind_eq_ok h
      obtain ⟨-, m₃, -, h⟩ := bind_eq_ok h
      exact absurd (EStateM.Result.ok.inj h).1 (by simp)

/-- A turn on a text without misspellings, all of whose expressions succeed, leaves what waits for
more text. -/
theorem turn_ok {buffer : List Char}
    (hm : ∀ e, (Program.ofChars buffer).ending ≠ .misspelt e)
    (h : evalPrint ev f (Program.ofChars buffer).exprs m = .ok true m') :
    turn ev f buffer m = .ok (Program.ofChars buffer).ending.pending m' := by
  rw [turn, bind_ok h]
  simp only [if_true]
  cases hend : (Program.ofChars buffer).ending with
  | finished => rfl
  | incomplete pending => rfl
  | misspelt e => exact absurd hend (hm e)

theorem session_cons (buffer line : List Char) (rest : List (Option (List Char))) :
    session ev f none buffer (some line :: rest) =
      turn ev f (buffer ++ line) >>= fun pending => session ev f none pending rest := rfl

/-- The lines of a program are worked through as if its expressions were given at once, wherever
the breaks are. -/
theorem session_lines {buffer line : List Char} {rest : List (List Char)} {ds : List Datum}
    (hb : WholeLines buffer) (hl : ∀ l ∈ (line :: rest).dropLast, WholeLines l)
    (hp : Program.ofChars (buffer ++ (line :: rest).flatten) = ⟨ds, .finished⟩)
    (h : evalPrint ev f ds m = .ok true m') :
    session ev f none buffer ((line :: rest).map some) m = .ok true m' := by
  -- The buffer holds what the lines so far leave open; the last line may lack its newline.
  induction rest generalizing buffer line ds m with
  | nil =>
    rw [List.flatten_cons, List.flatten_nil, List.append_nil] at hp
    have hmis : ∀ e, (Program.ofChars (buffer ++ line)).ending ≠ .misspelt e := by simp [hp]
    have hexprs : evalPrint ev f (Program.ofChars (buffer ++ line)).exprs m = .ok true m' := by
      rw [hp]
      exact h
    rw [List.map_cons, session_cons, bind_ok (turn_ok hmis hexprs), hp]
    rfl
  | cons line' rest ih =>
    rw [List.dropLast_cons_cons, List.forall_mem_cons] at hl
    obtain ⟨hline, hrest⟩ := hl
    rw [List.flatten_cons, ← List.append_assoc] at hp
    obtain ⟨hmis, hpend, ds', rfl, hp'⟩ := Program.ofChars_append (hb.append hline) hp
    obtain ⟨m₁, h₁, h₂⟩ := evalPrint_append_ok h
    rw [List.map_cons, session_cons, bind_ok (turn_ok hmis h₁)]
    exact ih hpend hrest hp' h₂

theorem session_text {cs : List Char} {ds : List Datum}
    (hp : Program.ofChars cs = ⟨ds, .finished⟩) (h : evalPrint ev f ds m = .ok true m') :
    session ev f none [] ((Text.lines cs).map some) m = .ok true m' := by
  have hflat := Text.flatten_lines cs
  have hwhole : ∀ l ∈ (Text.lines cs).dropLast, WholeLines l :=
    Text.wholeLines_of_mem_dropLast [] cs
  cases hlines : Text.lines cs with
  | nil =>
    rw [hlines] at hflat
    rw [← hflat, List.flatten_nil, Program.ofChars_nil] at hp
    obtain ⟨rfl, -⟩ := Program.mk.inj hp
    exact h
  | cons line rest =>
    rw [hlines] at hflat hwhole
    exact session_lines WholeLines.nil hwhole (by rw [hflat]; exact hp) h

theorem printResult_eq (v : Value) (m : Machine) :
    printResult v m = .ok () { m with out := m.out ++ shownLine m.store v } := by
  cases v with
  | undefined => simp [printResult, shownLine, pure, EStateM.pure]
  | _ => rfl

end Repl

end Drivers

/-- A run in which the values are ignored takes place in the same way behind any output, with the
values shown. -/
theorem Run.behind {f : FrameId} {m m' : Machine} {es : List Evaluation}
    (h : Run evaluate f ignore m es m') (p : String) :
    ∃ es', List.Forall₂ Evaluation.SameBehind es es' ∧
      Run evaluate f Repl.printResult { m with out := p } es'
        { m' with out := p ++ transcript es } := by
  induction h generalizing p with
  | nil m => exact ⟨[], .nil, by simpa [transcript] using Run.nil _⟩
  | @cons d v m m₁ m₂ m' es he ht _ ih =>
    obtain ⟨-, rfl⟩ := EStateM.Result.ok.inj ht
    obtain ⟨o, ho, hbehind⟩ := evalDatum_output he
    have hout : (⟨d, m, v, m₁⟩ : Evaluation).output = o := Evaluation.output_eq ho
    obtain ⟨es', hsame, hrun⟩ := ih (p ++ o ++ shownLine m₁.store v)
    refine ⟨⟨d, { m with out := p }, v, { m₁ with out := p ++ o }⟩ :: es',
      .cons ⟨rfl, rfl, rfl, by rw [hout]⟩ hsame, ?_⟩
    rw [transcript, hout, Evaluation.shown, ← String.append_assoc, ← String.append_assoc]
    exact .cons (hbehind p) (Repl.printResult_eq v _) hrun

/-- A program that can be read, and whose expressions succeed one after the other, is evaluated,
loaded and typed into a session with the same evaluations and the same store at the end. The
evaluation gives the last value and loading counts no failure. The session, wherever the lines
break, writes the output of each expression and then its value. -/
theorem drivers_agree {s : String} {es : List Evaluation} {m m' : Machine}
    (hread : (Program.ofText s).all = .ok (es.map Evaluation.datum))
    (hrun : Run evaluate Machine.globalFrame ignore m es m') (origin : String) :
    Session.evalText s m = .ok (lastValue .undefined es) m' ∧
    loadSource evaluate s origin Machine.globalFrame m = .ok 0 m' ∧
    ∃ es', List.Forall₂ Evaluation.SameBehind es es' ∧
      Run evaluate Machine.globalFrame Repl.printResult m es'
        { m' with out := m.out ++ transcript es } ∧
      repl evaluate Machine.globalFrame none s.toUTF8 m =
        .ok true { m' with out := m.out ++ transcript es } := by
  have hp : Program.ofChars s.toList = ⟨es.map Evaluation.datum, .finished⟩ :=
    Program.eq_of_all hread
  refine ⟨?_, ?_, ?_⟩
  · rw [Session.evalText, hread]
    exact evalInTurn_of_run hrun .undefined
  · rw [loadSource, loadProgram, Program.ofText, hp, EvalM.bind_ok (foldlM_loadDatum_of_run hrun 0)]
    rfl
  · obtain ⟨es', hsame, hrun'⟩ := hrun.behind m.out
    refine ⟨es', hsame, hrun', ?_⟩
    have hprint := Repl.evalPrint_of_run hrun'
    rw [Evaluation.SameBehind.map_datum hsame] at hprint
    have hbytes : String.fromUTF8? s.toUTF8 = some s := dif_pos s.isValidUTF8
    rw [repl, Text.inputLines, hbytes]
    exact Repl.session_text hp hprint

/-- A quotation and a string that both go over the end of a line. -/
theorem drivers_agree_quotation :
    let s := "' ; one\n1 \"a\nb\""
    let m := Machine.new [] fun _ => .absent
    ∃ v m', Session.evalText s m = .ok v m' ∧
      loadSource evaluate s "lines" Machine.globalFrame m = .ok 0 m' ∧
      repl evaluate Machine.globalFrame none s.toUTF8 m =
        .ok true { m' with out := "1\n\"a\\nb\"\n" } := by
  intro s m
  have hquote : Lexeme.next s.toList = (.token .quote, " ; one\n1 \"a\nb\"".toList) := by decide
  have hone : Lexeme.next " ; one\n1 \"a\nb\"".toList =
      (.token (.number "1"), " \"a\nb\"".toList) := rfl
  have hfirst : Datum.read s.toList = (.ok (Datum.int 1).quoting, " \"a\nb\"".toList) :=
    (Datum.readWithin_token (p := .more [.quotation]) hquote rfl).trans
      (Datum.readWithin_token (p := .done (Datum.int 1).quoting) hone rfl)
  have hstring : Lexeme.next " \"a\nb\"".toList = (.token (.string "a\nb"), []) := rfl
  have hsecond : Datum.read " \"a\nb\"".toList = (.ok (.str "a\nb"), []) :=
    Datum.readWithin_token (p := .done (.str "a\nb")) hstring rfl
  have hread : (Program.ofText s).all = .ok [(Datum.int 1).quoting, .str "a\nb"] := by
    rw [Program.ofText, Program.ofChars_of_read hfirst, Program.ofChars_of_read hsecond,
      Program.ofChars_nil]
    rfl
  let m₁ : Machine := { m with nextLabel := 3 }
  let m₂ : Machine := { m with nextLabel := 4 }
  have hrun : Run evaluate Machine.globalFrame ignore m
      [⟨(Datum.int 1).quoting, m, .int 1, m₁⟩, ⟨.str "a\nb", m₁, .str 3 "a\nb", m₂⟩] m₂ :=
    .cons rfl rfl (.cons rfl rfl (.nil m₂))
  obtain ⟨heval, hload, es', -, -, hrepl⟩ := drivers_agree hread hrun "lines"
  exact ⟨.str 3 "a\nb", m₂, heval, hload, hrepl⟩

end Scheme
