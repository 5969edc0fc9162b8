import Scheme.Proofs.Reading.Extension
import Scheme.Proofs.Simulation.Basic

/-!
# Loading a text

Loading evaluates the data of a text one after the other (`DataOf`). An expression that fails is
reported on the error stream, and the next one is evaluated in the state that it left. `Trials` says
which evaluations take place, from which machine to which and with which outcomes. What loading
answers is determined by them and by how the text ends (`loadProgram_of_trials`), unless one of the
evaluations does not come to an end (`loadProgram_of_halts`); and one of the two is the case
(`trials_or_halts`).

`loading_sequential` puts this together. It also says that a text that can be read to its end may be
loaded apart from what follows on the next line.
-/

namespace Scheme

open EvalM

/-! ## The data of a text -/

/-- The first data of a text, and the text behind the last of them. -/
inductive DataOf : List Char → List Datum → List Char → Prop
  | nil (cs : List Char) : DataOf cs [] cs
  | cons {cs rest rest' : List Char} {d : Datum} {ds : List Datum}
      (h : Datum.read cs = (.ok d, rest)) (hs : DataOf rest ds rest') : DataOf cs (d :: ds) rest'

/-- The expressions of a program are the data of its text up to where reading fails. -/
theorem Program.dataOf_exprs (cs : List Char) :
    ∃ left e, DataOf cs (ofChars cs).exprs left ∧ (Datum.read left).1 = .error e ∧
      (ofChars cs).ending = .ofError left e := by
  induction hn : cs.length using Nat.strong_induction_on generalizing cs with
  | _ n ih =>
    subst hn
    rcases hr : Datum.read cs with ⟨e | d, rest⟩
    · rw [ofChars_of_error hr]
      exact ⟨cs, e, .nil cs, by rw [hr], rfl⟩
    · obtain ⟨left, e, hdata, hread, hending⟩ := ih rest.length (Datum.rest_lt_of_read hr) rest rfl
      rw [ofChars_of_read hr]
      exact ⟨left, e, .cons hr hdata, hread, hending⟩

/-! ## Evaluations in a row -/

/-- How an evaluation ends that comes to an outcome. -/
def ended : Except Fault Value → Machine → EStateM.Result Stop Machine Value
  | .ok v, m => .ok v m
  | .error e, m => .error (.fault e) m

/-- One evaluation of an expression, whatever comes of it. -/
structure Trial where
  datum : Datum
  before : Machine
  outcome : Except Fault Value
  after : Machine

/-- Whether the evaluation failed. -/
def Trial.failed (t : Trial) : Bool := !t.outcome.isOk

/-- The expressions are evaluated one after the other, each in the state that the one before left,
and `tell` is done with each outcome. -/
inductive Trials (ev : Evaluator) (f : FrameId) (tell : Except Fault Value → EvalM Unit) :
    Machine → List Trial → Machine → Prop
  | nil (m : Machine) : Trials ev f tell m [] m
  | cons {d : Datum} {o : Except Fault Value} {m m₁ m₂ m' : Machine} {ts : List Trial}
      (he : evalDatum ev f d m = ended o m₁) (ht : tell o m₁ = .ok () m₂)
      (hr : Trials ev f tell m₂ ts m') : Trials ev f tell m (⟨d, m, o, m₁⟩ :: ts) m'

/-- The expressions are evaluated up to one whose evaluation halts. -/
def HaltsAmong (ev : Evaluator) (f : FrameId) (tell : Except Fault Value → EvalM Unit)
    (m : Machine) (ds : List Datum) (h : Halt) (m' : Machine) : Prop :=
  ∃ ts d rest m₁, ds = ts.map Trial.datum ++ d :: rest ∧ Trials ev f tell m ts m₁ ∧
    evalDatum ev f d m₁ = .error (.halt h) m'

/-- Loading reports an expression that fails on the error stream. -/
def reportFailure : Except Fault Value → EvalM Unit
  | .ok _ => pure ()
  | .error e => do emitError (← report e)

section

variable {ev : Evaluator} {f : FrameId} {tell : Except Fault Value → EvalM Unit}

theorem Trials.append {m m₁ m' : Machine} {ts us : List Trial} (h : Trials ev f tell m ts m₁)
    (h' : Trials ev f tell m₁ us m') : Trials ev f tell m (ts ++ us) m' := by
  induction h with
  | nil m => exact h'
  | cons he ht _ ih => exact .cons he ht (ih h')

theorem ended_or_halt (r : EStateM.Result Stop Machine Value) :
    (∃ o m, r = ended o m) ∨ ∃ h m, r = .error (.halt h) m := by
  match r with
  | .ok v m => exact .inl ⟨.ok v, m, rfl⟩
  | .error (.fault e) m => exact .inl ⟨.error e, m, rfl⟩
  | .error (.halt h) m => exact .inr ⟨h, m, rfl⟩

/-- If telling always works, then all expressions are evaluated or one of them halts. -/
theorem trials_or_halts (htell : ∀ o m, ∃ m', tell o m = .ok () m') (ds : List Datum)
    (m : Machine) :
    (∃ ts m', ts.map Trial.datum = ds ∧ Trials ev f tell m ts m') ∨
      ∃ h m', HaltsAmong ev f tell m ds h m' := by
  induction ds generalizing m with
  | nil => exact .inl ⟨[], m, rfl, .nil m⟩
  | cons d ds ih =>
    rcases ended_or_halt (evalDatum ev f d m) with ⟨o, m₁, he⟩ | ⟨h, m', he⟩
    · obtain ⟨m₂, ht⟩ := htell o m₁
      rcases ih m₂ with ⟨ts, m', rfl, hts⟩ | ⟨h, m', ts, d', rest, m₃, rfl, hts, hd⟩
      · exact .inl ⟨⟨d, m, o, m₁⟩ :: ts, m', rfl, .cons he ht hts⟩
      · exact .inr ⟨h, m', ⟨d, m, o, m₁⟩ :: ts, d', rest, m₃, rfl, .cons he ht hts, hd⟩
    · exact .inr ⟨h, m', [], d, ds, m, rfl, .nil m, he⟩

theorem reportFailure_ok (o : Except Fault Value) (m : Machine) :
    ∃ m', reportFailure o m = .ok () m' := by
  cases o with
  | ok v => exact ⟨m, rfl⟩
  | error e => exact ⟨_, rfl⟩

/-! ## What loading does with them -/

/-- Loading a datum counts a failure if its evaluation failed. -/
theorem loadDatum_of_ended {d : Datum} {o : Except Fault Value} {m m₁ m₂ : Machine}
    (he : evalDatum ev f d m = ended o m₁) (ht : reportFailure o m₁ = .ok () m₂) (n : Nat) :
    loadDatum ev f n d m = .ok (n + [⟨d, m, o, m₁⟩].countP Trial.failed) m₂ := by
  cases o with
  | ok v =>
    obtain ⟨-, rfl⟩ := EStateM.Result.ok.inj ht
    rw [loadDatum, bind_ok (attempt_ok he)]
    rfl
  | error e =>
    have hattempt : attempt (evalDatum ev f d) m = .ok (.error e) m₁ := by
      rw [attempt, he]
      rfl
    obtain ⟨-, rfl⟩ := EStateM.Result.ok.inj ht
    rw [loadDatum, bind_ok hattempt]
    rfl

/-- Loading data one after the other counts the failures among them. -/
theorem foldlM_loadDatum_of_trials {m m' : Machine} {ts : List Trial}
    (h : Trials ev f reportFailure m ts m') (n : Nat) :
    (ts.map Trial.datum).foldlM (loadDatum ev f) n m = .ok (n + ts.countP Trial.failed) m' := by
  induction h generalizing n with
  | nil m => rfl
  | @cons d o m m₁ m₂ m' ts he ht _ ih =>
    rw [List.map_cons, List.foldlM_cons, bind_ok (loadDatum_of_ended he ht n), ih, Nat.add_assoc,
      ← List.countP_append]
    rfl

theorem foldlM_loadDatum_of_halts {ds : List Datum} {m m' : Machine} {h : Halt}
    (hs : HaltsAmong ev f reportFailure m ds h m') (n : Nat) :
    ds.foldlM (loadDatum ev f) n m = .error (.halt h) m' := by
  obtain ⟨ts, d, rest, m₁, rfl, hts, hd⟩ := hs
  have hload : ∀ n, loadDatum ev f n d m₁ = .error (.halt h) m' := fun n => by
    simp only [loadDatum, bind, EStateM.bind, attempt, hd]
  rw [List.foldlM_append, bind_ok (foldlM_loadDatum_of_trials hts n), List.foldlM_cons]
  exact bind_error (hload _)

/-- The answer of loading when all expressions have been evaluated. -/
def loaded (origin : String) (ending : Option ReadError) (failures : Nat) (m : Machine) :
    EStateM.Result Stop Machine Nat :=
  match ending with
  | none => .ok failures m
  | some e => .error (.fault (.unreadableSource origin e)) m

/-- A program whose data have all been tried is answered by the count of failures, or by how its
text ended. -/
theorem loadProgram_of_trials {p : Program} {m m' : Machine} {ts : List Trial}
    (hp : ts.map Trial.datum = p.exprs) (h : Trials ev f reportFailure m ts m') (origin : String) :
    loadProgram ev origin f p m = loaded origin p.ending.error? (ts.countP Trial.failed) m' := by
  rw [loadProgram, ← hp, bind_ok (foldlM_loadDatum_of_trials h 0), Nat.zero_add]
  cases p.ending.error? <;> rfl

theorem loadProgram_of_halts {p : Program} {m m' : Machine} {h : Halt}
    (hs : HaltsAmong ev f reportFailure m p.exprs h m') (origin : String) :
    loadProgram ev origin f p m = .error (.halt h) m' :=
  bind_error (foldlM_loadDatum_of_halts hs 0)

/-- Loading gives its answer behind all of the evaluations, or one of them halts. -/
theorem loadProgram_cases (origin : String) (p : Program) (m : Machine) :
    (∃ ts m', ts.map Trial.datum = p.exprs ∧ Trials ev f reportFailure m ts m' ∧
      loadProgram ev origin f p m = loaded origin p.ending.error? (ts.countP Trial.failed) m') ∨
    ∃ h m', HaltsAmong ev f reportFailure m p.exprs h m' ∧
      loadProgram ev origin f p m = .error (.halt h) m' := by
  rcases trials_or_halts reportFailure_ok p.exprs m with ⟨ts, m', hp, hts⟩ | ⟨h, m', hs⟩
  · exact .inl ⟨ts, m', hp, hts, loadProgram_of_trials hp hts origin⟩
  · exact .inr ⟨h, m', hs, loadProgram_of_halts hs origin⟩

/-- Loading answers a count if and only if the text was read to its end and all data were tried. -/
theorem loadProgram_eq_ok_iff {origin : String} {p : Program} {n : Nat} {m m' : Machine} :
    loadProgram ev origin f p m = .ok n m' ↔ p.ending.error? = none ∧
      ∃ ts, ts.map Trial.datum = p.exprs ∧ Trials ev f reportFailure m ts m' ∧
        ts.countP Trial.failed = n := by
  constructor
  · intro hload
    rcases loadProgram_cases origin p m with ⟨ts, m₁, hp, hts, heq⟩ | ⟨h, m₁, -, heq⟩
    · rw [heq] at hload
      cases he : p.ending.error? with
      | none =>
        rw [he] at hload
        obtain ⟨hn, rfl⟩ := EStateM.Result.ok.inj hload
        exact ⟨rfl, ts, hp, hts, hn⟩
      | some e => simp [he, loaded] at hload
    · simp [heq] at hload
  · rintro ⟨he, ts, hp, hts, rfl⟩
    rw [loadProgram_of_trials hp hts, he]
    rfl

/-- Loading fails if and only if the text could not be read to its end; all data in front were
tried. -/
theorem loadProgram_eq_fault_iff {origin : String} {p : Program} {fault : Fault}
    {m m' : Machine} :
    loadProgram ev origin f p m = .error (.fault fault) m' ↔
      (∃ e, p.ending.error? = some e ∧ fault = .unreadableSource origin e) ∧
      ∃ ts, ts.map Trial.datum = p.exprs ∧ Trials ev f reportFailure m ts m' := by
  constructor
  · intro hload
    rcases loadProgram_cases origin p m with ⟨ts, m₁, hp, hts, heq⟩ | ⟨h, m₁, -, heq⟩
    · rw [heq] at hload
      cases he : p.ending.error? with
      | none => simp [he, loaded] at hload
      | some e =>
        rw [he] at hload
        obtain ⟨hfault, rfl⟩ := EStateM.Result.error.inj hload
        exact ⟨⟨e, rfl, (Stop.fault.inj hfault).symm⟩, ts, hp, hts⟩
    · simp [heq] at hload
  · rintro ⟨⟨e, he, rfl⟩, ts, hp, hts⟩
    rw [loadProgram_of_trials hp hts, he]
    rfl

/-- Loading halts if and only if the evaluation of a datum does. -/
theorem loadProgram_eq_halt_iff {origin : String} {p : Program} {h : Halt} {m m' : Machine} :
    loadProgram ev origin f p m = .error (.halt h) m' ↔
      HaltsAmong ev f reportFailure m p.exprs h m' := by
  refine ⟨fun hload => ?_, fun hs => loadProgram_of_halts hs origin⟩
  rcases loadProgram_cases origin p m with ⟨ts, m₁, -, -, heq⟩ | ⟨h', m₁, hs, heq⟩
  · rw [heq] at hload
    cases he : p.ending.error? <;> simp [he, loaded] at hload
  · obtain ⟨hhalt, rfl⟩ := EStateM.Result.error.inj (heq.symm.trans hload)
    exact Stop.halt.inj hhalt ▸ hs

/-! ## One text after another -/

theorem HaltsAmong.append_right {ds : List Datum} {m m' : Machine} {h : Halt}
    (hs : HaltsAmong ev f tell m ds h m') (ds' : List Datum) :
    HaltsAmong ev f tell m (ds ++ ds') h m' := by
  obtain ⟨ts, d, rest, m₁, rfl, hts, hd⟩ := hs
  exact ⟨ts, d, rest ++ ds', m₁, by simp, hts, hd⟩

/-- Evaluations in front of one that halts are made before it. -/
theorem Trials.halts_append {ds : List Datum} {m m₁ m' : Machine} {ts : List Trial} {h : Halt}
    (hts : Trials ev f tell m ts m₁) (hs : HaltsAmong ev f tell m₁ ds h m') :
    HaltsAmong ev f tell m (ts.map Trial.datum ++ ds) h m' := by
  obtain ⟨us, d, rest, m₂, rfl, hus, hd⟩ := hs
  exact ⟨ts ++ us, d, rest, m₂, by simp, hts.append hus, hd⟩

/-- Expressions are loaded together as they are loaded one part after the other. -/
theorem loadProgram_append {p p₁ p₂ : Program} (h₁ : p₁.ending.error? = none)
    (hexprs : p.exprs = p₁.exprs ++ p₂.exprs) (hending : p.ending.error? = p₂.ending.error?)
    (origin : String) :
    loadProgram ev origin f p = do
      let n₁ ← loadProgram ev origin f p₁
      let n₂ ← loadProgram ev origin f p₂
      return n₁ + n₂ := by
  funext m
  rcases trials_or_halts reportFailure_ok p₁.exprs m with ⟨ts₁, m₁, hp₁, hts₁⟩ | ⟨h, m', hs⟩
  · have hfirst := loadProgram_of_trials hp₁ hts₁ origin
    rw [h₁] at hfirst
    rw [bind_ok hfirst]
    rcases trials_or_halts reportFailure_ok p₂.exprs m₁ with ⟨ts₂, m₂, hp₂, hts₂⟩ | ⟨h, m', hs⟩
    · have hp : (ts₁ ++ ts₂).map Trial.datum = p.exprs := by
        rw [List.map_append, hp₁, hp₂, hexprs]
      rw [loadProgram_of_trials hp (hts₁.append hts₂), hending, List.countP_append]
      simp only [bind, EStateM.bind, loadProgram_of_trials hp₂ hts₂]
      cases p₂.ending.error? <;> rfl
    · have hs' : HaltsAmong ev f reportFailure m p.exprs h m' := by
        rw [hexprs, ← hp₁]
        exact hts₁.halts_append hs
      rw [loadProgram_of_halts hs', bind_error (loadProgram_of_halts hs origin)]
  · have hs' : HaltsAmong ev f reportFailure m p.exprs h m' := by
      rw [hexprs]
      exact hs.append_right _
    rw [loadProgram_of_halts hs', bind_error (loadProgram_of_halts hs origin)]

end

namespace Program

theorem all_eq_ok_iff {p : Program} {ds : List Datum} :
    p.all = .ok ds ↔ p.ending.error? = none ∧ p.exprs = ds := by
  rw [all]
  cases p.ending.error? <;> simp

theorem all_eq_error_iff {p : Program} {e : ReadError} :
    p.all = .error e ↔ p.ending.error? = some e := by
  rw [all]
  cases p.ending.error? <;> simp

/-- Behind a text that can be read to its end, the next line starts a program of its own. -/
theorem ofText_append_line {s₁ : String} (h : (ofText s₁).ending.error? = none) (s₂ : String) :
    (ofText (s₁ ++ "\n" ++ s₂)).exprs = (ofText s₁).exprs ++ (ofText s₂).exprs ∧
      (ofText (s₁ ++ "\n" ++ s₂)).ending.error? = (ofText s₂).ending.error? := by
  have htext : (s₁ ++ "\n" ++ s₂).toList = s₁.toList ++ '\n' :: s₂.toList := by simp
  have hfinished : (ofText s₁).ending = .finished := by
    cases he : (ofText s₁).ending with
    | finished => rfl
    | _ => simp [he, Ending.error?] at h
  obtain ⟨hexprs, hending⟩ := @ofChars_append_finished s₁.toList ('\n' :: s₂.toList) (.inr rfl)
    hfinished
  obtain ⟨hexprs', hending'⟩ :=
    ofChars_congr (Datum.readWithin_blank Text.isBlank_newline [] s₂.toList)
  rw [ofText, htext, hexprs, hending, ofText, ofText]
  exact ⟨congrArg _ hexprs', hending'⟩

end Program

/-- Loading evaluates the data of a text in order, up to the end of the text or up to where it
cannot be read, each in the state that the one before left, and reports those that fail. It gives
their number if and only if the whole text can be read. Otherwise it fails, and the machine is the
one that the evaluations have left. It halts only where one of the evaluations does. A text that can
be read to its end is loaded together with more lines as if these were loaded afterwards. -/
theorem loading_sequential (ev : Evaluator) (f : FrameId) (origin : String) :
    (∀ s, ∃ ds left e, DataOf s.toList ds left ∧ (Datum.read left).1 = .error e ∧
      (Program.ofText s).all = (if e = .finished then .ok ds else .error e) ∧
      ∀ m m',
        (∀ n, loadSource ev s origin f m = .ok n m' ↔ (Program.ofText s).all = .ok ds ∧
          ∃ ts, ts.map Trial.datum = ds ∧ Trials ev f reportFailure m ts m' ∧
            ts.countP Trial.failed = n) ∧
        (∀ fault, loadSource ev s origin f m = .error (.fault fault) m' ↔
          (∃ r, (Program.ofText s).all = .error r ∧ fault = .unreadableSource origin r) ∧
          ∃ ts, ts.map Trial.datum = ds ∧ Trials ev f reportFailure m ts m') ∧
        ∀ h, loadSource ev s origin f m = .error (.halt h) m' ↔
          HaltsAmong ev f reportFailure m ds h m') ∧
    ∀ s₁ s₂ es, (Program.ofText s₁).all = .ok es →
      loadSource ev (s₁ ++ "\n" ++ s₂) origin f = do
        let n₁ ← loadSource ev s₁ origin f
        let n₂ ← loadSource ev s₂ origin f
        return n₁ + n₂ := by
  refine ⟨fun s => ?_, fun s₁ s₂ es hs₁ => ?_⟩
  · obtain ⟨left, e, hdata, hread, hending⟩ := Program.dataOf_exprs s.toList
    refine ⟨(Program.ofText s).exprs, left, e, hdata, hread, ?_, fun m m' =>
      ⟨fun n => ?_, fun fault => ?_, fun h => ?_⟩⟩
    · rw [Program.all, Program.ofText, hending]
      cases e <;> rfl
    · rw [Program.all_eq_ok_iff, and_iff_left rfl]
      exact loadProgram_eq_ok_iff
    · simp only [Program.all_eq_error_iff]
      exact loadProgram_eq_fault_iff
    · exact loadProgram_eq_halt_iff
  · have hfinished := (Program.all_eq_ok_iff.mp hs₁).1
    obtain ⟨hexprs, hending⟩ := Program.ofText_append_line hfinished s₂
    exact loadProgram_append hfinished hexprs hending origin

/-- Two lines, each with an expression that fails; the first ends in a comment, and the second is
misspelt behind its expression. -/
theorem loading_sequential_misspelt :
    let m := Machine.new [] fun _ => .absent
    (Program.ofText "x ; (y").all = .ok [.sym "x"] ∧
    loadSource evaluate ("x ; (y" ++ "\n" ++ "z )") "lines" Machine.globalFrame m =
      .error (.fault (.unreadableSource "lines" (.misspelt .strayClosing)))
        { m with err := "Error: unknown identifier: x\nError: unknown identifier: z\n" } := by
  intro m
  let m₁ : Machine := { m with err := "Error: unknown identifier: x\n" }
  let m₂ : Machine :=
    { m with err := "Error: unknown identifier: x\nError: unknown identifier: z\n" }
  have hfirst : (Program.ofText "x ; (y").all = .ok [.sym "x"] := Program.all_of_readBounded 2 rfl
  have hz : Datum.read "z )".toList = (.ok (.sym "z"), " )".toList) :=
    Datum.readWithin_token (p := .done (.sym "z")) rfl rfl
  have hclosing : Datum.read " )".toList = (.error (.misspelt .strayClosing), []) := by
    rw [Datum.read, Datum.readWithin_eq]
    rfl
  have hsecond : Program.ofText "z )" = ⟨[.sym "z"], .misspelt .strayClosing⟩ := by
    rw [Program.ofText, Program.ofChars_of_read hz, Program.ofChars_of_error hclosing]
    rfl
  have hevalx : evalDatum evaluate Machine.globalFrame (.sym "x") m =
      .error (.fault (.unbound "x")) m := by with_unfolding_all rfl
  have hevalz : evalDatum evaluate Machine.globalFrame (.sym "z") m₁ =
      .error (.fault (.unbound "z")) m₁ := by with_unfolding_all rfl
  have hload₁ : loadSource evaluate "x ; (y" "lines" Machine.globalFrame m = .ok 1 m₁ := by
    rw [loadSource, Program.eq_of_all hfirst]
    exact loadProgram_of_trials rfl
      (.cons (o := .error (.unbound "x")) hevalx rfl (.nil m₁)) "lines"
  have hload₂ : loadSource evaluate "z )" "lines" Machine.globalFrame m₁ =
      .error (.fault (.unreadableSource "lines" (.misspelt .strayClosing))) m₂ := by
    rw [loadSource, hsecond]
    exact loadProgram_of_trials rfl
      (.cons (o := .error (.unbound "z")) hevalz rfl (.nil m₂)) "lines"
  refine ⟨hfirst, ?_⟩
  rw [(loading_sequential evaluate Machine.globalFrame "lines").2 _ _ _ hfirst, bind_ok hload₁]
  exact bind_error hload₂

end Scheme
