import Mathlib.Data.List.Induction
import Scheme.Proofs.Drivers
import Scheme.Proofs.Loading
import Scheme.Proofs.Reading.Layout

/-!
# What becomes of typed input

A session takes its input line by line, and what it has read and not dealt with waits in a buffer.
`Repl.Works` describes the work on one line: the text of the buffer and the line is cut into
`Portion`s, expressions that are evaluated, layout between them, and text that is dropped because of
an error; the rest waits. `Repl.History` puts the lines of a session together. A turn does such
work (`Repl.turn_eq_ok_iff`), and every session that comes to the end of some lines has such a
history (`Repl.History.of_takeLines`).

`Repl.Accounted` says that no input is lost or repeated: the input is the portions in their order
and then the buffer. What waits is an expression that is open, and text is dropped up to the end of
a line only. `input_accounted` states it for every session, and what is written at the end of the
input.
-/

namespace Scheme

open EvalM

/-- What becomes of a part of the input. -/
inductive Portion where
  /-- Blanks and comments. -/
  | layout (text : List Char)
  /-- An expression, and its evaluation. -/
  | expression (text : List Char) (t : Trial)
  /-- Text that is dropped because of an error, which is reported. -/
  | dropped (text : List Char) (e : Fault)

namespace Portion

/-- The characters of a portion. -/
def text : Portion → List Char
  | layout text => text
  | expression text _ => text
  | dropped text _ => text

/-- The characters of portions in their order. -/
def texts (ps : List Portion) : List Char := ps.flatMap text

/-- Layout is nothing but blanks and comments, and the text of an expression is read as it. -/
def Fits : Portion → Prop
  | layout text => OnlyBlanks text
  | expression text t => Datum.IsText text t.datum
  | dropped _ _ => True

theorem texts_append (ps qs : List Portion) : texts (ps ++ qs) = texts ps ++ texts qs :=
  List.flatMap_append

end Portion

theorem OnlyBlanks.of_allBlank {cs : List Char} (h : Text.allBlank cs = true) : OnlyBlanks cs := by
  induction cs with
  | nil => exact .nil
  | cons c cs ih =>
    rw [Text.allBlank_cons, Bool.and_eq_true] at h
    exact .blank h.1 (ih h.2)

namespace Repl

/-- The line that reports a fault. -/
def errorLine (store : Store) (e : Fault) : String := "Error: " ++ e.message store.frameText ++ "\n"

/-- The prompt in front of a line, if there is one to show. -/
def promptText (prompt : Option String) (buffer : List Char) : String :=
  match prompt with
  | some p => if buffer = [] then p else continuation
  | none => ""

/-- A buffer that is empty or ends inside its first expression. -/
def Waiting (buffer : List Char) : Prop :=
  buffer = [] ∨ (Datum.read buffer).1 = .error .incomplete

/-- The work on a text: the portions that are dealt with, what waits, and what is done to the
machine. -/
inductive Works (ev : Evaluator) (f : FrameId) :
    List Char → Machine → List Portion → (pending : List Char) → Machine → Prop
  | finished {cs : List Char} {m : Machine} (h : OnlyBlanks cs) :
      Works ev f cs m [.layout cs] [] m
  | waiting {cs : List Char} {m : Machine} (h : (Datum.read cs).1 = .error .incomplete) :
      Works ev f cs m [] cs m
  | misspelt {cs : List Char} {m : Machine} {e : Misspelling}
      (h : (Datum.read cs).1 = .error (.misspelt e)) :
      Works ev f cs m [.dropped cs (.unreadable (.misspelt e))] []
        { m with out := m.out ++ errorLine m.store (.unreadable (.misspelt e)) }
  | failed {w text rest : List Char} {d : Datum} {e : Fault} {m m₁ : Machine}
      (h : Datum.read (w ++ (text ++ rest)) = (.ok d, rest)) (hw : Layout w)
      (ht : Datum.IsText text d) (he : evalDatum ev f d m = .error (.fault e) m₁) :
      Works ev f (w ++ (text ++ rest)) m
        [.layout w, .expression text ⟨d, m, .error e, m₁⟩, .dropped rest e] []
        { m₁ with out := m₁.out ++ errorLine m₁.store e }
  | evaluated {w text rest pending : List Char} {d : Datum} {v : Value} {m m₁ m' : Machine}
      {ps : List Portion} (h : Datum.read (w ++ (text ++ rest)) = (.ok d, rest)) (hw : Layout w)
      (ht : Datum.IsText text d) (he : evalDatum ev f d m = .ok v m₁)
      (hr : Works ev f rest { m₁ with out := m₁.out ++ shownLine m₁.store v } ps pending m') :
      Works ev f (w ++ (text ++ rest)) m
        (.layout w :: .expression text ⟨d, m, .ok v, m₁⟩ :: ps) pending m'

/-- The lines of a session so far: for each of them the portions that were dealt with, and what
waits behind the last. -/
inductive History (ev : Evaluator) (f : FrameId) (prompt : Option String) (m : Machine) :
    List (List Char) → List (List Portion) → (buffer : List Char) → Machine → Prop
  | start : History ev f prompt m [] [] [] m
  | line {read : List (List Char)} {turns : List (List Portion)} {line buffer pending : List Char}
      {ps : List Portion} {m₁ m₂ : Machine} (h : History ev f prompt m read turns buffer m₁)
      (hw : Works ev f (buffer ++ line) { m₁ with out := m₁.out ++ promptText prompt buffer } ps
        pending m₂) :
      History ev f prompt m (read ++ [line]) (turns ++ [ps]) pending m₂

/-! ## The work on one line -/

section

variable {ev : Evaluator} {f : FrameId} {cs rest pending : List Char} {m m' : Machine}
  {ps : List Portion}

/-- A turn starts with the first expression of its text. -/
theorem turn_of_read {d : Datum} (h : Datum.read cs = (.ok d, rest)) (m : Machine) :
    turn ev f cs m =
      match evalDatum ev f d m with
      | .ok v m₁ => turn ev f rest { m₁ with out := m₁.out ++ shownLine m₁.store v }
      | .error (.fault e) m₁ => .ok [] { m₁ with out := m₁.out ++ errorLine m₁.store e }
      | .error (.halt s) m₁ => .error (.halt s) m₁ := by
  simp only [turn, Program.ofChars_of_read h, evalPrint, bind, EStateM.bind, attempt]
  cases evalDatum ev f d m with
  | ok v m₁ => simp only [EStateM.bind, printResult_eq]
  | error s m₁ => cases s <;> rfl

theorem turn_of_error {e : ReadError} (h : Datum.read cs = (.error e, rest)) (m : Machine) :
    turn ev f cs m =
      match e with
      | .finished => .ok [] m
      | .incomplete => .ok cs m
      | .misspelt e =>
        .ok [] { m with out := m.out ++ errorLine m.store (.unreadable (.misspelt e)) } := by
  rw [turn, Program.ofChars_of_error h]
  cases e <;> rfl

/-- Every turn that succeeds is a piece of work. -/
theorem works_of_turn (h : turn ev f cs m = .ok pending m') :
    ∃ ps, Works ev f cs m ps pending m' := by
  -- The text behind the first expression is shorter, and the turn goes on with it.
  induction hn : cs.length using Nat.strong_induction_on generalizing cs m with
  | _ n ih =>
    subst hn
    rcases hr : Datum.read cs with ⟨e | d, rest⟩
    · rw [turn_of_error hr] at h
      cases e with
      | finished =>
        obtain ⟨rfl, rfl⟩ := EStateM.Result.ok.inj h
        exact ⟨_, .finished (Datum.read_finished_iff.mp (by rw [hr]))⟩
      | incomplete =>
        obtain ⟨rfl, rfl⟩ := EStateM.Result.ok.inj h
        exact ⟨_, .waiting (by rw [hr])⟩
      | misspelt e =>
        obtain ⟨rfl, rfl⟩ := EStateM.Result.ok.inj h
        exact ⟨_, .misspelt (by rw [hr])⟩
    · obtain ⟨w, text, rfl, hw, ht⟩ := Datum.exists_text hr
      rw [turn_of_read hr] at h
      split at h
      · next v m₁ he =>
        obtain ⟨ps, hps⟩ := ih rest.length (Datum.rest_lt_of_read hr) h rfl
        exact ⟨_, .evaluated hr hw ht he hps⟩
      · next e m₁ he =>
        obtain ⟨rfl, rfl⟩ := EStateM.Result.ok.inj h
        exact ⟨_, .failed hr hw ht he⟩
      · simp at h

/-- The work determines what the turn does. -/
theorem Works.turn_eq (h : Works ev f cs m ps pending m') : turn ev f cs m = .ok pending m' := by
  induction h with
  | finished h => rw [turn_of_error (Prod.ext (Datum.read_finished_iff.mpr h) rfl)]
  | waiting h => rw [turn_of_error (Prod.ext h rfl)]
  | misspelt h => rw [turn_of_error (Prod.ext h rfl)]
  | failed h _ _ he => rw [turn_of_read h, he]
  | evaluated h _ _ he _ ih =>
    rw [turn_of_read h, he]
    exact ih

/-- A turn does its work. -/
theorem turn_eq_ok_iff : turn ev f cs m = .ok pending m' ↔ ∃ ps, Works ev f cs m ps pending m' :=
  ⟨works_of_turn, fun ⟨_, h⟩ => h.turn_eq⟩

namespace Works

/-- The portions that were dealt with, and what waits, are the whole text. -/
theorem texts_append (h : Works ev f cs m ps pending m') : Portion.texts ps ++ pending = cs := by
  induction h with
  | finished => simp [Portion.texts, Portion.text]
  | waiting => rfl
  | misspelt => simp [Portion.texts, Portion.text]
  | failed => simp [Portion.texts, Portion.text]
  | evaluated _ _ _ _ _ ih => simpa [Portion.texts, Portion.text] using ih

/-- What waits behind the work is empty or an open expression. -/
theorem waiting_pending (h : Works ev f cs m ps pending m') : Waiting pending := by
  induction h with
  | finished => exact .inl rfl
  | waiting h => exact .inr h
  | misspelt => exact .inl rfl
  | failed => exact .inl rfl
  | evaluated _ _ _ _ _ ih => exact ih

theorem fits (h : Works ev f cs m ps pending m') : ∀ p ∈ ps, p.Fits := by
  induction h with
  | finished h => exact List.forall_mem_singleton.mpr h
  | waiting => simp
  | misspelt => exact List.forall_mem_singleton.mpr trivial
  | failed _ hw ht _ => simp [Portion.Fits, hw.onlyBlanks, ht]
  | evaluated _ hw ht _ _ ih =>
    exact List.forall_mem_cons.mpr ⟨hw.onlyBlanks, List.forall_mem_cons.mpr ⟨ht, ih⟩⟩

/-- Behind text that is dropped there is nothing, and the error is the last that is written. -/
theorem dropped_last (h : Works ev f cs m ps pending m') {text : List Char} {e : Fault}
    (hd : .dropped text e ∈ ps) :
    ps.getLast? = some (.dropped text e) ∧ pending = [] ∧
      ∃ m₁ : Machine, m' = { m₁ with out := m₁.out ++ errorLine m₁.store e } := by
  induction h with
  | finished => simp at hd
  | waiting => simp at hd
  | misspelt =>
    obtain ⟨rfl, rfl⟩ := Portion.dropped.inj (List.mem_singleton.mp hd)
    exact ⟨rfl, rfl, _, rfl⟩
  | failed =>
    simp only [List.mem_cons, reduceCtorEq, false_or, List.not_mem_nil, or_false] at hd
    obtain ⟨rfl, rfl⟩ := Portion.dropped.inj hd
    exact ⟨rfl, rfl, _, rfl⟩
  | @evaluated w text' rest pending d v m m₁ m' ps _ _ _ _ _ ih =>
    simp only [List.mem_cons, reduceCtorEq, false_or] at hd
    obtain ⟨hlast, hpending⟩ := ih hd
    refine ⟨?_, hpending⟩
    rw [List.getLast?_cons, List.getLast?_cons, hlast]
    rfl

end Works

/-! ## Sessions -/

/-- Takes a line, and gives what waits then. -/
def takeLine (ev : Evaluator) (f : FrameId) (prompt : Option String) (buffer line : List Char) :
    EvalM (List Char) := do
  showPrompt prompt buffer
  turn ev f (buffer ++ line)

/-- Takes lines, and gives what waits behind the last. -/
def takeLines (ev : Evaluator) (f : FrameId) (prompt : Option String) (buffer : List Char)
    (lines : List (List Char)) : EvalM (List Char) :=
  lines.foldlM (takeLine ev f prompt) buffer

/-- A session takes its first lines and goes on from what waits. -/
theorem session_append (prompt : Option String) (buffer : List Char) (read : List (List Char))
    (rest : List (Option (List Char))) :
    session ev f prompt buffer (read.map some ++ rest) =
      takeLines ev f prompt buffer read >>= fun pending => session ev f prompt pending rest := by
  induction read generalizing buffer with
  | nil => rfl
  | cons line read ih =>
    simp only [List.map_cons, List.cons_append, session, takeLines, List.foldlM_cons, takeLine,
      bind_assoc, ih]

namespace Waiting

variable {buffer : List Char}

/-- A buffer in which something waits is more than layout. -/
theorem not_onlyBlanks (h : Waiting buffer) (hne : buffer ≠ []) : ¬OnlyBlanks buffer := by
  intro hblank
  rw [← Datum.read_finished_iff, h.resolve_left hne] at hblank
  simp at hblank

/-- A buffer is blank if nothing waits in it. -/
theorem allBlank_eq (h : Waiting buffer) : Text.allBlank buffer = decide (buffer = []) := by
  by_cases hne : buffer = []
  · rw [hne]
    rfl
  · rw [decide_eq_false hne, Bool.eq_false_iff]
    exact fun hall => h.not_onlyBlanks hne (.of_allBlank hall)

theorem showPrompt_eq (h : Waiting buffer) (prompt : Option String) (m : Machine) :
    showPrompt prompt buffer m = .ok () { m with out := m.out ++ promptText prompt buffer } := by
  cases prompt with
  | none => simp [showPrompt, promptText, pure, EStateM.pure]
  | some p =>
    simp only [showPrompt, h.allBlank_eq, decide_eq_true_eq]
    rfl

end Waiting

/-- A buffer in which something waits is reported at the end of the input. -/
def closingText (buffer : List Char) : String :=
  if buffer = [] then "" else "Error: unexpected end of input\n"

/-- At the end of the input what waits is reported, and the session ends. -/
theorem Waiting.session_nil {buffer : List Char} (h : Waiting buffer) (prompt : Option String)
    (m : Machine) :
    session ev f prompt buffer [] m = .ok true
      { m with out := m.out ++ promptText prompt buffer ++ closingText buffer } := by
  rw [session, bind_ok (h.showPrompt_eq prompt m)]
  by_cases hne : buffer = []
  · subst hne
    simp [close, Text.allBlank_nil, closingText, bind, EStateM.bind, pure, EStateM.pure]
  · simp only [close, h.allBlank_eq, hne, closingText, decide_false, Bool.false_eq_true, if_false]
    rfl

theorem Works.takeLine_eq {prompt : Option String} {buffer line : List Char}
    (hb : Waiting buffer)
    (h : Works ev f (buffer ++ line) { m with out := m.out ++ promptText prompt buffer } ps
      pending m') : takeLine ev f prompt buffer line m = .ok pending m' := by
  rw [takeLine, bind_ok (hb.showPrompt_eq prompt m), h.turn_eq]

/-- What a session has done with its input. -/
structure Accounted (read : List (List Char)) (turns : List (List Portion))
    (buffer : List Char) : Prop where
  /-- There is a turn for every line. -/
  turns_length : turns.length = read.length
  /-- The input is the portions in their order, and then the buffer. -/
  input_eq : Portion.texts turns.flatten ++ buffer = read.flatten
  /-- The buffer is empty or an expression is open in it. -/
  waiting : Waiting buffer
  fits : ∀ p ∈ turns.flatten, p.Fits
  /-- Text is dropped in a turn up to the end of its line. -/
  dropped : ∀ k ps text e, turns[k]? = some ps → .dropped text e ∈ ps →
    ps.getLast? = some (.dropped text e) ∧
      Portion.texts (turns.take (k + 1)).flatten = (read.take (k + 1)).flatten

namespace History

variable {prompt : Option String} {read : List (List Char)} {turns : List (List Portion)}
  {buffer : List Char}

/-- All input that a session has taken is accounted for. -/
theorem accounted (h : History ev f prompt m read turns buffer m') :
    Accounted read turns buffer := by
  induction h with
  | start => exact ⟨rfl, rfl, .inl rfl, by simp, by simp⟩
  | @line read turns line buffer pending ps m₁ m₂ _ hw ih =>
    have hinput : Portion.texts (turns ++ [ps]).flatten ++ pending = (read ++ [line]).flatten := by
      rw [List.flatten_append, List.flatten_append, ← ih.input_eq, Portion.texts_append,
        List.flatten_singleton, List.flatten_singleton, List.append_assoc, hw.texts_append,
        List.append_assoc]
    refine ⟨by simp [ih.turns_length], hinput, hw.waiting_pending, ?_, fun k qs text e hk hd => ?_⟩
    · rw [List.flatten_append, List.flatten_singleton]
      exact List.forall_mem_append.mpr ⟨ih.fits, hw.fits⟩
    · rcases Nat.lt_or_ge k turns.length with hlt | hge
      · rw [List.getElem?_append_left hlt] at hk
        rw [List.take_append_of_le_length hlt,
          List.take_append_of_le_length (by rw [← ih.turns_length]; exact hlt)]
        exact ih.dropped k qs text e hk hd
      · -- It is the present line, and nothing waits behind it.
        obtain ⟨hlast, rfl⟩ : k - turns.length = 0 ∧ ps = qs := by
          rw [List.getElem?_append_right hge, List.getElem?_singleton] at hk
          split at hk
          · next hzero => exact ⟨hzero, Option.some.inj hk⟩
          · simp at hk
        obtain ⟨hends, rfl, -⟩ := hw.dropped_last hd
        refine ⟨hends, ?_⟩
        rw [List.take_of_length_le (by simp; omega),
          List.take_of_length_le (by simp [← ih.turns_length]; omega)]
        simpa using hinput

/-- If text of the last line was dropped, then the error is the last that was written. -/
theorem reported (h : History ev f prompt m read turns buffer m') {ps : List Portion}
    {text : List Char} {e : Fault} (hlast : turns.getLast? = some ps)
    (hd : .dropped text e ∈ ps) :
    ∃ m₁ : Machine, m' = { m₁ with out := m₁.out ++ errorLine m₁.store e } := by
  cases h with
  | start => simp at hlast
  | line _ hw =>
    rw [List.getLast?_concat] at hlast
    obtain rfl := Option.some.inj hlast
    exact (hw.dropped_last hd).2.2

/-- The history of a session determines where its lines lead. -/
theorem takeLines_eq (h : History ev f prompt m read turns buffer m') :
    takeLines ev f prompt [] read m = .ok buffer m' := by
  induction h with
  | start => rfl
  | line h hw ih =>
    rw [takeLines] at ih
    rw [takeLines, List.foldlM_append, bind_ok ih, List.foldlM_cons]
    exact bind_ok (hw.takeLine_eq h.accounted.waiting)

/-- Lines that a session has taken make a history. -/
theorem of_takeLines (h : takeLines ev f prompt [] read m = .ok buffer m') :
    ∃ turns, History ev f prompt m read turns buffer m' := by
  induction read using List.reverseRecOn generalizing buffer m' with
  | nil =>
    obtain ⟨rfl, rfl⟩ := EStateM.Result.ok.inj h
    exact ⟨[], .start⟩
  | append_singleton read line ih =>
    rw [takeLines, List.foldlM_append] at h
    obtain ⟨buffer₁, m₁, hread, h⟩ := bind_eq_ok h
    obtain ⟨turns, hturns⟩ := ih hread
    rw [List.foldlM_cons] at h
    obtain ⟨pending, m₂, hline, h⟩ := bind_eq_ok h
    obtain ⟨rfl, rfl⟩ := EStateM.Result.ok.inj h
    rw [takeLine, bind_ok (hturns.accounted.waiting.showPrompt_eq prompt m₁)] at hline
    obtain ⟨ps, hps⟩ := turn_eq_ok_iff.mp hline
    exact ⟨turns ++ [ps], .line hturns hps⟩

end History

end

end Repl

/-- A session loses and repeats no input. After any of its lines it has a history: for every line a
sequence of portions, each with what was done, and a buffer. The input so far is the portions in
their order and then the buffer, in which nothing waits or an expression is open. Text was dropped
up to the end of a line only, because of an error that was written behind all else of that line. If
the input ends there, then the open expression is reported if there is one. -/
theorem input_accounted (ev : Evaluator) (f : FrameId) (prompt : Option String) {s : String}
    {read rest : List (List Char)} (hlines : Text.lines s.toList = read ++ rest) :
    s.toList = read.flatten ++ rest.flatten ∧
    (repl ev f prompt s.toUTF8 = Repl.takeLines ev f prompt [] read >>= fun buffer =>
      Repl.session ev f prompt buffer (rest.map some)) ∧
    ∀ m buffer m',
      (Repl.takeLines ev f prompt [] read m = .ok buffer m' ↔
        ∃ turns, Repl.History ev f prompt m read turns buffer m') ∧
      ∀ turns, Repl.History ev f prompt m read turns buffer m' →
        buffer <:+ read.flatten ∧ Repl.Accounted read turns buffer ∧
        (∀ ps text e, turns.getLast? = some ps → .dropped text e ∈ ps →
          ∃ m₁ : Machine, m' = { m₁ with out := m₁.out ++ Repl.errorLine m₁.store e }) ∧
        Repl.session ev f prompt buffer [] m' = .ok true
          { m' with
            out := m'.out ++ Repl.promptText prompt buffer ++ Repl.closingText buffer } := by
  refine ⟨?_, ?_, fun m buffer m' => ⟨⟨Repl.History.of_takeLines, ?_⟩, fun turns h => ?_⟩⟩
  · rw [← List.flatten_append, ← hlines, Text.flatten_lines]
  · rw [repl, Text.inputLines_toUTF8, hlines, List.map_append]
    exact Repl.session_append prompt [] read (rest.map some)
  · rintro ⟨turns, h⟩
    exact h.takeLines_eq
  · exact ⟨⟨_, h.accounted.input_eq⟩, h.accounted, fun _ _ _ => h.reported,
      h.accounted.waiting.session_nil prompt m'⟩

/-- A quotation that goes over the end of a line, an expression that fails in front of another, and
a list that is left open. -/
theorem input_accounted_open :
    let s := "'\na x y\n("
    let m := Machine.new [] fun _ => .absent
    let out := "> ... a\nError: unknown identifier: x\n> ... Error: unexpected end of input\n"
    repl evaluate Machine.globalFrame (some "> ") s.toUTF8 m =
      .ok true { m with nextLabel := 3, out } := by
  intro s m out
  have hquote : Datum.read "'\na x y\n".toList = (.ok (Datum.sym "a").quoting, " x y\n".toList) :=
    (Datum.readWithin_token (p := .more [.quotation]) rfl rfl).trans
      (Datum.readWithin_token (p := .done (Datum.sym "a").quoting) rfl rfl)
  have hx : Datum.read " x y\n".toList = (.ok (.sym "x"), " y\n".toList) :=
    Datum.readWithin_token (p := .done (.sym "x")) rfl rfl
  have hquoteText : Datum.IsText "'\na".toList (Datum.sym "a").quoting :=
    ⟨(Datum.readWithin_token (p := .more [.quotation]) rfl rfl).trans
      (Datum.readWithin_token (p := .done (Datum.sym "a").quoting) rfl rfl), rfl⟩
  have hxText : Datum.IsText "x".toList (.sym "x") :=
    ⟨Datum.readWithin_token (p := .done (.sym "x")) rfl rfl, rfl⟩
  have hopenQuote : (Datum.read "'\n".toList).1 = .error .incomplete := by
    rw [Datum.read, Datum.readWithin_token (p := .more [.quotation]) rfl rfl, Progress.resume,
      Datum.readWithin_eq]
    rfl
  have hopenList : (Datum.read "(".toList).1 = .error .incomplete := by
    rw [Datum.read, Datum.readWithin_token (p := .more [.list []]) rfl rfl, Progress.resume,
      Datum.readWithin_eq]
    rfl
  have heval : evalDatum evaluate Machine.globalFrame (Datum.sym "a").quoting
      { m with out := "> ... " } = .ok (.sym "a") { m with nextLabel := 3, out := "> ... " } := rfl
  have hfail : evalDatum evaluate Machine.globalFrame (.sym "x")
      { m with nextLabel := 3, out := "> ... a\n" } =
      .error (.fault (.unbound "x")) { m with nextLabel := 3, out := "> ... a\n" } := by
    with_unfolding_all rfl
  have hfirst : Repl.History evaluate Machine.globalFrame (some "> ") m ["'\n".toList] [[]]
      "'\n".toList { m with out := "> " } := .line .start (.waiting hopenQuote)
  have hsecond := Repl.History.line hfirst
    (.evaluated (w := []) hquote .nil hquoteText heval
      (.failed (w := [' ']) hx (.blank (by decide) .nil) hxText hfail))
  have hthird := Repl.History.line hsecond (.waiting hopenList)
  have hlines : Text.lines s.toList =
      ["'\n".toList, "a x y\n".toList, "(".toList] ++ [] := by decide
  obtain ⟨-, hrepl, hsession⟩ :=
    input_accounted evaluate Machine.globalFrame (some "> ") hlines
  obtain ⟨htake, hclose⟩ := hsession _ _ _
  rw [hrepl, bind_ok (htake.mpr ⟨_, hthird⟩)]
  exact (hclose _ hthird).2.2.2

end Scheme
