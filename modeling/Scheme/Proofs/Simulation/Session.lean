import Scheme.Proofs.Simulation.Eval
import Scheme.Session

/-!
# Sessions on corresponding machines

What can be asked of a session, on two machines that correspond: evaluating a text or a value,
applying a procedure, loading a text, and the read-eval-print loop. The loop and loading report
faults and go on, so here no fault of the first run may be lax.
-/

namespace Scheme.Simulation

open EvalM

variable {W : Type} [Preorder W] {S : Simulation W} {w : W}

/-! ## Whole texts and values -/

/-- Expressions in order with corresponding evaluators. -/
theorem evalInTurn {ev ev' : Evaluator} (hev : S.Evaluators ev ev') :
    ∀ {w : W} {last last' : Value} (ds : List Datum),
      S.frame w Machine.globalFrame Machine.globalFrame → S.value w last last' →
        S.Agree w S.value (Session.evalInTurn ev last ds) (Session.evalInTurn ev' last' ds)
  | _, _, _, [], _, hv => .pure hv
  | _, _, _, d :: ds, hg, _ =>
    (evalDatum hev hg d).bind fun _ _ _ hw hv => evalInTurn hev ds (S.frame_mono hw hg) hv

section Evaluate

variable [S.Nests]

/-- Evaluating with ample fuel carries out corresponding tasks with corresponding outcomes. -/
theorem evaluate : S.Evaluators Scheme.evaluate Scheme.evaluate := S.run ample

variable (hg : S.frame w Machine.globalFrame Machine.globalFrame)

include hg

/-- The same text comes out alike on machines that correspond. -/
theorem evalText (source : String) :
    S.Agree w S.value (Session.evalText source) (Session.evalText source) := by
  unfold Session.evalText
  split
  · exact evalInTurn evaluate _ hg (S.constant w rfl)
  · exact .fail (fault_plain rfl)

/-- Corresponding values come out alike when they are evaluated in the global frame. -/
theorem evalValue {e e' : Value} (he : S.value w e e') :
    S.Agree w S.value (Session.evalValue e) (Session.evalValue e') :=
  eval evaluate he hg

/-- Corresponding procedures give corresponding results on corresponding arguments. -/
theorem applyValue {p p' args args' : Value} (hp : S.value w p p') (ha : S.value w args args') :
    S.Agree w S.value (Session.applyValue p args) (Session.applyValue p' args') := by
  refine (applyStep evaluate hp (items ha) hg).bind fun w₁ s s' _ hs => ?_
  cases hs with
  | done hv => exact .pure hv
  | next he hf => exact evaluate _ _ _ (.eval he hf)

end Evaluate

/-! ## The read-eval-print loop -/

namespace Repl

/-- Corresponding results are printed by the same text, or not at all. -/
theorem printResult {v v' : Value} (h : S.value w v v') :
    S.Agree w (fun _ _ _ => True) (Scheme.Repl.printResult v) (Scheme.Repl.printResult v') := by
  have hemit : S.Agree w (fun _ _ _ => True) (do EvalM.emit ((← writtenNow v) ++ "\n"))
      (do EvalM.emit ((← writtenNow v') ++ "\n")) :=
    (Agree.writtenNow h).bind fun _ t _ _ ht => ht ▸ .emit (t ++ "\n")
  cases S.layer h with
  | undefined => exact .pure trivial
  | _ => exact hemit

/-- A fault is reported, and then there is a result. -/
theorem reported {α : Type} {e e' : Fault} (h : S.fault w e e') (a : α) :
    S.Agree w (fun _ => Eq) (do EvalM.emit (← Scheme.report e); return a)
      (do EvalM.emit (← Scheme.report e'); return a) :=
  (report h).bind fun _ t _ _ ht => ht ▸ (Agree.emit t).bind fun _ _ _ _ _ => .pure rfl

theorem showPrompt (prompt : Option String) (buffer : List Char) :
    S.Agree w (fun _ _ _ => True) (Scheme.Repl.showPrompt prompt buffer)
      (Scheme.Repl.showPrompt prompt buffer) := by
  cases prompt with
  | none => exact .pure trivial
  | some p => exact .emit _

theorem close (buffer : List Char) :
    S.Agree w (fun _ _ _ => True) (Scheme.Repl.close buffer) (Scheme.Repl.close buffer) :=
  .ite (.pure trivial) ((report (fault_plain rfl)).bind fun _ t _ _ ht => ht ▸ .emit t)

variable (hl : ∀ e, ¬S.lax (.fault e)) {ev ev' : Evaluator} (hev : S.Evaluators ev ev')

include hl hev

/-- Data are evaluated and their results printed in step, up to the first fault. -/
theorem evalPrint : ∀ {w : W} {f f' : FrameId} (ds : List Datum), S.frame w f f' →
    S.Agree w (fun _ => Eq) (Scheme.Repl.evalPrint ev f ds) (Scheme.Repl.evalPrint ev' f' ds)
  | _, _, _, [], _ => .pure rfl
  | _, _, _, d :: ds, hf => by
    refine (Agree.attempt hl (evalDatum hev hf d)).bind fun w₁ r r' hw₁ hr => ?_
    cases hr with
    | ok hv =>
      exact (printResult hv).bind fun _ _ _ hw₂ _ => evalPrint ds (S.frame_mono (hw₁.trans hw₂) hf)
    | error he => exact reported he false

/-- One turn of the loop leaves the same text pending on both sides. -/
theorem turn {f f' : FrameId} (buffer : List Char) (hf : S.frame w f f') :
    S.Agree w (fun _ => Eq) (Scheme.Repl.turn ev f buffer) (Scheme.Repl.turn ev' f' buffer) := by
  refine (evalPrint hl hev _ hf).bind fun w₁ b _ _ hb => hb ▸ ?_
  refine .ite ?_ (.pure rfl)
  cases (Program.ofChars buffer).ending with
  | finished => exact .pure rfl
  | incomplete pending => exact .pure rfl
  | misspelt e => exact reported (fault_plain rfl) []

/-- The loop takes the same turns on both sides, whatever lines come in. -/
theorem session (prompt : Option String) : ∀ {w : W} {f f' : FrameId} (buffer : List Char)
    (lines : List (Option (List Char))), S.frame w f f' →
      S.Agree w (fun _ => Eq) (Scheme.Repl.session ev f prompt buffer lines)
        (Scheme.Repl.session ev' f' prompt buffer lines)
  | _, _, _, buffer, [], _ =>
    (showPrompt prompt buffer).bind fun _ _ _ _ _ =>
      (close buffer).bind fun _ _ _ _ _ => .pure rfl
  | _, _, _, buffer, .none :: _, _ => (showPrompt prompt buffer).bind fun _ _ _ _ _ => .pure rfl
  | _, _, _, buffer, some line :: rest, hf =>
    (showPrompt prompt buffer).bind fun _ _ _ hw₁ _ =>
      (turn hl hev (buffer ++ line) (S.frame_mono hw₁ hf)).bind fun _ pending _ hw₂ hp =>
        hp ▸ session prompt pending rest (S.frame_mono (hw₁.trans hw₂) hf)

end Repl

end Scheme.Simulation
