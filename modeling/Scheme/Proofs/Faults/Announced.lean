import Scheme.Proofs.Faults.Raised
import Scheme.Proofs.Reading.Bounded

/-!
# Faults under the name of their procedure

A fault that a built-in procedure raises is reported under its name, unless the message begins with
that name already. `builtin_faults_announced` says what comes of it: the message of every fault of
a standard procedure begins with its name and a colon, with one exception. A file that cannot be
read is reported by its path, and a path can begin with `load` and go on otherwise; then it is taken
for the name of the procedure that loads the file (`load_fault_unannounced`).
-/

namespace Scheme

open EvalM

/-! ## Evaluating and loading -/

/-- Every built-in procedure is a standard one or one of an embedding program. -/
theorem Builtin.mem_standard_or_hosting (b : Builtin) : b ∈ standard ++ hosting := by
  rw [List.mem_append, or_iff_not_imp_left, mem_standard_iff]
  intro h
  simp only [not_forall, not_not] at h
  obtain ⟨op, rfl⟩ := h
  cases op <;> simp [hosting]

/-- The message of a regular fault that begins with the name of a procedure that evaluates goes on
with a colon. -/
theorem Fault.Regular.begins_colon {e : Fault} (h : e.Regular) {op : ControlOp}
    (hop : op ∈ [ControlOp.eval, ControlOp.apply]) (t : FrameId → String)
    (hn : Begins op.name (e.message t)) : Begins (op.name ++ ": ") (e.message t) := by
  induction h with
  | plain h =>
    obtain ⟨o, ho⟩ := Option.isSome_iff_exists.mp h
    have hclash := clash_openings o (opening_mem ho) (.control op)
      ((Builtin.mem_standard_iff _).mpr (by simp))
    exact absurd hn (hclash.not_begins (begins_opening ho t))
  | @inside b e he ih =>
    by_cases hb : b = .control op
    · subst hb
      refine begins_colon_under (ih ?_)
      simpa using hop
    · have hclash := clash_names op hop b b.mem_standard_or_hosting hb
      exact absurd hn (hclash.not_begins (begins_under b.name _))

namespace Fault

theorem Plain.not_begins {e : Fault} (h : e.Plain) {b : Builtin} (hb : b ∈ Builtin.standard)
    (t : FrameId → String) : ¬Begins b.name (e.message t) := by
  obtain ⟨o, ho⟩ := Option.isSome_iff_exists.mp h
  exact (clash_openings o (opening_mem ho) b hb).not_begins (begins_opening ho t)

/-- A file cannot be read whose path begins like the name of the procedure that loads it, but
neither is that name nor goes on with a colon and a blank. -/
def Unannounced (e : Fault) : Prop :=
  ∃ path err, e = .inside "load" (.unreadableSource path err) ∧
    Begins "load" path ∧ path ≠ "load" ∧ ¬Begins "load: " path

/-- Only reports of files that cannot be read are unannounced. -/
theorem Regular.not_unannounced {e : Fault} (h : e.Regular) (name : String) :
    ¬(Fault.inside name e).Unannounced := by
  rintro ⟨path, err, he, -⟩
  cases he
  cases h with
  | plain h => cases h

end Fault

/-- A path does not begin with the name only when the colon is put behind it. -/
theorem begins_load_iff (path rest : String) :
    Begins "load" (path ++ ": " ++ rest) ↔ Begins "load" path := by
  have hload : "load".toList = ['l', 'o', 'a', 'd'] := by rfl
  have hcolon : ": ".toList = [':', ' '] := by rfl
  rw [Begins, Begins, String.toList_append, String.toList_append, hload, hcolon]
  rcases path.toList with _ | ⟨c₁, _ | ⟨c₂, _ | ⟨c₃, _ | ⟨c₄, cs⟩⟩⟩⟩ <;>
    simp [List.cons_prefix_cons]

theorem begins_load_colon_iff {path : String} (h : path ≠ "load") (rest : String) :
    Begins "load: " (path ++ ": " ++ rest) ↔ Begins "load: " path := by
  have hload : "load: ".toList = ['l', 'o', 'a', 'd', ':', ' '] := by rfl
  have hcolon : ": ".toList = [':', ' '] := by rfl
  have hpath : path.toList ≠ ['l', 'o', 'a', 'd'] := fun he => h (String.toList_inj.mp he)
  rw [Begins, Begins, String.toList_append, String.toList_append, hload, hcolon]
  generalize path.toList = cs at hpath
  rcases cs with _ | ⟨c₁, _ | ⟨c₂, _ | ⟨c₃, _ | ⟨c₄, _ | ⟨c₅, _ | ⟨c₆, cs⟩⟩⟩⟩⟩⟩ <;>
    simp [List.cons_prefix_cons]
  -- What is left is a path of four letters.
  rintro rfl rfl rfl rfl
  exact hpath rfl

theorem unannounced_unreadable_iff {path : String} {err : ReadError} :
    (Fault.inside "load" (.unreadableSource path err)).Unannounced ↔
      Begins "load" path ∧ path ≠ "load" ∧ ¬Begins "load: " path := by
  constructor
  · rintro ⟨_, _, ⟨⟩, h⟩
    exact h
  · exact fun h => ⟨path, err, rfl, h⟩

/-- The report that a file cannot be read, under the name of the procedure that loads it. -/
theorem begins_unreadable_iff (path : String) (err : ReadError) (t : FrameId → String) :
    Begins "load: " (Fault.message t (.inside "load" (.unreadableSource path err))) ↔
      ¬(Fault.inside "load" (.unreadableSource path err)).Unannounced := by
  change Begins "load: " (Fault.under "load" (path ++ ": " ++ err.message)) ↔ _
  rw [unannounced_unreadable_iff]
  by_cases hl : Begins "load" path
  · rw [Fault.under_of_begins ((begins_load_iff path _).mpr hl)]
    by_cases hp : path = "load"
    · subst hp
      exact iff_of_true ((Begins.refl "load: ").append _) (by simp)
    · rw [begins_load_colon_iff hp]
      simp [hl, hp]
  · rw [Fault.under_of_not_begins (fun h => hl ((begins_load_iff path _).mp h))]
    exact iff_of_true ((Begins.refl "load: ").append _) (by simp [hl])

/-- The message of every fault of a standard procedure begins with its name and a colon, whatever
the arguments, the frame of the call, the machine and the files, but for one kind of report. -/
theorem builtin_faults_announced {b : Builtin} (hb : b ∈ Builtin.standard) (n : Nat)
    (args : List Value) (f : FrameId) {m m' : Machine} {e : Fault}
    (h : b.call (run n) args f m = .error (.fault e) m') (t : FrameId → String) :
    Begins (b.name ++ ": ") (e.message t) ↔ ¬e.Unannounced := by
  obtain ⟨e₀, rfl, h₀⟩ := Builtin.fault_of_call h
  have announced : e₀.Regular →
      (Begins b.name (e₀.message t) → Begins (b.name ++ ": ") (e₀.message t)) →
      (Begins (b.name ++ ": ") (Fault.message t (.inside b.name e₀)) ↔
        ¬(Fault.inside b.name e₀).Unannounced) :=
    fun hreg hcolon => iff_of_true (Fault.begins_colon_under hcolon) (hreg.not_unannounced b.name)
  have plain : e₀.Plain → (Begins (b.name ++ ": ") (Fault.message t (.inside b.name e₀)) ↔
      ¬(Fault.inside b.name e₀).Unannounced) :=
    fun hp => announced (.plain hp) fun hn => absurd hn (hp.not_begins hb t)
  by_cases hc : ∃ op, b = .control op
  · obtain ⟨op, rfl⟩ := hc
    cases op with
    | eval | apply =>
      have hreg := ControlOp.raises_run (raises_run n) (by simp) _ h₀
      exact announced hreg (hreg.begins_colon (by simp) t)
    | load =>
      rcases ControlOp.raises_load _ _ h₀ with hp | ⟨path, err, rfl⟩
      · exact plain hp
      · exact begins_unreadable_iff path err t
  · exact plain (Builtin.raises_run hb (fun op h => hc ⟨op, h⟩) _ _ h₀)

/-- A fault inside of a nested application, which has two names in front. -/
theorem builtin_faults_announced_nested :
    let m := Session.new fun _ => .absent
    let args : List Value := [.builtin (.list .car), .pair 1 (.int 5) .nil]
    Builtin.control .apply ∈ Builtin.standard ∧
    ∃ e, (Builtin.control .apply).call (run 2) args Machine.globalFrame m = .error (.fault e) m ∧
      e.message m.store.frameText = "apply: car: argument must be a pair" ∧
      Begins "apply: " (e.message m.store.frameText) ∧ ¬e.Unannounced := by
  intro m args
  have happly : Builtin.control .apply ∈ Builtin.standard := by decide
  have hcall : (Builtin.control .apply).call (run 2) args Machine.globalFrame m =
      .error (.fault (.inside "apply" (.inside "car" .notPair))) m := rfl
  have hiff := builtin_faults_announced happly 2 args Machine.globalFrame hcall m.store.frameText
  have hbegins : Begins "apply: "
      (Fault.message m.store.frameText (.inside "apply" (.inside "car" .notPair))) := by
    decide +kernel
  exact ⟨happly, _, hcall, by decide +kernel, hbegins, hiff.mp hbegins⟩

/-- A file of this name is reported as if its path were the name of the procedure. -/
theorem load_fault_unannounced :
    let files : String → FileEntry := fun name =>
      if name = "loader.scm" then .file ")".toUTF8 else .absent
    let m := Session.new files
    Builtin.control .load ∈ Builtin.standard ∧
    ∃ e, (Builtin.control .load).call evaluate [.sym "loader"] Machine.globalFrame m =
        .error (.fault e) m ∧
      e.message m.store.frameText = "loader.scm: syntax error: unexpected ')'" ∧
      ¬Begins "load: " (e.message m.store.frameText) := by
  intro files m
  have hread : Datum.read ")".toList = (.error (.misspelt .strayClosing), []) := by
    rw [Datum.read, Datum.readWithin_eq]
    rfl
  have hprogram : Program.ofText ")" = ⟨[], .misspelt .strayClosing⟩ :=
    Program.ofChars_of_error hread
  have hfound : findSource "loader" m = .ok ("loader.scm", ")".toUTF8) m := rfl
  have htext : String.fromUTF8? ")".toUTF8 = some ")" := by decide +kernel
  have hload : loadFile evaluate "loader" Machine.globalFrame m =
      .error (.fault (.unreadableSource "loader.scm" (.misspelt .strayClosing))) m := by
    rw [loadFile, bind_ok hfound]
    simp only [htext, loadSource, hprogram]
    rfl
  have hrun : (Builtin.control .load).run evaluate [.sym "loader", .env Machine.globalFrame] m =
      .error (.fault (.unreadableSource "loader.scm" (.misspelt .strayClosing))) m := by
    change (loadFile evaluate "loader" Machine.globalFrame >>= fun _ => pure Value.undefined) m = _
    simp only [bind, EStateM.bind, hload]
  have hmessage : Fault.message m.store.frameText
      (.inside "load" (.unreadableSource "loader.scm" (.misspelt .strayClosing))) =
        "loader.scm: syntax error: unexpected ')'" := by
    decide +kernel
  refine ⟨by decide, _, ?_, hmessage, ?_⟩
  · simp only [Builtin.call, Builtin.arguments, Builtin.wantsFrame, if_true, List.cons_append,
      List.nil_append, hrun]
    rfl
  · rw [hmessage]
    decide +kernel

end Scheme
