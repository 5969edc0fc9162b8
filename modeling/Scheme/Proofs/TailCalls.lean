import Scheme.Proofs.Reading.Bounded
import Scheme.Proofs.Rules
import Scheme.Session

/-!
# Tail calls

Four procedures that call themselves in tail position: through `if`, through `cond`, `else` and
`begin`, through `and`, `or` and `if`, and through `let`. The first is defined with lexical scope or
with dynamic scope. `tail_calls_any_count` says that all of them come to their results however often
they go round, from any depth that leaves room for three levels: one for the call itself, one for
the operands and tests on the way, and one for the parts of these.

A turn of a loop ends in a call that takes the loop's own place, so by the rules of `ComesTo` the
number of levels does not depend on the number of turns, and each of `countDown_comesTo`,
`loop_comesTo`, `evenOdd_comesTo` and `letLoop_comesTo` is an induction over that number. Every turn
makes a frame, and with dynamic scope the frames form a chain as long as the loop. What the
induction carries along is the `Scene`: the names that a turn needs have the right values in the
newest frame.
-/

namespace Scheme

open EvalM

/-! ## The loops -/

namespace TailCalls

/-- `(if (= n 0) 'done (count-down (- n 1)))` -/
def countDownBody : Datum :=
  .ofList [.sym "if", .ofList [.sym "=", .sym "n", .int 0], .quoting (.sym "done"),
    .ofList [.sym "count-down", .ofList [.sym "-", .sym "n", .int 1]]]

/-- `(cond ((= n 0) acc) (else (begin (loop (- n 1) (+ acc 1)))))` -/
def loopBody : Datum :=
  .ofList [.sym "cond", .ofList [.ofList [.sym "=", .sym "n", .int 0], .sym "acc"],
    .ofList [.sym "else", .ofList [.sym "begin", .ofList [.sym "loop",
      .ofList [.sym "-", .sym "n", .int 1], .ofList [.sym "+", .sym "acc", .int 1]]]]]

/-- `(and #t (or #f (if (= n 0) #t (even-odd (- n 1)))))` -/
def evenOddBody : Datum :=
  .ofList [.sym "and", .bool true, .ofList [.sym "or", .bool false,
    .ofList [.sym "if", .ofList [.sym "=", .sym "n", .int 0], .bool true,
      .ofList [.sym "even-odd", .ofList [.sym "-", .sym "n", .int 1]]]]]

/-- `(let ((m (- n 1))) (if (< m 0) 'ok (let-loop m)))` -/
def letLoopBody : Datum :=
  .ofList [.sym "let", .ofList [.ofList [.sym "m", .ofList [.sym "-", .sym "n", .int 1]]],
    .ofList [.sym "if", .ofList [.sym "<", .sym "m", .int 0], .quoting (.sym "ok"),
      .ofList [.sym "let-loop", .sym "m"]]]

/-- The procedures on numbers that the loops call. -/
def arithmetic : Bindings :=
  [("=", .builtin (.numeric (.compare .eq))), ("<", .builtin (.numeric (.compare .lt))),
    ("-", .builtin (.numeric .sub)), ("+", .builtin (.numeric .add))]

/-- What a loop finds outside of itself: procedures on numbers, and itself under its name. -/
def surroundings (x : String) (p : Value) : Bindings := (x, p) :: arithmetic

/-- The frame `f` gives the names of `own` their values, and from it as well as from the global
frame a loop finds its surroundings. -/
structure Scene (x : String) (p : Value) (own : Bindings) (s : Store) (f : FrameId) : Prop where
  global : s.Shows Machine.globalFrame (surroundings x p)
  frame : s.Shows f (surroundings x p)
  own : s.Shows f own

/-- A scope whose free names are those of the global frame or those of the caller. -/
def Plain (scope : Scope) : Prop := scope = .lexical Machine.globalFrame ∨ scope = .dynamic

section

variable {x : String} {p : Value} {own : Bindings} {s : Store} {f : FrameId}

/-- The scene in the new frame of a call, or of a `let`, whose names hide nothing. -/
theorem Scene.enter (h : Scene x p own s f) {scope : Scope} (hscope : Plain scope) {b : Bindings}
    (ys : List String) (hb : b.names = ys) (hys : ∀ y ∈ ys, y ∉ x :: arithmetic.names) :
    Scene x p b (s.push ⟨some (scope.parent f), b⟩) s.size := by
  subst hb
  have hparent : s.Shows (scope.parent f) (surroundings x p) := by
    rcases hscope with rfl | rfl
    · exact h.global
    · exact h.frame
  exact ⟨h.global.push _, hparent.push_self hys, .push_own s hparent.lt_size b⟩

/-- Arithmetic on a name and a constant. -/
theorem Scene.arithmetic (h : Scene x p own s f) {y z : String} {op : NumericOp} {a b : Int}
    {v : Value} (hkey : Keyword.ofName? y = none)
    (hy : (surroundings x p).lookup y = some (.builtin (.numeric op)))
    (hz : own.lookup z = some (.int a)) (hv : op.run [.int a, .int b] = .ok v) :
    ComesTo 1 s f (.ofList [.sym y, .sym z, .int b]) v s :=
  .numeric hkey (h.frame.get?_eq hy) (.cons (.name (h.own.get?_eq hz)) (.cons (.int b) .nil)) hv

theorem run_sub_one (n : Nat) :
    NumericOp.run [.int (n + 1 : Nat), .int 1] .sub = .ok (.int n) := by
  have h : ((n + 1 : Nat) : Int) - 1 = n := by omega
  change Except.ok (Value.int (((n + 1 : Nat) : Int) - 1)) = _
  rw [h]

theorem run_lt_zero (n : Nat) :
    NumericOp.run [.int n, .int 0] (.compare .lt) = .ok (.bool false) := by
  have h : compare (n : Int) 0 ≠ .lt := fun h => by
    have := compare_lt_iff_lt.mp h
    omega
  change Except.ok (Value.bool (true && compare (n : Int) 0 == .lt)) = _
  rw [beq_eq_false_iff_ne.mpr h, Bool.and_false]

/-- In the scene of a loop its counter less one is evaluated with one level to spare. -/
theorem Scene.less_one {n : Nat} (h : Scene x p own s f)
    (hx : (surroundings x p).lookup "-" = some (.builtin (.numeric .sub)))
    (hn : own.lookup "n" = some (.int (n + 1 : Nat))) :
    ComesTo 1 s f (.ofList [.sym "-", .sym "n", .int 1]) (.int n) s :=
  h.arithmetic rfl hx hn (run_sub_one n)

/-- The countdown comes to its end from any number, with two levels to spare. -/
theorem countDown_comesTo {scope : Scope} (hscope : Plain scope)
    (hp : p.Procedure scope ["n"] countDownBody) (n : Nat)
    (h : Scene "count-down" p [("n", .int n)] s f) :
    ∃ s', ComesTo 2 s f countDownBody (.sym "done") s' := by
  induction n generalizing s f with
  | zero => exact ⟨s, .conditional (h.arithmetic rfl rfl rfl rfl) (.quotation "done")⟩
  | succ n ih =>
    -- The call takes the place of the body: the two levels that the hypothesis needs are enough.
    obtain ⟨s', hs'⟩ := ih (h.enter hscope ["n"] rfl (by decide))
    exact ⟨s', .conditional (h.arithmetic rfl rfl rfl rfl)
      (.call rfl (h.frame.get?_eq rfl) hp (.cons (h.less_one rfl rfl) .nil) rfl hs')⟩

/-- The counting loop comes to the sum of counter and accumulator. -/
theorem loop_comesTo (hp : p.Procedure (.lexical Machine.globalFrame) ["n", "acc"] loopBody)
    (n : Nat) (a : Int) (h : Scene "loop" p [("n", .int n), ("acc", .int a)] s f) :
    ∃ s', ComesTo 2 s f loopBody (.int (a + n)) s' := by
  induction n generalizing s f a with
  | zero =>
    refine ⟨s, .clauses (by simp [Datum.ofList_cons]) (h.arithmetic rfl rfl rfl rfl) ?_⟩
    rw [Int.natCast_zero, Int.add_zero]
    exact .name (h.own.get?_eq rfl)
  | succ n ih =>
    have hmore : ComesTo 1 s f (.ofList [.sym "+", .sym "acc", .int 1]) (.int (0 + a + 1)) s :=
      h.arithmetic rfl rfl rfl rfl
    obtain ⟨s', hs'⟩ := ih (0 + a + 1) (h.enter (.inl rfl) ["n", "acc"] rfl (by decide))
    have hsum : a + (n + 1 : Nat) = 0 + a + 1 + n := by omega
    rw [hsum]
    exact ⟨s', .clauses (by simp [Datum.ofList_cons]) (h.arithmetic rfl rfl rfl rfl)
      (.sequence (.call rfl (h.frame.get?_eq rfl) hp (.cons (h.less_one rfl rfl)
        (.cons hmore .nil)) rfl hs'))⟩

/-- The loop through `and` and `or` comes to true from any number. -/
theorem evenOdd_comesTo (hp : p.Procedure (.lexical Machine.globalFrame) ["n"] evenOddBody)
    (n : Nat) (h : Scene "even-odd" p [("n", .int n)] s f) :
    ∃ s', ComesTo 2 s f evenOddBody (.bool true) s' := by
  induction n generalizing s f with
  | zero =>
    exact ⟨s, .conjunction (.bool true) rfl (.disjunction (.bool false) rfl
      (.conditional (h.arithmetic rfl rfl rfl rfl) (.bool true)))⟩
  | succ n ih =>
    obtain ⟨s', hs'⟩ := ih (h.enter (.inl rfl) ["n"] rfl (by decide))
    exact ⟨s', .conjunction (.bool true) rfl (.disjunction (.bool false) rfl
      (.conditional (h.arithmetic rfl rfl rfl rfl)
        (.call rfl (h.frame.get?_eq rfl) hp (.cons (h.less_one rfl rfl) .nil) rfl hs')))⟩

/-- The loop through `let` comes to its end from any number, though every round makes a frame. -/
theorem letLoop_comesTo (hp : p.Procedure (.lexical Machine.globalFrame) ["n"] letLoopBody)
    (n : Nat) (h : Scene "let-loop" p [("n", .int n)] s f) :
    ∃ s', ComesTo 2 s f letLoopBody (.sym "ok") s' := by
  induction n generalizing s f with
  | zero =>
    have hless : ComesTo 1 s f (.ofList [.sym "-", .sym "n", .int 1]) (.int (0 - 1)) s :=
      h.arithmetic rfl rfl rfl rfl
    have hin : Scene "let-loop" p [("m", .int (0 - 1))] _ s.size :=
      h.enter (.inr rfl : Plain .dynamic) ["m"] rfl (by decide)
    exact ⟨_, .binding hless (.conditional (hin.arithmetic rfl rfl rfl rfl) (.quotation "ok"))⟩
  | succ n ih =>
    -- A turn makes two frames, and the next call is made from the one of `let`.
    have hin : Scene "let-loop" p [("m", .int n)] _ s.size :=
      h.enter (.inr rfl : Plain .dynamic) ["m"] rfl (by decide)
    obtain ⟨s', hs'⟩ := ih (hin.enter (.inl rfl) ["n"] rfl (by decide))
    exact ⟨s', .binding (h.less_one rfl rfl) (.conditional
      (hin.arithmetic rfl rfl rfl (run_lt_zero n))
      (.call rfl (hin.frame.get?_eq rfl) hp (.cons (.name (hin.own.get?_eq rfl)) .nil) rfl hs'))⟩

end

end TailCalls

/-! ## The session -/

/-- From the global frame and at this depth, the expressions that the datum spells are evaluated to
the value. -/
def Machine.Answers (m : Machine) (depth : Nat) (d : Datum) (v : Value) : Prop :=
  ∀ e, Denotes e d → ∃ m', Finishes (fun fuel => run fuel (.eval e Machine.globalFrame))
    { m with depth := depth } (.ok v m')

/-- What comes to a value on some levels is evaluated from every depth that leaves them and one
more. -/
theorem ComesTo.answers {k depth : Nat} {m : Machine} {d : Datum} {v : Value} {s' : Store}
    (h : ComesTo k m.store Machine.globalFrame d v s') (hd : depth + (k + 1) ≤ maxDepth) :
    m.Answers depth d v := by
  intro e he
  obtain ⟨b, hb⟩ := h.nested (m := { m with depth := depth }) rfl hd he
  exact ⟨_, trivial, b, hb b (Nat.le_refl b)⟩

/-- In a session the text defines a name as a value of which `P` holds. -/
def Session.Defines (source x : String) (P : Value → Prop) : Prop :=
  ∀ m : Machine, m.depth + 2 ≤ maxDepth → ∃ p i, P p ∧
    Session.evalText source m = .ok (.sym x)
      { m with nextLabel := i, store := m.store.define Machine.globalFrame x p }

theorem Defines.text {source : String} {d : Datum} {x : String} {P : Value → Prop}
    (h : Defines d x P) (n : Nat) (hread : Program.readBounded n [] source.toList = some [d]) :
    Session.Defines source x P := by
  intro m hd
  obtain ⟨p, i, hp, heval⟩ := h m hd
  refine ⟨p, i, hp, ?_⟩
  rw [Session.evalText_of_readBounded n hread]
  simp only [Session.evalAll, Session.evalInTurn]
  rw [bind_ok heval]
  rfl

namespace TailCalls

/-- A countdown through `if`. -/
def countDown : String := "(define (count-down n) (if (= n 0) 'done (count-down (- n 1))))"

/-- The same as a procedure with dynamic scope. -/
def dynamicCountDown : String :=
  "(define count-down (mu (n) (if (= n 0) 'done (count-down (- n 1)))))"

/-- A counting loop through `cond`, `else` and `begin`. -/
def countingLoop : String :=
  "(define (loop n acc) (cond ((= n 0) acc) (else (begin (loop (- n 1) (+ acc 1))))))"

/-- A loop through `and`, `or` and `if`. -/
def evenOdd : String :=
  "(define (even-odd n) (and #t (or #f (if (= n 0) #t (even-odd (- n 1))))))"

/-- A loop through `let`. -/
def letLoop : String :=
  "(define (let-loop n) (let ((m (- n 1))) (if (< m 0) 'ok (let-loop m))))"

/-- A session's definitions of the loops, with the given one for the countdown. -/
def definitions (countDown : String) : EvalM Value := do
  let _ ← Session.evalText countDown
  let _ ← Session.evalText countingLoop
  let _ ← Session.evalText evenOdd
  Session.evalText letLoop

/-- Either countdown is a procedure whose free names are plain. -/
theorem defines_countDown {source : String} (h : source ∈ [countDown, dynamicCountDown]) :
    ∃ scope, Plain scope ∧
      Session.Defines source "count-down" (Value.Procedure scope ["n"] countDownBody) := by
  simp only [List.mem_cons, List.not_mem_nil, or_false] at h
  rcases h with rfl | rfl
  · exact ⟨_, .inl rfl, (defines_procedure rfl).text 40 rfl⟩
  · exact ⟨_, .inr rfl, (defines_dynamic rfl).text 40 rfl⟩

theorem defines_countingLoop : Session.Defines countingLoop "loop"
    (Value.Procedure (.lexical Machine.globalFrame) ["n", "acc"] loopBody) :=
  (defines_procedure rfl).text 60 rfl

theorem defines_evenOdd : Session.Defines evenOdd "even-odd"
    (Value.Procedure (.lexical Machine.globalFrame) ["n"] evenOddBody) :=
  (defines_procedure rfl).text 60 rfl

theorem defines_letLoop : Session.Defines letLoop "let-loop"
    (Value.Procedure (.lexical Machine.globalFrame) ["n"] letLoopBody) :=
  (defines_procedure rfl).text 60 rfl

/-- The global frame has the procedures on numbers, and under the name a value of which `P`
holds. -/
def Ready (s : Store) (x : String) (P : Value → Prop) : Prop :=
  ∃ p, P p ∧ s.Shows Machine.globalFrame (surroundings x p)

/-- A definition makes its own name ready and keeps what is ready under the other names. -/
theorem ready_of_defines {source x : String} {P : Value → Prop} (h : Session.Defines source x P)
    (hx : x ∉ arithmetic.names) {m : Machine} (hd : m.depth + 2 ≤ maxDepth)
    (hs : m.store.Shows Machine.globalFrame arithmetic) :
    ∃ m', Session.evalText source m = .ok (.sym x) m' ∧ m'.depth = m.depth ∧
      m'.store.Shows Machine.globalFrame arithmetic ∧ Ready m'.store x P ∧
      ∀ y Q, x ∉ y :: arithmetic.names → Ready m.store y Q → Ready m'.store y Q := by
  obtain ⟨p, i, hp, heval⟩ := h m hd
  refine ⟨_, heval, rfl, hs.define hx p, ⟨p, hp, hs.define_own hx p⟩, ?_⟩
  rintro y Q hy ⟨q, hq, hshows⟩
  exact ⟨q, hq, hshows.define hy p⟩

theorem new_shows_arithmetic (files : String → FileEntry) :
    (Session.new files).store.Shows Machine.globalFrame arithmetic := by
  have hget (x : String) (v : Value)
      (h : (Session.new files).store.local? Machine.globalFrame x = some v) :
      (Session.new files).store.get? Machine.globalFrame x = some v := by
    rw [Store.get?_global, h]
  exact .cons (hget _ _ rfl) (.cons (hget _ _ rfl) (.cons (hget _ _ rfl)
    (.cons (hget _ _ rfl) (.nil Nat.zero_lt_one))))

/-- When a session has taken the definitions, all four loops are bound in its global frame and find
what they call. -/
theorem definitions_ready (files : String → FileEntry) {source : String} {scope : Scope}
    (hc : Session.Defines source "count-down" (Value.Procedure scope ["n"] countDownBody)) :
    ∃ v m, definitions source (Session.new files) = .ok v m ∧
      Ready m.store "count-down" (Value.Procedure scope ["n"] countDownBody) ∧
      Ready m.store "loop"
        (Value.Procedure (.lexical Machine.globalFrame) ["n", "acc"] loopBody) ∧
      Ready m.store "even-odd" (Value.Procedure (.lexical Machine.globalFrame) ["n"] evenOddBody) ∧
      Ready m.store "let-loop"
        (Value.Procedure (.lexical Machine.globalFrame) ["n"] letLoopBody) := by
  have hd : (Session.new files).depth + 2 ≤ maxDepth := by
    simp [Session.new, Machine.new, maxDepth]
  obtain ⟨m₁, h₁, hd₁, hs₁, hcount, -⟩ :=
    ready_of_defines hc (by decide) hd (new_shows_arithmetic files)
  rw [← hd₁] at hd
  obtain ⟨m₂, h₂, hd₂, hs₂, hloop, keep₂⟩ :=
    ready_of_defines defines_countingLoop (by decide) hd hs₁
  rw [← hd₂] at hd
  obtain ⟨m₃, h₃, hd₃, hs₃, heven, keep₃⟩ :=
    ready_of_defines defines_evenOdd (by decide) hd hs₂
  rw [← hd₃] at hd
  obtain ⟨m₄, h₄, -, -, hlet, keep₄⟩ :=
    ready_of_defines defines_letLoop (by decide) hd hs₃
  refine ⟨.sym "let-loop", m₄, ?_, ?_, ?_, ?_, hlet⟩
  · rw [definitions, bind_ok h₁, bind_ok h₂, bind_ok h₃, h₄]
  · exact keep₄ _ _ (by decide) (keep₃ _ _ (by decide) (keep₂ _ _ (by decide) hcount))
  · exact keep₄ _ _ (by decide) (keep₃ _ _ (by decide) hloop)
  · exact keep₄ _ _ (by decide) heven

/-- The first call of a loop is made from the global frame. -/
theorem Ready.answers {m : Machine} {x : String} {scope : Scope} {params : List String}
    {body : Datum} (h : Ready m.store x (Value.Procedure scope params body)) {ds : List Datum}
    {vs : List Value} {r : Value} {depth : Nat} (hd : depth ≤ 997) (hx : Keyword.ofName? x = none)
    (hargs : List.Forall₂ (fun d v => ComesTo 1 m.store Machine.globalFrame d v m.store) ds vs)
    (hlen : params.length = vs.length)
    (hbody : ∀ p, p.Procedure scope params body → Scene x p [] m.store Machine.globalFrame →
      ∃ s', ComesTo 2 (m.store.push ⟨some (scope.parent Machine.globalFrame),
        .putAll [] (params.zip vs)⟩) m.store.size body r s') :
    m.Answers depth (.ofList (.sym x :: ds)) r := by
  obtain ⟨p, hp, hs⟩ := h
  obtain ⟨s', hs'⟩ := hbody p hp ⟨hs, hs, .nil hs.lt_size⟩
  have hcall := ComesTo.call hx (hs.get?_eq (by simp [surroundings])) hp hargs hlen hs'
  exact hcall.answers (by simp only [maxDepth]; omega)

end TailCalls

open TailCalls

/-- Whatever the count, the loops of a session come to their results within three levels of
evaluation: the calls that go on with a loop are in tail position. -/
theorem tail_calls_any_count (files : String → FileEntry) {source : String}
    (hsource : source ∈ [countDown, dynamicCountDown]) (n : Nat) {depth : Nat}
    (hdepth : depth ≤ 997) :
    ∃ v m, definitions source (Session.new files) = .ok v m ∧
      m.Answers depth (.ofList [.sym "count-down", .int n]) (.sym "done") ∧
      m.Answers depth (.ofList [.sym "loop", .int n, .int 0]) (.int n) ∧
      m.Answers depth (.ofList [.sym "even-odd", .int n]) (.bool true) ∧
      m.Answers depth (.ofList [.sym "let-loop", .int n]) (.sym "ok") := by
  obtain ⟨scope, hscope, hcount⟩ := defines_countDown hsource
  obtain ⟨v, m, hm, hcount, hloop, heven, hlet⟩ := definitions_ready files hcount
  refine ⟨v, m, hm, ?_, ?_, ?_, ?_⟩
  · exact hcount.answers hdepth rfl (.cons (.int n) .nil) rfl fun p hp h =>
      countDown_comesTo hscope hp n (h.enter hscope ["n"] rfl (by decide))
  · refine hloop.answers hdepth rfl (.cons (.int n) (.cons (.int 0) .nil)) rfl fun p hp h => ?_
    have hbody := loop_comesTo hp n 0 (h.enter (.inl rfl) ["n", "acc"] rfl (by decide))
    rwa [Int.zero_add] at hbody
  · exact heven.answers hdepth rfl (.cons (.int n) .nil) rfl fun p hp h =>
      evenOdd_comesTo hp n (h.enter (.inl rfl) ["n"] rfl (by decide))
  · exact hlet.answers hdepth rfl (.cons (.int n) .nil) rfl fun p hp h =>
      letLoop_comesTo hp n (h.enter (.inl rfl) ["n"] rfl (by decide))

/-- A hundred times as many turns as there are levels, begun three levels below the limit. -/
theorem tail_calls_any_count_at_limit :
    dynamicCountDown ∈ [countDown, dynamicCountDown] ∧ 997 + 3 = maxDepth ∧
    ∃ v m, definitions dynamicCountDown (Session.new fun _ => .absent) = .ok v m ∧
      m.Answers 997 (.ofList [.sym "count-down", .int 100000]) (.sym "done") ∧
      m.Answers 997 (.ofList [.sym "loop", .int 100000, .int 0]) (.int 100000) ∧
      m.Answers 997 (.ofList [.sym "even-odd", .int 100000]) (.bool true) ∧
      m.Answers 997 (.ofList [.sym "let-loop", .int 100000]) (.sym "ok") :=
  ⟨by simp, rfl, tail_calls_any_count (fun _ => .absent) (by simp) 100000 (Nat.le_refl 997)⟩

end Scheme
