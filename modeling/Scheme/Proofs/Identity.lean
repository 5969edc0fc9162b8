import Scheme.Proofs.Allocation
import Scheme.Proofs.Reading.Bounded

/-!
# The identity of objects

Two objects are the same when they have the same label. That tells them apart only as long as a
label stands for one object, which no single value can show: objects are copied into frames, into
other objects and to the program that embeds the interpreter, and all these copies have to agree.

A `Register` says what each label given out so far stands for. Every object that is made enters the
register under the next label and is never changed, so what is at hand agrees with the register
(`Register.Fits`). This is an `Invariant`, and a `Course` of a session, in which the embedding
program makes values and asks for evaluations as it likes, keeps it. `objects_identified` is the
result, together with `Machine.makesNew`.
-/

namespace Scheme

open EvalM Value

/-! ## Registers -/

/-- What labels stand for, and the number of frames. -/
structure Register where
  content : Label → Option Value
  frames : Nat

namespace Register

instance : Preorder Register where
  le H H' := (∀ i v, H.content i = some v → H'.content i = some v) ∧ H.frames ≤ H'.frames
  le_refl _ := ⟨fun _ _ h => h, Nat.le_refl _⟩
  le_trans _ _ _ h h' := ⟨fun i v hv => h'.1 i v (h.1 i v hv), Nat.le_trans h.2 h'.2⟩

/-- If the value is an object then its label stands for it, and it refers to frames that exist. -/
structure Has (H : Register) (v : Value) : Prop where
  content {i : Label} : v.label? = some i → H.content i = some v
  frames {g : FrameId} : g ∈ v.frames → g < H.frames

/-- The register has the value and everything in it. -/
def Holds (H : Register) (v : Value) : Prop := v.Throughout H.Has

variable {H H' : Register}

theorem Has.mono (hH : H ≤ H') {v : Value} (h : H.Has v) : H'.Has v :=
  ⟨fun hi => hH.1 _ v (h.content hi), fun hg => Nat.lt_of_lt_of_le (h.frames hg) hH.2⟩

theorem Holds.mono (hH : H ≤ H') {v : Value} (h : H.Holds v) : H'.Holds v :=
  Throughout.imp (fun _ hu => hu.mono hH) h

/-- Values that are no objects have no parts. -/
theorem holds_of_label? {v : Value} (hl : v.label? = none) (hf : ∀ g ∈ v.frames, g < H.frames) :
    H.Holds v := by
  have hparts : v.parts = [v] := by
    cases v <;> first | rfl | simp [label?] at hl
  intro u hu
  rw [hparts, List.mem_singleton] at hu
  subst hu
  exact ⟨fun hi => by simp [hl] at hi, hf _⟩

/-- Values of one register that are the same object are equal. -/
theorem Has.eq_of_same {u v : Value} (hu : H.Has u) (hv : H.Has v) (hl : u.label?.isSome = true)
    (h : u.same v = true) : u = v := by
  obtain ⟨i, hi⟩ := Option.isSome_iff_exists.mp hl
  have hcontent := hv.content (label?_eq_of_same hi h)
  exact Option.some.inj ((hu.content hi).symm.trans hcontent)

/-- Enters an object. -/
def enter (H : Register) (i : Label) (v : Value) : Register :=
  { H with content := fun j => if j = i then some v else H.content j }

/-- Entering an object under a free label only adds to the register. -/
theorem le_enter {i : Label} (h : H.content i = none) (v : Value) : H ≤ H.enter i v := by
  refine ⟨fun j u hu => ?_, Nat.le_refl _⟩
  have hj : j ≠ i := by
    rintro rfl
    simp [h] at hu
  simp [enter, hj, hu]

/-- The register agrees with what is bound on a machine and with other values at hand, and nothing
is in it that has not been given out. -/
structure Fits (H : Register) (known : List Value) (m : Machine) : Prop where
  below {i : Label} {v : Value} : H.content i = some v → i < m.nextLabel
  size : m.store.size = H.frames
  intact : m.store.Intact
  bound {v : Value} : m.store.Binds v → H.Holds v
  known {v : Value} : v ∈ known → H.Holds v

namespace Fits

variable {known : List Value} {m : Machine}

theorem append (h : H.Fits known m) {vs : List Value} (hvs : ∀ v ∈ vs, H.Holds v) :
    H.Fits (vs ++ known) m :=
  { h with known := fun hv => (List.mem_append.mp hv).elim (hvs _) h.known }

theorem cons (h : H.Fits known m) {v : Value} (hv : H.Holds v) : H.Fits (v :: known) m :=
  h.append (List.forall_mem_singleton.mpr hv)

/-- A definition of a registered value keeps the register in agreement. -/
theorem define (h : H.Fits known m) (f : FrameId) (x : String) {v : Value} (hv : H.Holds v) :
    H.Fits known { m with store := m.store.define f x v } where
  below := h.below
  size := (Store.size_define ..).trans h.size
  intact := h.intact.define f x fun g hg => h.size ▸ hv.self.frames hg
  bound hu := by
    rcases hu.of_define with rfl | hu
    · exact hv
    · exact h.bound hu
  known := h.known

/-- A frame that binds registered values can be added, with one more frame in the register. -/
theorem newFrame (h : H.Fits known m) {p : FrameId} (hp : p < H.frames) {b : Bindings}
    (hb : ∀ e ∈ b, H.Holds e.2) :
    ∃ H', H ≤ H' ∧ H'.Fits known { m with store := m.store.push ⟨some p, b⟩ } ∧
      m.store.size < H'.frames := by
  have hle : H ≤ { H with frames := H.frames + 1 } := ⟨fun _ _ hv => hv, Nat.le_succ _⟩
  have hfr : ∀ g ∈ (⟨some p, b⟩ : Frame).frames, g < m.store.size :=
    Frame.forall_mem_frames (h.size ▸ hp) fun e he g hg => h.size ▸ (hb e he).self.frames hg
  refine ⟨_, hle, ⟨h.below, ?_, h.intact.push hfr, fun hu => ?_, fun hv => (h.known hv).mono hle⟩,
    h.size ▸ Nat.lt_succ_self _⟩
  · exact (Store.size_push ..).trans (congrArg (· + 1) h.size)
  · rcases hu.of_push with ⟨x, hx⟩ | hu
    · exact (hb (x, _) hx).mono hle
    · exact (h.bound hu).mono hle

/-- An object that takes the next label is entered. -/
theorem make (h : H.Fits known m) {v : Value} (hl : v.label? = some m.nextLabel)
    (hf : ∀ g ∈ v.frames, g < H.frames) (hparts : ∀ u ∈ v.parts, u = v ∨ H.Has u) :
    ∃ H', H ≤ H' ∧ H'.Fits known { m with nextLabel := m.nextLabel + 1 } ∧ H'.Holds v := by
  -- All labels of the register are below the next one, so the entry takes the place of none.
  have hnone : H.content m.nextLabel = none := by
    by_contra hsome
    obtain ⟨u, hu⟩ := Option.ne_none_iff_exists'.mp hsome
    exact Nat.lt_irrefl _ (h.below hu)
  have hle := le_enter hnone v
  refine ⟨H.enter m.nextLabel v, hle, ⟨fun {i u} hu => ?_, h.size, h.intact,
    fun hv => (h.bound hv).mono hle, fun hv => (h.known hv).mono hle⟩, fun u hu => ?_⟩
  · simp only [enter] at hu
    split at hu
    · next hi => exact hi ▸ Nat.lt_succ_self _
    · exact Nat.lt_succ_of_lt (h.below hu)
  · rcases hparts u hu with rfl | hu
    · refine ⟨fun hi => ?_, hf _⟩
      obtain rfl := Option.some.inj (hl.symm.trans hi)
      simp [enter]
    · exact hu.mono hle

/-- A pair of registered values is entered under its new label. -/
theorem makePair (h : H.Fits known m) {a d : Value} (ha : H.Holds a) (hd : H.Holds d) :
    ∃ H', H ≤ H' ∧ H'.Fits known { m with nextLabel := m.nextLabel + 1 } ∧
      H'.Holds (.pair m.nextLabel a d) := by
  refine h.make rfl ?_ fun u hu => ?_
  · rw [Value.frames, List.forall_mem_append]
    exact ⟨fun _ => ha.self.frames, fun _ => hd.self.frames⟩
  · simp only [parts, List.mem_cons, List.mem_append] at hu
    exact hu.imp id fun hu => hu.elim (ha u) (hd u)

theorem makeString (h : H.Fits known m) (s : String) :
    ∃ H', H ≤ H' ∧ H'.Fits known { m with nextLabel := m.nextLabel + 1 } ∧
      H'.Holds (.str m.nextLabel s) :=
  h.make rfl (by simp [Value.frames]) (by simp [parts])

theorem makeClosure (h : H.Fits known m) {scope : Scope} (hs : ∀ g ∈ scope.frames, g < H.frames)
    {formals body : Value} (hf : H.Holds formals) (hb : H.Holds body) :
    ∃ H', H ≤ H' ∧ H'.Fits known { m with nextLabel := m.nextLabel + 1 } ∧
      H'.Holds (.closure m.nextLabel scope formals body) := by
  refine h.make rfl ?_ fun u hu => ?_
  · rw [Value.frames, List.forall_mem_append, List.forall_mem_append]
    exact ⟨⟨hs, fun _ => hf.self.frames⟩, fun _ => hb.self.frames⟩
  · simp only [parts, List.mem_cons, List.mem_append] at hu
    exact hu.imp id fun hu => hu.elim (hf u) (hb u)

end Fits

end Register

/-- All values at hand agree with a register, which grows. -/
def identity (known : List Value) : Invariant Register where
  machine H m := H.Fits known m
  frame H f := f < H.frames
  value H := H.Holds
  permits _ := True
  frame_mono hH h := Nat.lt_of_lt_of_le h hH.2
  value_mono hH h := h.mono hH
  pair h := (throughout_pair.mp h).2
  closure h :=
    ⟨fun _ hg => h.self.frames (by simp [frames, hg]), (throughout_closure.mp h).2⟩
  frame_of_env h := h.self.frames (by simp [Value.frames])
  builtin _ := trivial
  constant H v h := by
    refine Register.holds_of_label? ?_ (by simp [frames_of_isConstant h])
    cases v <;> simp_all [isConstant, label?]
  env _ hf := Register.holds_of_label? rfl (by simpa [frames] using hf)
  bound hm hv := hm.bound hv
  global hm := hm.size ▸ hm.intact.size_pos
  root hm hf := by
    rw [hm.intact.root_eq (hm.size ▸ hf)]
    exact hm.size ▸ hm.intact.size_pos
  of_eq hm hs hl :=
    ⟨fun hi => hl ▸ hm.below hi, hs ▸ hm.size, hs ▸ hm.intact, fun hv => hm.bound (hs ▸ hv),
      hm.known⟩
  define f x hm hv := hm.define f x hv
  newFrame hm hp hb := hm.newFrame hp hb
  newPair hm ha hd := hm.makePair ha hd
  newString s hm := hm.makeString s
  newClosure hm hs hf hb _ := hm.makeClosure hs hf hb

/-! ## Sessions -/

namespace Session

/-- Everything in the values that are bound or known. -/
def Existing (m : Machine) (known : List Value) (u : Value) : Prop :=
  ∃ v, (m.store.Binds v ∨ v ∈ known) ∧ u ∈ v.parts

/-- Existing objects that are the same are equal, and all that exists is old. -/
structure Identified (m : Machine) (known : List Value) : Prop where
  eq_of_same {u v : Value} : Existing m known u → Existing m known v →
    u.label?.isSome = true → u.same v = true → u = v
  old {u : Value} : Existing m known u → u.OldIn m

/-- The machines that a session comes to, with the values that the embedding program knows: those
that it was given, those that it has made, and what it found in them. It can ask for evaluations of
the values that it knows. -/
inductive Course : Machine → List Value → Prop
  | new (builtins : List Builtin) (files : String → FileEntry) :
      Course (Machine.new builtins files) []
  | request {m : Machine} {known : List Value} (h : Course m known) (files : String → FileEntry)
      (r : Request) (hr : ∀ v ∈ r.values, v ∈ known) (hf : ∀ g ∈ r.frames, g < m.store.size) :
      Course (finalMachine (r.run { m with files := files }))
        ((answer? (r.run { m with files := files })).toList ++ known)
  | bound {m : Machine} {known : List Value} (h : Course m known) {v : Value}
      (hv : m.store.Binds v) : Course m (v :: known)
  | part {m : Machine} {known : List Value} (h : Course m known) {u v : Value} (hv : v ∈ known)
      (hu : u ∈ v.parts) : Course m (u :: known)
  | atom {m : Machine} {known : List Value} (h : Course m known) {v : Value}
      (hv : v.label? = none) (hf : ∀ g ∈ v.frames, g < m.store.size) : Course m (v :: known)
  | pair {m : Machine} {known : List Value} (h : Course m known) {a d : Value} (ha : a ∈ known)
      (hd : d ∈ known) :
      Course { m with nextLabel := m.nextLabel + 1 } (.pair m.nextLabel a d :: known)
  | string {m : Machine} {known : List Value} (h : Course m known) (s : String) :
      Course { m with nextLabel := m.nextLabel + 1 } (.str m.nextLabel s :: known)
  | procedure {m : Machine} {known : List Value} (h : Course m known) {scope : Scope}
      {formals body : Value} (hs : ∀ g ∈ scope.frames, g < m.store.size) (hf : formals ∈ known)
      (hb : body ∈ known) : Course { m with nextLabel := m.nextLabel + 1 }
        (.closure m.nextLabel scope formals body :: known)

end Session

open Session

/-- Where a register agrees, the label identifies the object. -/
theorem Register.Fits.identified {H : Register} {known : List Value} {m : Machine}
    (h : H.Fits known m) : Identified m known := by
  have hexisting : ∀ {u}, Existing m known u → H.Has u := by
    rintro u ⟨v, hv | hv, hu⟩
    · exact h.bound hv u hu
    · exact h.known hv u hu
  refine ⟨fun hu hv hl hs => (hexisting hu).eq_of_same (hexisting hv) hl hs, fun hu => ⟨?_, ?_⟩⟩
  · exact fun hi => h.below ((hexisting hu).content hi)
  · rintro f rfl
    exact h.size ▸ (hexisting hu).frames (by simp [Value.frames])

/-- A new machine agrees with the register that has one frame and no objects. -/
theorem Machine.fits_new (builtins : List Builtin) (files : String → FileEntry) :
    Register.Fits ⟨fun _ => none, 1⟩ [] (Machine.new builtins files) where
  below h := by cases h
  size := rfl
  intact := Machine.intact_new builtins files
  bound hv := by
    obtain ⟨b, -, rfl⟩ := Machine.binds_new hv
    exact Register.holds_of_label? rfl (by simp [Value.frames])
  known h := by cases h

/-- The values that an embedding program comes to know agree with a register. -/
theorem Session.Course.fits {m : Machine} {known : List Value} (h : Course m known) :
    ∃ H : Register, H.Fits known m := by
  -- What is made is entered; what is found was held before, as a bound or known value or a part.
  induction h with
  | new builtins files => exact ⟨_, Machine.fits_new builtins files⟩
  | @request m known _ files r hr hf ih =>
    obtain ⟨H, h⟩ := ih
    have hm := (identity known).of_eq (k := { m with files := files }) h rfl rfl
    obtain ⟨H', -, hend, hanswer⟩ := (identity known).request_kept hm r
      (fun g hg => Nat.lt_of_lt_of_eq (hf g hg) h.size) fun v hv => h.known (hr v hv)
    exact ⟨H', Register.Fits.append hend fun v hv => hanswer v (Option.mem_toList.mp hv)⟩
  | bound _ hv ih =>
    obtain ⟨H, h⟩ := ih
    exact ⟨H, h.cons (h.bound hv)⟩
  | part _ hv hu ih =>
    obtain ⟨H, h⟩ := ih
    exact ⟨H, h.cons ((h.known hv).of_mem hu)⟩
  | atom _ hv hf ih =>
    obtain ⟨H, h⟩ := ih
    exact ⟨H, h.cons (Register.holds_of_label? hv fun g hg => h.size ▸ hf g hg)⟩
  | pair _ ha hd ih =>
    obtain ⟨H, h⟩ := ih
    obtain ⟨H', -, h', hv⟩ := h.makePair (h.known ha) (h.known hd)
    exact ⟨H', h'.cons hv⟩
  | string _ s ih =>
    obtain ⟨H, h⟩ := ih
    obtain ⟨H', -, h', hv⟩ := h.makeString s
    exact ⟨H', h'.cons hv⟩
  | procedure _ hs hf hb ih =>
    obtain ⟨H, h⟩ := ih
    obtain ⟨H', -, h', hv⟩ :=
      h.makeClosure (fun g hg => h.size ▸ hs g hg) (h.known hf) (h.known hb)
    exact ⟨H', h'.cons hv⟩

/-- At every point of a session, strings, pairs and procedures that are the same have the same
content, and all labels and frames in use have been given out before. This holds of all that is
bound and all that the embedding program knows, and on the way through a request before each step
and at each call and answer. From every machine only later ones are reached, and what is made on a
machine is not the same as anything that existed on it. -/
theorem objects_identified {m : Machine} {known : List Value} (h : Course m known) :
    Identified m known ∧
    (∀ (r : Request) (files : String → FileEntry), (∀ v ∈ r.values, v ∈ known) →
      (∀ g ∈ r.frames, g < m.store.size) →
        r.EachEvent (fun e k => Identified k (e.values ++ known)) { m with files := files } ∧
        r.EachStep (fun f k => Identified k (.env f :: known)) { m with files := files }) ∧
    ∀ k : Machine, k.MakesNew ∧
      (∀ fuel t, k.Precedes (finalMachine (run fuel t k))) ∧
      ∀ r : Request, r.EachEvent (fun _ k' => k.Precedes k') k ∧
        r.EachStep (fun _ k' => k.Precedes k') k ∧ k.Precedes (finalMachine (r.run k)) := by
  obtain ⟨H, h⟩ := h.fits
  refine ⟨h.identified, fun r files hr hf => ?_, fun k =>
    ⟨k.makesNew, k.precedes_run, k.precedes_request⟩⟩
  have hm : (identity known).machine H { m with files := files } :=
    (identity known).of_eq h rfl rfl
  have hframes : ∀ g ∈ r.frames, g < H.frames := fun g hg => h.size ▸ hf g hg
  have hvalues : ∀ v ∈ r.values, H.Holds v := fun v hv => h.known (hr v hv)
  constructor
  · exact (identity known).request_events hm r hframes hvalues
      fun hk he => (Register.Fits.append hk he).identified
  · refine (identity known).request_steps hm r hframes hvalues fun hk hg => ?_
    exact (Register.Fits.cons hk ((identity known).env trivial hg)).identified

/-- A list of two strings with the same characters. -/
theorem objects_identified_list :
    let r : Request := .text "(define p (list \"a\" \"a\"))"
    let start := Session.new fun _ => .absent
    let m := finalMachine (r.run start)
    let known := (answer? (r.run start)).toList ++ []
    Course m known ∧
    ∃ p, m.store.local? Machine.globalFrame "p" = some p ∧
      p.written m.store.frameText = "(\"a\" \"a\")" ∧ p.labels = [10, 1, 9, 2] ∧ p.OldIn m ∧
      ∀ v, Existing m known v → p.same v = true → p = v := by
  intro r start m known
  have hcourse : Course m known := .request (.new Builtin.standard start.files) start.files r
    (by simp [r, Request.values]) (by simp [r, Request.frames])
  have hbound : (m.store.local? Machine.globalFrame "p").map
      (fun p => (p.label?.isSome, p.written m.store.frameText, p.labels)) =
      some (true, "(\"a\" \"a\")", [10, 1, 9, 2]) := by
    simp (disch := decide) only [m, r, Request.run, evalText_eq_evalAll 30]
    decide +kernel
  obtain ⟨p, hp, hparts⟩ := Option.map_eq_some_iff.mp hbound
  simp only [Prod.mk.injEq] at hparts
  obtain ⟨hlabel, hwritten, hlabels⟩ := hparts
  have hexists : Existing m known p :=
    ⟨p, .inl (Store.binds_of_local? hp), p.mem_parts_self⟩
  obtain ⟨hsame, -⟩ := objects_identified hcourse
  exact ⟨hcourse, p, hp, hwritten, hlabels, hsame.old hexists,
    fun v hv => hsame.eq_of_same hexists hv hlabel⟩

end Scheme
