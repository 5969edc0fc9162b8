import Mathlib.Data.List.Nodup
import Scheme.Proofs.Values

/-!
# New objects

Strings, pairs and procedures are objects. Each takes the next label when it is made, so it is not
the same as anything that existed before: all labels in use are below the next one. Frames are
numbered in the same way. This module says so for everything that makes objects and frames, on any
machine (`Machine.makesNew`): the procedures on lists, the reader, the forms that make procedures,
calls and `let`.

Labels and numbers are never given back, so what is old stays old (`Machine.precedes_run`,
`Machine.precedes_request`).

A list or a datum is made of many objects. They are told apart from each other as well, since each
of them existed when the next one was made (`AllNew`).
-/

namespace Scheme

open EvalM

namespace Value

/-- The label of an object. -/
def label? : Value → Option Label
  | str i _ => some i
  | pair i _ _ => some i
  | closure i _ _ _ => some i
  | _ => none

/-- Objects that are the same have the same label. -/
theorem label?_eq_of_same {u v : Value} {i : Label} (hu : u.label? = some i)
    (h : u.same v = true) : v.label? = some i := by
  cases u <;> cases v <;> simp_all [label?, same]

/-- All labels of objects in a value. -/
def labels (v : Value) : List Label := v.parts.filterMap label?

theorem labels_pair (i : Label) (a d : Value) :
    (pair i a d).labels = i :: (a.labels ++ d.labels) := by
  simp [labels, parts, label?]

/-- The value may have existed on this machine: the label of an object was given out, and a frame
is one of the store. -/
structure OldIn (k : Machine) (v : Value) : Prop where
  label {i : Label} : v.label? = some i → i < k.nextLabel
  frame {f : FrameId} : v = .env f → f < k.store.size

/-- The value is not the same as anything that may have existed. -/
def NewIn (k : Machine) (v : Value) : Prop := ∀ u : Value, u.OldIn k → v.same u = false

/-- An object is new if its label has not been given out. -/
theorem newIn_of_label {k : Machine} {v : Value} {i : Label} (hv : v.label? = some i)
    (hi : k.nextLabel ≤ i) : v.NewIn k := by
  intro u hu
  by_contra h
  have hlt := hu.label (label?_eq_of_same hv (by simpa using h))
  exact Nat.not_lt.mpr hi hlt

theorem newIn_env (k : Machine) : (env k.store.size).NewIn k := by
  intro u hu
  by_contra h
  obtain rfl : u = env k.store.size := by
    cases u <;> simp_all [same]
  exact Nat.lt_irrefl _ (hu.frame rfl)

end Value

open Value

/-- Objects that were made one after the other on a machine. -/
structure AllNew (k : Machine) (us : List Value) : Prop where
  new : ∀ u ∈ us, u.NewIn k
  apart : us.Pairwise fun u v => u.same v = false

/-- Objects with different labels that have not been given out are new, and no two are the same. -/
theorem allNew_of_labels {k : Machine} {us : List Value} {is : List Label}
    (h : us.map label? = is.map some) (hn : is.Nodup) (hi : ∀ i ∈ is, k.nextLabel ≤ i) :
    AllNew k us := by
  induction us generalizing is with
  | nil => exact ⟨by simp, .nil⟩
  | cons u us ih =>
    obtain ⟨i, is, rfl, hu, hus⟩ := List.map_eq_cons_iff.mp h.symm
    obtain ⟨hni, hn⟩ := List.nodup_cons.mp hn
    obtain ⟨hle, hi⟩ := List.forall_mem_cons.mp hi
    have hrest := ih hus.symm hn hi
    refine ⟨List.forall_mem_cons.mpr ⟨newIn_of_label hu.symm hle, hrest.new⟩,
      .cons (fun v hv => ?_) hrest.apart⟩
    by_contra hs
    have hv' : some i ∈ is.map some := by
      rw [hus, ← label?_eq_of_same hu.symm (by simpa using hs)]
      exact List.mem_map_of_mem hv
    exact hni (by simpa using hv')

/-! ## Lists -/

/-- New pairs with the elements in front of `tail`: the last of them has the label `base`, and each
of the others has the label after the one behind it. -/
def linked (base : Label) (tail : Value) : List Value → Value
  | [] => tail
  | a :: xs => .pair (base + xs.length) a (linked base tail xs)

/-- The pairs of a list up to `tail`, and the elements in them. -/
inductive Links (tail : Value) : List Value → Value → List Value → Prop
  | nil : Links tail [] tail []
  | cons (i : Label) (a : Value) {xs us : List Value} {d : Value} (h : Links tail xs d us) :
      Links tail (a :: xs) (.pair i a d) (.pair i a d :: us)

theorem linked_append (base : Label) (tail a : Value) (xs : List Value) :
    linked base tail (xs ++ [a]) = linked (base + 1) (.pair base a tail) xs := by
  induction xs with
  | nil => rfl
  | cons b xs ih =>
    rw [List.cons_append, linked, linked, ih, List.length_append, List.length_singleton,
      Nat.add_comm xs.length 1, Nat.add_assoc]

/-- Pairs made one in front of the other have labels in a row. -/
theorem consReversed_eq (tail : Value) (met : List Value) (k : Machine) :
    consReversed tail met k = .ok (linked k.nextLabel tail met.reverse)
      { k with nextLabel := k.nextLabel + met.length } := by
  induction met generalizing tail k with
  | nil => rfl
  | cons a met ih =>
    change consReversed (.pair k.nextLabel a tail) met { k with nextLabel := k.nextLabel + 1 } = _
    rw [ih, List.reverse_cons, linked_append, List.length_cons]
    simp only [Nat.add_assoc, Nat.add_comm 1]

/-- The pairs of a new list are new and stand in front of its tail. -/
theorem links_linked (k : Machine) (tail : Value) (xs : List Value) :
    ∃ us, Links tail xs (linked k.nextLabel tail xs) us ∧ AllNew k us := by
  have key : ∃ us, Links tail xs (linked k.nextLabel tail xs) us ∧
      us.map label? = ((List.range' k.nextLabel xs.length).reverse).map some := by
    induction xs with
    | nil => exact ⟨[], .nil, rfl⟩
    | cons a xs ih =>
      obtain ⟨us, hlinks, hlabels⟩ := ih
      refine ⟨_, .cons (k.nextLabel + xs.length) a hlinks, ?_⟩
      rw [List.length_cons, List.range'_concat, List.reverse_append, List.map_cons, hlabels]
      simp [label?]
  obtain ⟨us, hlinks, hlabels⟩ := key
  refine ⟨us, hlinks, allNew_of_labels hlabels ?_ ?_⟩
  · exact List.nodup_reverse.mpr List.nodup_range'
  · simp only [List.mem_reverse, List.mem_range'_1]
    exact fun i hi => hi.1

/-! ## Data -/

/-- The labels in a new list are its own, those of its elements and those of its tail. -/
theorem labels_linked (base : Label) (tail : Value) (xs : List Value) :
    (linked base tail xs).labels.Perm
      (List.range' base xs.length ++ (xs.flatMap labels ++ tail.labels)) := by
  induction xs with
  | nil => exact .refl _
  | cons a xs ih =>
    rw [linked, labels_pair, List.length_cons, List.range'_concat, List.flatMap_cons]
    rw [List.perm_iff_count] at ih ⊢
    intro i
    simp only [List.count_cons, List.count_append, List.count_nil, ih i, Nat.one_mul]
    omega

/-- The labels of a chain of new pairs are the labels given out on the way, with those of the
elements and of its end. -/
theorem consReversed_labels (tail : Value) (met : List Value) (k : Machine) :
    ∃ v, consReversed tail met k = .ok v { k with nextLabel := k.nextLabel + met.length } ∧
      v.labels.Perm
        (List.range' k.nextLabel met.length ++ (met.flatMap labels ++ tail.labels)) := by
  refine ⟨_, consReversed_eq tail met k, (labels_linked _ _ _).trans ?_⟩
  rw [List.length_reverse]
  exact .append_left _ (.append_right _ ((List.reverse_perm met).flatMap_right labels))

/-- The value of a datum takes its labels in a row, and uses each of them once. -/
theorem embedOnto_labels (d : Datum) (met : List Value) (k : Machine) :
    ∃ v n, embedOnto met d k = .ok v { k with nextLabel := k.nextLabel + n } ∧
      v.labels.Perm (List.range' k.nextLabel n ++ met.flatMap labels) := by
  have hleaf : ∀ (u : Value) (met : List Value) (k : Machine), u.labels = [] → ∃ v n,
      consReversed u met k = .ok v { k with nextLabel := k.nextLabel + n } ∧
        v.labels.Perm (List.range' k.nextLabel n ++ met.flatMap labels) := by
    intro u met k hu
    obtain ⟨v, hv, hlabels⟩ := consReversed_labels u met k
    exact ⟨v, met.length, hv, by simpa [hu] using hlabels⟩
  induction d generalizing met k with
  | int | float | bool | sym | nil => exact hleaf _ met k rfl
  | str s =>
    obtain ⟨v, hv, hlabels⟩ := consReversed_labels (.str k.nextLabel s) met
      { k with nextLabel := k.nextLabel + 1 }
    refine ⟨v, met.length + 1, ?_, ?_⟩
    · rw [Nat.add_comm met.length, ← Nat.add_assoc]
      exact hv
    · rw [List.range'_succ]
      rw [List.perm_iff_count] at hlabels ⊢
      intro i
      have hi := hlabels i
      simp only [labels, parts, label?, List.filterMap_cons, List.filterMap_nil, List.count_append,
        List.count_cons, List.count_nil] at hi ⊢
      omega
  | pair a d iha ihd =>
    -- The pair itself is made at the end of the chain, when its first part waits in front of `met`.
    obtain ⟨u, n, hu, hulabels⟩ := iha [] k
    obtain ⟨v, n', hv, hvlabels⟩ := ihd (u :: met) { k with nextLabel := k.nextLabel + n }
    refine ⟨v, n + n', ?_, ?_⟩
    · change (embedOnto [] a >>= fun u => embedOnto (u :: met) d) k = _
      rw [bind_ok hu, hv, Nat.add_assoc]
    · rw [List.perm_iff_count] at hulabels hvlabels ⊢
      intro i
      have hui := hulabels i
      have hvi := hvlabels i
      rw [← List.range'_append_1]
      simp only [List.flatMap_cons, List.flatMap_nil, List.count_append, List.count_nil]
        at hui hvi ⊢
      omega

/-- All objects of a datum that was read are new. -/
theorem embed_allNew (d : Datum) (k : Machine) :
    ∃ v k', embed d k = .ok v k' ∧ AllNew k (v.parts.filter fun u => u.label?.isSome) := by
  obtain ⟨v, n, hv, hlabels⟩ := embedOnto_labels d [] k
  rw [List.flatMap_nil, List.append_nil] at hlabels
  have hmap : (v.parts.filter fun u => u.label?.isSome).map label? = v.labels.map some := by
    rw [labels, List.map_filterMap_some_eq_filter_map_isSome, List.filter_map]
    rfl
  refine ⟨v, _, hv, allNew_of_labels hmap (hlabels.nodup_iff.mpr List.nodup_range') fun i hi => ?_⟩
  exact (List.mem_range'_1.mp (hlabels.mem_iff.mp hi)).1

/-! ## Procedures and frames -/

theorem EvalM.check_eq_ok {α : Type} {x : Except Fault α} {a : α} {k k' : Machine}
    (h : check x k = .ok a k') : x = .ok a ∧ k = k' := by
  cases x with
  | ok b =>
    cases h
    exact ⟨rfl, rfl⟩
  | error e => cases h

/-- A procedure that is made is new, and takes one label. -/
theorem newProcedure_new {scope : Scope} {formals body v : Value} {k k' : Machine}
    (h : newProcedure scope formals body k = .ok v k') :
    v.NewIn k ∧ k' = { k with nextLabel := k.nextLabel + 1 } := by
  obtain ⟨xs, k₁, hcheck, hmade⟩ := bind_eq_ok h
  obtain ⟨-, rfl⟩ := check_eq_ok hcheck
  cases hmade
  exact ⟨newIn_of_label rfl (Nat.le_refl _), rfl⟩

theorem procedureOf_new {keyword : Keyword} {scope : Scope} {operands v : Value} {k k' : Machine}
    (h : procedureOf keyword scope operands k = .ok v k') : v.NewIn k := by
  obtain ⟨xs, k₁, hcheck, hmade⟩ := bind_eq_ok h
  obtain ⟨-, rfl⟩ := check_eq_ok hcheck
  split at hmade
  · exact (newProcedure_new hmade).1
  · cases hmade

/-- A new frame is the next one of the store. -/
theorem callFrame_new {parent g : FrameId} {formals args : List Value} {k k' : Machine}
    (h : callFrame parent formals args k = .ok g k') :
    (Value.env g).NewIn k ∧ g < k'.store.size := by
  unfold callFrame at h
  split at h
  · cases h
  · obtain ⟨b, k₁, hcheck, hmade⟩ := bind_eq_ok h
    obtain ⟨-, rfl⟩ := check_eq_ok hcheck
    cases hmade
    exact ⟨newIn_env k, by simp [Store.size_push]⟩

/-- A call of a procedure makes a new frame for it. -/
theorem applyStep_new {ev : Evaluator} {i : Label} {scope : Scope} {formals body : Value}
    {args : List Value} {f : FrameId} {s : Step} {k k' : Machine}
    (h : applyStep ev (.closure i scope formals body) (.ok args) f k = .ok s k') :
    ∃ g, s = .next body.sequence g ∧ (Value.env g).NewIn k ∧ g < k'.store.size := by
  obtain ⟨g, k₁, hof, hnext⟩ := bind_eq_ok h
  obtain ⟨xs, k₂, hitems, hframe⟩ := bind_eq_ok hof
  obtain ⟨-, rfl⟩ := check_eq_ok hitems
  cases hnext
  exact ⟨g, rfl, callFrame_new hframe⟩

/-- The frame of a `let` is made when the values for it have been found. -/
theorem Form.bind_new {ev : Evaluator} {f : FrameId} {bindings : Value} {exprs : List Value}
    {s : Step} {k k' : Machine} (h : Form.bind ev f bindings exprs k = .ok s k') :
    ∃ bs bound k₁ g k₂, bindings.items = .ok bs ∧
      bs.mapM (Form.binding ev f) k = .ok bound k₁ ∧ (Value.env g).NewIn k₁ ∧
      g < k₂.store.size ∧ Form.body ev g exprs k₂ = .ok s k' := by
  unfold Form.bind at h
  split at h
  · cases h
  · obtain ⟨bs, k₀, hcheck, hrest⟩ := bind_eq_ok h
    obtain ⟨hitems, rfl⟩ := check_eq_ok hcheck
    obtain ⟨bound, k₁, hbound, hframe⟩ := bind_eq_ok hrest
    obtain ⟨xs, k₂, hnames, hframe⟩ := bind_eq_ok hframe
    obtain ⟨-, rfl⟩ := check_eq_ok hnames
    obtain ⟨g, k₃, hnew, hbody⟩ := bind_eq_ok hframe
    obtain ⟨hg, hsize⟩ := callFrame_new hnew
    exact ⟨bs, bound, k₁, g, k₃, hitems, hbound, hg, hsize, hbody⟩

/-- What makes objects and frames on a machine makes new ones. -/
structure Machine.MakesNew (k : Machine) : Prop where
  cons (a d : Value) : ∃ i k', ListOp.cons.run [a, d] k = .ok (.pair i a d) k' ∧
    (Value.pair i a d).NewIn k
  list (args : List Value) : ∃ v k' us, ListOp.list.run args k = .ok v k' ∧
    Links .nil args v us ∧ AllNew k us
  append {args : List Value} {last v : Value} {k' : Machine}
    (h : ListOp.append.run (args ++ [last]) k = .ok v k') :
    ∃ lists us, args.mapM Arguments.list = .ok lists ∧ Links last lists.flatten v us ∧ AllNew k us
  datum (d : Datum) : ∃ v k', embed d k = .ok v k' ∧
    AllNew k (v.parts.filter fun u => u.label?.isSome)
  procedure {ev : Evaluator} {keyword : Keyword} {operands : Value} {f : FrameId} {s : Step}
    {k' : Machine} (hk : keyword ∈ [Keyword.lambda, Keyword.mu])
    (h : keyword.run ev operands f k = .ok s k') : ∃ v, s = .done v ∧ v.NewIn k
  definition {ev : Evaluator} {i j : Label} {x : String} {formals exprs : Value} {f : FrameId}
    {s : Step} {k' : Machine}
    (h : Keyword.define.run ev (.pair i (.pair j (.sym x) formals) exprs) f k = .ok s k') :
    ∃ v, v.NewIn k ∧ k'.store = k.store.define f x v
  call {ev : Evaluator} {i : Label} {scope : Scope} {formals body : Value} {args : List Value}
    {f : FrameId} {s : Step} {k' : Machine}
    (h : applyStep ev (.closure i scope formals body) (.ok args) f k = .ok s k') :
    ∃ g, s = .next body.sequence g ∧ (Value.env g).NewIn k ∧ g < k'.store.size
  bindings {ev : Evaluator} {f : FrameId} {bindings : Value} {exprs : List Value} {s : Step}
    {k' : Machine} (h : Form.bind ev f bindings exprs k = .ok s k') :
    ∃ bs bound k₁ g k₂, bindings.items = .ok bs ∧
      bs.mapM (Form.binding ev f) k = .ok bound k₁ ∧ (Value.env g).NewIn k₁ ∧
      g < k₂.store.size ∧ Form.body ev g exprs k₂ = .ok s k'

/-- On every machine, what makes objects and frames makes new ones. -/
theorem Machine.makesNew (k : Machine) : k.MakesNew where
  cons a d := ⟨k.nextLabel, _, rfl, newIn_of_label rfl (Nat.le_refl _)⟩
  list args := by
    obtain ⟨us, hlinks, hnew⟩ := links_linked k .nil args
    refine ⟨_, _, us, consReversed_eq .nil args.reverse k, ?_, hnew⟩
    rwa [List.reverse_reverse]
  append {args last v k'} h := by
    simp only [ListOp.run, ListOp.appendAll, List.getLast?_concat, List.dropLast_concat] at h
    obtain ⟨lists, k₁, hcheck, hmade⟩ := bind_eq_ok h
    obtain ⟨hlists, rfl⟩ := check_eq_ok hcheck
    obtain ⟨us, hlinks, hnew⟩ := links_linked k last lists.flatten
    rw [consReversed_eq, List.reverse_reverse] at hmade
    cases hmade
    exact ⟨lists, us, hlists, hlinks, hnew⟩
  datum d := embed_allNew d k
  procedure {ev keyword operands f s k'} hk h := by
    simp only [List.mem_cons, List.not_mem_nil, or_false] at hk
    rcases hk with rfl | rfl
    all_goals
      obtain ⟨v, k₁, hmade, hdone⟩ := bind_eq_ok h
      cases hdone
      exact ⟨v, rfl, procedureOf_new hmade⟩
  definition {ev i j x formals exprs f s k'} h := by
    obtain ⟨xs, k₀, hcheck, hrest⟩ := bind_eq_ok h
    obtain ⟨-, rfl⟩ := check_eq_ok hcheck
    obtain ⟨v, k₁, hmade, hdone⟩ := bind_eq_ok hrest
    obtain ⟨hnew, rfl⟩ := newProcedure_new hmade
    cases hdone
    exact ⟨v, hnew, rfl⟩
  call h := applyStep_new h
  bindings h := Form.bind_new h

/-! ## Order -/

/-- What may have existed on the first machine may have existed on the second. -/
def Machine.Precedes (m k : Machine) : Prop := ∀ u : Value, u.OldIn m → u.OldIn k

theorem Machine.Precedes.trans {m k k' : Machine} (h : m.Precedes k) (h' : k.Precedes k') :
    m.Precedes k' :=
  fun u hu => h' u (h u hu)

theorem Machine.Precedes.lt_size {m k : Machine} (h : m.Precedes k) {f : FrameId}
    (hf : f < m.store.size) : f < k.store.size := by
  have hold : (Value.env f).OldIn m := by
    refine ⟨fun hi => ?_, fun hg => ?_⟩
    · cases hi
    · cases hg
      exact hf
  exact (h _ hold).frame rfl

theorem Machine.precedes_of_le {m k : Machine} (hl : m.nextLabel ≤ k.nextLabel)
    (hs : m.store.size ≤ k.store.size) : m.Precedes k :=
  fun _ hu => ⟨fun hi => Nat.lt_of_lt_of_le (hu.label hi) hl,
    fun hf => Nat.lt_of_lt_of_le (hu.frame hf) hs⟩

theorem Machine.precedes_makes (k : Machine) :
    k.Precedes { k with nextLabel := k.nextLabel + 1 } :=
  precedes_of_le (Nat.le_succ _) (Nat.le_refl _)

/-- The machine came after `start`. -/
def later (start : Machine) : Invariant OneWorld where
  machine _ m := start.Precedes m
  frame _ _ := True
  value _ _ := True
  permits _ := True
  frame_mono _ h := h
  value_mono _ h := h
  pair _ := ⟨trivial, trivial⟩
  closure _ := ⟨fun _ _ => trivial, trivial, trivial⟩
  frame_of_env _ := trivial
  builtin _ := trivial
  constant _ _ _ := trivial
  env _ _ := trivial
  bound _ _ := trivial
  global _ := trivial
  root _ _ := trivial
  of_eq hm hs hl :=
    hm.trans (Machine.precedes_of_le (Nat.le_of_eq hl.symm) (Nat.le_of_eq (by rw [hs])))
  define f x hm _ :=
    hm.trans (Machine.precedes_of_le (Nat.le_refl _) (Nat.le_of_eq (by rw [Store.size_define])))
  newFrame hm _ _ := ⟨.here, le_rfl,
    hm.trans (Machine.precedes_of_le (Nat.le_refl _) (by simp [Store.size_push])), trivial⟩
  newPair hm _ _ := ⟨.here, le_rfl, hm.trans (Machine.precedes_makes _), trivial⟩
  newString _ hm := ⟨.here, le_rfl, hm.trans (Machine.precedes_makes _), trivial⟩
  newClosure hm _ _ _ _ := ⟨.here, le_rfl, hm.trans (Machine.precedes_makes _), trivial⟩

/-- Whatever may have existed before a run may exist behind it. -/
theorem Machine.precedes_run (k : Machine) (fuel : Nat) (t : Task) :
    k.Precedes (finalMachine (run fuel t k)) := by
  have hsame : ∀ {vs : List Value}, List.Forall₂ ((later k).simulation.value .here) vs vs :=
    List.forall₂_same.mpr fun v _ => ⟨rfl, trivial⟩
  have ht : (later k).simulation.task .here t t := by
    cases t with
    | eval e f => exact .eval (.inl ⟨rfl, trivial⟩) ⟨rfl, trivial⟩
    | apply p args f => exact .apply ⟨rfl, trivial⟩ hsame ⟨rfl, trivial⟩
  have hk : (later k).simulation.machine .here k k := ⟨rfl, fun _ hu => hu⟩
  obtain ⟨_, -, hend, -⟩ := ((later k).kept_of_related (Simulation.run fuel _ t t ht k k hk)).2
  exact hend

open Session in
/-- A request comes only to later machines. -/
theorem Machine.precedes_request (k : Machine) (r : Request) :
    r.EachEvent (fun _ k' => k.Precedes k') k ∧ r.EachStep (fun _ k' => k.Precedes k') k ∧
      k.Precedes (finalMachine (r.run k)) := by
  have hk : (later k).machine .here k := fun _ hu => hu
  obtain ⟨_, -, hend, -⟩ := (later k).request_kept hk r (fun _ _ => trivial) fun _ _ => trivial
  exact ⟨(later k).request_events hk r (fun _ _ => trivial) (fun _ _ => trivial) fun hm _ => hm,
    (later k).request_steps hk r (fun _ _ => trivial) (fun _ _ => trivial) fun hm _ => hm, hend⟩

end Scheme
