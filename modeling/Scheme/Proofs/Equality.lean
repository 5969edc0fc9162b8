import Scheme.Proofs.Expressions
import Scheme.Proofs.Identity
import Scheme.Proofs.Numbers.Doubles

/-!
# Sameness and equality

Values are compared as objects by `Value.same` and by their structure by `Value.equal`. Either
comparison is symmetric and transitive on all values. It is reflexive on values in which no double
that is compared is a NaN (`Value.isNaNFree`).

Whether sameness implies equality cannot be told from two values alone: objects with one label
could have different contents. In a session they do not, since all values at hand agree with a
`Register`. So the laws hold of what exists on one machine (`Session.Compares`), at every point of a
session (`equality_laws`).
-/

namespace Scheme

open EvalM Session

namespace Value

/-! ## Values that are equal to themselves -/

/-- None of the doubles that a comparison by structure comes to is a NaN. Procedures are compared as
objects, so it does not matter what is in them. -/
def isNaNFree : Value → Bool
  | float f => !f.isNaN
  | pair _ a d => a.isNaNFree && d.isNaNFree
  | _ => true

theorem isNaNFree_pair {i : Label} {a d : Value} :
    (pair i a d).isNaNFree = true ↔ a.isNaNFree = true ∧ d.isNaNFree = true :=
  Bool.and_eq_true_iff

theorem same_self {v : Value} (hv : v.isNaNFree = true) : v.same v = true := by
  cases v with
  | float f => simpa [same, isNaNFree] using hv
  | _ => simp [same]

/-- A value free of NaNs is equal to itself. -/
theorem equal_self {v : Value} (hv : v.isNaNFree = true) : v.equal v = true := by
  induction v with
  | pair i a d iha ihd =>
    obtain ⟨ha, hd⟩ := isNaNFree_pair.mp hv
    rw [equal, iha ha, ihd hd, Bool.and_self]
  | str i s => exact beq_self_eq_true s
  | _ => exact same_self hv

/-! ## Symmetry and transitivity -/

theorem same_comm (u v : Value) : u.same v = v.same u := by
  -- Values of different kinds are not the same in either order.
  cases u <;> cases v <;> first | rfl | exact BEq.comm

/-- Sameness is transitive on all values, NaNs included: what is the same as something is no NaN. -/
theorem same_trans {u v w : Value} (h : u.same v = true) (h' : v.same w = true) :
    u.same w = true := by
  cases u <;> cases v <;> first | cases h; done | skip
  -- The first two are of one kind, and the third is of this kind or it is not the same.
  all_goals cases w <;> first | cases h'; done | exact BEq.trans h h' | rfl

/-- The values that `equal` does not compare as objects. -/
def isStructured : Value → Bool
  | pair .. => true
  | str .. => true
  | _ => false

/-- But for pairs and strings, equality is sameness. -/
theorem equal_eq_same {u : Value} (hu : u.isStructured = false) (v : Value) :
    u.equal v = u.same v := by
  cases u with
  | pair | str => cases hu
  | _ => rfl

/-- Values that are the same are both pairs or strings, or neither is. -/
theorem isStructured_eq_of_same {u v : Value} (h : u.same v = true) :
    u.isStructured = v.isStructured := by
  cases u <;> cases v <;> first | rfl | cases h

theorem equal_comm (u v : Value) : u.equal v = v.equal u := by
  induction u generalizing v with
  | pair i a d iha ihd =>
    cases v with
    | pair j b e => rw [equal, equal, iha, ihd]
    | _ => rfl
  | str i s =>
    cases v with
    | str j t => exact BEq.comm
    | _ => rfl
  | _ => cases v <;> first | rfl | exact same_comm _ _

/-- What equals a pair is a pair, of equal components. -/
theorem equal_pair_iff {u : Value} {i : Label} {a d : Value} :
    (pair i a d).equal u = true ↔
      ∃ j b e, u = pair j b e ∧ a.equal b = true ∧ d.equal e = true := by
  cases u with
  | pair j b e =>
    rw [equal, Bool.and_eq_true]
    refine ⟨fun h => ⟨j, b, e, rfl, h⟩, ?_⟩
    rintro ⟨_, _, _, heq, h⟩
    cases heq
    exact h
  | _ =>
    refine iff_of_false Bool.false_ne_true ?_
    rintro ⟨_, _, _, heq, -⟩
    cases heq

theorem equal_str_iff {u : Value} {i : Label} {s : String} :
    (str i s).equal u = true ↔ ∃ j, u = str j s := by
  cases u with
  | str j t =>
    rw [equal, beq_iff_eq]
    refine ⟨fun h => ⟨j, h ▸ rfl⟩, ?_⟩
    rintro ⟨_, heq⟩
    cases heq
    rfl
  | _ =>
    refine iff_of_false Bool.false_ne_true ?_
    rintro ⟨_, heq⟩
    cases heq

/-- Equality is transitive on all values. -/
theorem equal_trans {u v w : Value} (h : u.equal v = true) (h' : v.equal w = true) :
    u.equal w = true := by
  induction u generalizing v w with
  | pair i a d iha ihd =>
    obtain ⟨j, b, e, rfl, hb, he⟩ := equal_pair_iff.mp h
    obtain ⟨k, c, f, rfl, hc, hf⟩ := equal_pair_iff.mp h'
    exact equal_pair_iff.mpr ⟨k, c, f, rfl, iha hb hc, ihd he hf⟩
  | str i s =>
    obtain ⟨j, rfl⟩ := equal_str_iff.mp h
    obtain ⟨k, rfl⟩ := equal_str_iff.mp h'
    exact equal_str_iff.mpr ⟨k, rfl⟩
  | _ =>
    -- The first is compared as an object, so the second is one of its kind and is compared so too.
    rw [equal_eq_same rfl] at h ⊢
    rw [equal_eq_same (isStructured_eq_of_same h).symm] at h'
    exact same_trans h h'

/-! ## Copies of lists -/

/-- A copy of a list in new pairs is equal to the list. -/
theorem equal_linked {v : Value} {xs : List Value} (h : v.Lists xs) (hv : v.isNaNFree = true)
    (base : Label) : v.equal (linked base .nil xs) = true := by
  induction xs generalizing v with
  | nil =>
    obtain rfl := lists_nil_iff.mp h
    rfl
  | cons a xs ih =>
    obtain ⟨i, d, rfl, hd⟩ := lists_cons_iff.mp h
    obtain ⟨ha, hrest⟩ := isNaNFree_pair.mp hv
    exact equal_pair_iff.mpr ⟨_, a, _, rfl, equal_self ha, ih hd hrest⟩

/-- A new list of the elements of a list is equal to it, and it is another object unless the list is
empty. -/
theorem Lists.copied {v : Value} {xs : List Value} (h : v.Lists xs) (hv : v.isNaNFree = true)
    {m : Machine} (hold : v.OldIn m) :
    ∃ w m', newList xs m = .ok w m' ∧ v.equal w = true ∧ (v.same w = true ↔ v = .nil) := by
  have hmade := consReversed_eq .nil xs.reverse m
  rw [List.reverse_reverse] at hmade
  refine ⟨_, _, hmade, equal_linked h hv _, ?_⟩
  cases xs with
  | nil =>
    obtain rfl := lists_nil_iff.mp h
    exact iff_of_true rfl rfl
  | cons a xs =>
    obtain ⟨i, d, rfl, -⟩ := lists_cons_iff.mp h
    have hi : i < m.nextLabel := hold.label rfl
    refine iff_of_false (fun hs => ?_) (by simp)
    have heq : i = m.nextLabel + xs.length := by simpa [linked, same] using hs
    exact Nat.not_lt.mpr (Nat.le_add_right _ _) (heq ▸ hi)

end Value

open Value

/-! ## The values on a machine -/

namespace Session

/-- A value that exists and is equal to itself. -/
abbrev Comparable (m : Machine) (known : List Value) : Type :=
  { v : Value // Existing m known v ∧ v.isNaNFree = true }

/-- How values that exist on a machine compare: sameness and equality are equivalences, values that
are the same are equal, pairs are equal if and only if their parts are, and a copy of a list is
equal to the list, but it is not the same unless the list is empty. -/
structure Compares (m : Machine) (known : List Value) : Prop where
  equal : Equivalence fun u v : Comparable m known => u.val.equal v.val = true
  same : Equivalence fun u v : Comparable m known => u.val.same v.val = true
  equal_of_same (u v : Comparable m known) : u.val.same v.val = true → u.val.equal v.val = true
  cons (a b c d : Value) (k k' : Machine) : ∃ p q k₁ k₁', EvalM.cons a b k = .ok p k₁ ∧
    EvalM.cons c d k' = .ok q k₁' ∧
      (p.equal q = true ↔ a.equal c = true ∧ b.equal d = true)
  copy (v : Comparable m known) : v.val.isProper = true → ∃ xs w m', v.val.items = .ok xs ∧
    newList xs m = .ok w m' ∧ v.val.equal w = true ∧ (v.val.same w = true ↔ v.val = .nil)

/-- Where labels tell objects apart, values compare by all these laws. -/
theorem Identified.compares {m : Machine} {known : List Value} (h : Identified m known) :
    Compares m known where
  equal := ⟨fun v => equal_self v.2.2, fun h => equal_comm _ _ ▸ h, equal_trans⟩
  same := ⟨fun v => same_self v.2.2, fun h => same_comm _ _ ▸ h, same_trans⟩
  equal_of_same u v hs := by
    cases hl : u.val.label?.isSome with
    | true =>
      -- An object has one content, so the two are one value.
      rw [← h.eq_of_same u.2.1 v.2.1 hl hs]
      exact equal_self u.2.2
    | false =>
      have hu : u.val.isStructured = false := by
        generalize u.val = x at hl
        cases x <;> simp_all [label?, isStructured]
      rwa [equal_eq_same hu]
  cons a b c d k k' := by
    refine ⟨_, _, _, _, rfl, rfl, ?_⟩
    rw [Value.equal, Bool.and_eq_true]
  copy v hv := by
    obtain ⟨xs, hxs⟩ := exists_lists_iff.mpr hv
    obtain ⟨w, m', hw, hcopy⟩ := hxs.copied v.2.2 (h.old v.2.1)
    exact ⟨xs, w, m', hxs.items_eq, hw, hcopy⟩

end Session

/-- At every point of a session, sameness and equality are equivalences on the values that are bound
or known to the embedding program and have no NaN in them, sameness implies equality, pairs are
equal if and only if their parts are, and a copy of a list is equal to the list and another object,
unless the list is empty. The same is true before each step of a request, and at each call and
answer on the way, of what is bound then and of what the call or the answer is about. -/
theorem equality_laws {m : Machine} {known : List Value} (h : Course m known) :
    Compares m known ∧
    ∀ (r : Request) (files : String → FileEntry), (∀ v ∈ r.values, v ∈ known) →
      (∀ g ∈ r.frames, g < m.store.size) →
        r.EachEvent (fun e k => Compares k (e.values ++ known)) { m with files := files } ∧
        r.EachStep (fun f k => Compares k (.env f :: known)) { m with files := files } := by
  obtain ⟨H, h⟩ := h.fits
  refine ⟨h.identified.compares, fun r files hr hf => ?_⟩
  have hm : (identity known).machine H { m with files := files } :=
    (identity known).of_eq h rfl rfl
  have hframes : ∀ g ∈ r.frames, g < H.frames := fun g hg => h.size ▸ hf g hg
  have hvalues : ∀ v ∈ r.values, H.Holds v := fun v hv => h.known (hr v hv)
  constructor
  · exact (identity known).request_events hm r hframes hvalues
      fun hk he => (Register.Fits.append hk he).identified.compares
  · refine (identity known).request_steps hm r hframes hvalues fun hk hg => ?_
    exact (Register.Fits.cons hk ((identity known).env trivial hg)).identified.compares

/-- A list with two strings and a double in it. -/
theorem equality_laws_list :
    let r : Request := .text "(define p (list \"a\" \"a\" -0.5))"
    let start := Session.new fun _ => .absent
    let m := finalMachine (r.run start)
    let known := (answer? (r.run start)).toList ++ []
    Course m known ∧
    ∃ p, m.store.local? Machine.globalFrame "p" = some p ∧
      p.written m.store.frameText = "(\"a\" \"a\" -0.5)" ∧ p.equal p = true ∧
      ∃ xs w m', p.items = .ok xs ∧ newList xs m = .ok w m' ∧ p.equal w = true ∧
        p.same w = false := by
  intro r start m known
  have hcourse : Course m known := .request (.new Builtin.standard start.files) start.files r
    (by simp [r, Request.values]) (by simp [r, Request.frames])
  have hbound : (m.store.local? Machine.globalFrame "p").map
      (fun p => (p.written m.store.frameText, p.isNaNFree, p.isProper, p.isNil)) =
      some ("(\"a\" \"a\" -0.5)", true, true, false) := by
    simp (disch := decide) only [m, r, Request.run, evalText_eq_evalAll 30]
    decide +kernel
  obtain ⟨p, hp, hparts⟩ := Option.map_eq_some_iff.mp hbound
  simp only [Prod.mk.injEq] at hparts
  obtain ⟨hwritten, hfree, hproper, hnil⟩ := hparts
  have hexists : Existing m known p := ⟨p, .inl (Store.binds_of_local? hp), p.mem_parts_self⟩
  obtain ⟨hlaws, -⟩ := equality_laws hcourse
  obtain ⟨xs, w, m', hxs, hw, hequal, hsame⟩ := hlaws.copy ⟨p, hexists, hfree⟩ hproper
  refine ⟨hcourse, p, hp, hwritten, hlaws.equal.refl ⟨p, hexists, hfree⟩, xs, w, m', hxs, hw,
    hequal, Bool.eq_false_iff.mpr fun hs => ?_⟩
  obtain rfl : p = .nil := hsame.mp hs
  cases hnil

end Scheme
