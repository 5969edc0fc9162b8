import Mathlib.Algebra.BigOperators.Group.List.Basic
import Scheme.Proofs.Allocation
import Scheme.Proofs.Expressions
import Scheme.Proofs.Numbers.Arithmetic

/-!
# Appending lists

`append` copies the elements of all its arguments but the last in front of the last, which is kept
as it is and need not be a list. The answer is therefore described by the elements that were copied
and the value behind them (`Links`), and not by its spine, which goes on into the last argument.

All arguments that are to be copied are checked before anything is made, so the outcome depends on
the first of them that is no list (`append_of_failing`, `append_of_lists`). `append_laws` says when
`append` fails, what it answers otherwise (`Appended`), and that three lists can be appended in
either grouping.
-/

namespace Scheme

open EvalM Value

/-! ## Lists of lists -/

/-- A list is accepted as an argument, with its elements. -/
theorem Arguments.list_of_lists {v : Value} {xs : List Value} (h : v.Lists xs) :
    Arguments.list v = .ok xs := by
  unfold Arguments.list
  rw [h]

theorem Arguments.list_of_improper {v : Value} (h : v.isProper = false) :
    Arguments.list v = .error (.notList v) := by
  unfold Arguments.list
  split
  · next xs hxs => simp [exists_lists_iff.mp ⟨xs, hxs⟩] at h
  · rfl

/-- Where all arguments are lists, a function of their elements has a value for each. -/
theorem mapM_of_lists {α : Type} {f : Value → Except Fault α} {g : List Value → α}
    (hf : ∀ {v : Value} {xs : List Value}, v.Lists xs → f v = .ok (g xs)) {args : List Value}
    {xss : List (List Value)} (h : List.Forall₂ Lists args xss) :
    args.mapM f = .ok (xss.map g) := by
  induction h with
  | nil => rfl
  | cons hv _ ih =>
    rw [List.mapM_cons, hf hv, ih]
    rfl

/-- The check of all arguments stops at the first that is no list. -/
theorem mapM_list_of_failing {args : List Value} {v : Value}
    (h : Test.list.firstFailing? args = some v) :
    args.mapM Arguments.list = .error (.notList v) := by
  induction args with
  | nil => cases h
  | cons w args ih =>
    rw [List.mapM_cons]
    cases hw : w.isProper with
    | false =>
      rw [Test.firstFailing?_cons_of_fails (t := .list) hw] at h
      obtain rfl := Option.some.inj h
      rw [Arguments.list_of_improper hw]
      rfl
    | true =>
      obtain ⟨xs, hxs⟩ := exists_lists_iff.mpr hw
      rw [Test.firstFailing?_cons_of_holds (t := .list) hw] at h
      rw [Arguments.list_of_lists hxs, ih h]
      rfl

theorem exists_lists_of_holds {args : List Value}
    (h : ∀ v ∈ args, v.isProper = true) : ∃ xss, List.Forall₂ Lists args xss := by
  induction args with
  | nil => exact ⟨[], .nil⟩
  | cons v args ih =>
    obtain ⟨hv, hargs⟩ := List.forall_mem_cons.mp h
    obtain ⟨xs, hxs⟩ := exists_lists_iff.mpr hv
    obtain ⟨xss, hxss⟩ := ih hargs
    exact ⟨xs :: xss, .cons hxs hxss⟩

theorem flatten_eq_nil_of_nils {args : List Value} {xss : List (List Value)}
    (h : List.Forall₂ Lists args xss) (hnil : ∀ v ∈ args, v = .nil) : xss.flatten = [] := by
  induction h with
  | nil => rfl
  | cons hv _ ih =>
    obtain ⟨rfl, hrest⟩ := List.forall_mem_cons.mp hnil
    rw [List.flatten_cons, ih hrest, List.append_nil]
    exact (congrArg Prod.fst hv).symm

/-! ## Chains in front of a value -/

namespace Links

variable {tail v : Value} {xs us : List Value}

/-- A chain is a list if and only if what stands behind it is one. -/
theorem isProper_eq (h : Links tail xs v us) : v.isProper = tail.isProper := by
  induction h with
  | nil => rfl
  | cons i a _ ih => exact ih

/-- In front of a list, the elements of the chain come before those of the list. -/
theorem lists (h : Links tail xs v us) {ys : List Value} (ht : tail.Lists ys) :
    v.Lists (xs ++ ys) := by
  induction h with
  | nil => exact ht
  | cons i a _ ih => exact lists_cons_iff.mpr ⟨i, _, rfl, ih⟩

theorem eq_tail (h : Links tail [] v us) : v = tail := by
  cases h
  rfl

end Links

/-! ## The outcome -/

/-- If one of the arguments to be copied is no list, nothing is made, and the first such argument is
reported. -/
theorem append_of_failing {args : List Value} {v : Value}
    (h : Test.list.firstFailing? args = some v) (last : Value) (k : Machine) :
    ListOp.append.run (args ++ [last]) k = .error (.fault (.notList v)) k := by
  simp only [ListOp.run, ListOp.appendAll, List.getLast?_concat, List.dropLast_concat,
    mapM_list_of_failing h]
  rfl

/-- If all arguments to be copied are lists, their elements are put in new pairs in front of the
last. -/
theorem append_of_lists {args : List Value} {xss : List (List Value)}
    (h : List.Forall₂ Lists args xss) (last : Value) (k : Machine) :
    ListOp.append.run (args ++ [last]) k = .ok (linked k.nextLabel last xss.flatten)
      { k with nextLabel := k.nextLabel + xss.flatten.length } := by
  have hlists : args.mapM Arguments.list = .ok xss := by
    rw [mapM_of_lists (g := id) Arguments.list_of_lists h, List.map_id]
  simp only [ListOp.run, ListOp.appendAll, List.getLast?_concat, List.dropLast_concat,
    hlists]
  change consReversed last xss.flatten.reverse k = _
  rw [consReversed_eq, List.reverse_reverse, List.length_reverse]

/-- What `append` makes on a machine of some lists and a last argument. -/
structure Appended (k : Machine) (args : List Value) (last w : Value) (k' : Machine) : Prop where
  /-- The elements of the lists are copied in front of the last argument, which is kept. -/
  links : ∃ xss us, args.mapM items = .ok xss ∧ Links last xss.flatten w us ∧ AllNew k us
  /-- Nothing is made of empty lists. -/
  eq_last : (∀ v ∈ args, v = .nil) → w = last ∧ k' = k
  isProper_iff : w.isProper = true ↔ last.isProper = true
  length : last.isProper = true → ∃ ns : List Nat, (args ++ [last]).mapM Value.length = .ok ns ∧
    w.length = .ok ns.sum ∧ ListOp.length.run [w] k' = .ok (.int ns.sum) k'

/-- Appending proper lists to any last argument succeeds. -/
theorem exists_appended {args : List Value} (hargs : ∀ v ∈ args, v.isProper = true) (last : Value)
    (k : Machine) : ∃ w k', ListOp.append.run (args ++ [last]) k = .ok w k' ∧
      Appended k args last w k' := by
  obtain ⟨xss, hxss⟩ := exists_lists_of_holds hargs
  obtain ⟨us, hlinks, hnew⟩ := links_linked k last xss.flatten
  refine ⟨_, _, append_of_lists hxss last k, ⟨⟨xss, us, ?_, hlinks, hnew⟩, fun hnil => ?_, ?_,
    fun hlast => ?_⟩⟩
  · rw [mapM_of_lists (g := id) Lists.items_eq hxss, List.map_id]
  · rw [flatten_eq_nil_of_nils hxss hnil]
    exact ⟨rfl, rfl⟩
  · rw [hlinks.isProper_eq]
  · obtain ⟨ys, hys⟩ := exists_lists_iff.mpr hlast
    have hw := hlinks.lists hys
    have hall : List.Forall₂ Lists (args ++ [last]) (xss ++ [ys]) :=
      List.rel_append hxss (.cons hys .nil)
    have hsum : ((xss ++ [ys]).map List.length).sum = (xss.flatten ++ ys).length := by
      simp [List.length_flatten]
    refine ⟨_, mapM_of_lists Lists.length_eq hall, ?_, ?_⟩
    · rw [hw.length_eq, hsum]
    · rw [hsum, ListOp.run]
      simp only [Arguments.one, bind, Except.bind, Arguments.list_of_lists hw]
      rfl

/-! ## Grouping -/

/-- The action always gives the elements in pairs in front of the tail. -/
def GivesChain (x : EvalM Value) (xs : List Value) (tail : Value) : Prop :=
  ∀ k, ∃ w k' us, x k = .ok w k' ∧ Links tail xs w us

/-- Appending lists gives all their elements in front of the last argument, on every machine. -/
theorem givesChain_append {args : List Value} {xss : List (List Value)}
    (h : List.Forall₂ Lists args xss) (last : Value) :
    GivesChain (ListOp.append.run (args ++ [last])) xss.flatten last := by
  intro k
  obtain ⟨us, hlinks, -⟩ := links_linked k last xss.flatten
  exact ⟨_, _, us, append_of_lists h last k, hlinks⟩

/-- A chain in front of a chain is one chain. -/
theorem Links.append {tail v w : Value} {xs ys us us' : List Value} (h : Links v xs w us)
    (h' : Links tail ys v us') : Links tail (xs ++ ys) w (us ++ us') := by
  induction h with
  | nil => exact h'
  | cons i a _ ih => exact .cons i a ih

/-- Two lists appended first, and a third argument then, give one chain of all elements. -/
theorem givesChain_left {a b : Value} {xs ys : List Value} (ha : a.Lists xs) (hb : b.Lists ys)
    (c : Value) :
    GivesChain (do ListOp.append.run [← ListOp.append.run [a, b], c]) (xs ++ ys) c := by
  intro k
  obtain ⟨ab, k₁, us, hab, hlinks⟩ := givesChain_append (.cons ha .nil) b k
  have hlists : ab.Lists (xs ++ ys) := by simpa using hlinks.lists hb
  obtain ⟨w, k₂, us', hw, hlinks'⟩ := givesChain_append (.cons hlists .nil) c k₁
  exact ⟨w, k₂, us', (bind_ok hab).trans hw, by simpa using hlinks'⟩

/-- The second list appended first, and the first in front of that, give the same chain. -/
theorem givesChain_right {a b : Value} {xs ys : List Value} (ha : a.Lists xs) (hb : b.Lists ys)
    (c : Value) :
    GivesChain (do ListOp.append.run [a, ← ListOp.append.run [b, c]]) (xs ++ ys) c := by
  intro k
  obtain ⟨bc, k₁, us, hbc, hlinks⟩ := givesChain_append (.cons hb .nil) c k
  obtain ⟨w, k₂, us', hw, hlinks'⟩ := givesChain_append (.cons ha .nil) bc k₁
  exact ⟨w, k₂, us' ++ us, (bind_ok hbc).trans hw, by simpa using hlinks'.append hlinks⟩

theorem append_eq_error_iff (args : List Value) (k : Machine) (e : Stop) (k' : Machine) :
    ListOp.append.run args k = .error e k' ↔
      ∃ v, Test.list.firstFailing? args.dropLast = some v ∧ e = .fault (.notList v) ∧ k' = k := by
  rcases List.eq_nil_or_concat args with rfl | ⟨init, last, rfl⟩
  · refine iff_of_false (fun h => ?_) ?_
    · cases h
    · rintro ⟨v, hv, -⟩
      cases hv
  · rw [List.concat_eq_append, List.dropLast_concat]
    cases hf : Test.list.firstFailing? init with
    | some v =>
      rw [append_of_failing hf]
      simp [eq_comm]
    | none =>
      obtain ⟨w, k₁, hw, -⟩ := exists_appended (Test.firstFailing?_eq_none_iff.mp hf) last k
      rw [hw]
      simp

/-- Without arguments, `append` gives the empty list. With arguments it fails if and only if one of
them other than the last is no list, for the first that is none, and nothing has changed then.
Otherwise it copies the elements of all arguments but the last in front of the last, which is kept;
the answer is a list if and only if the last argument is, and its length is the sum of the lengths.
Two lists in front of a third value can be appended in either grouping or at once: the elements and
the value behind them are the same. -/
theorem append_laws :
    (∀ k, ListOp.append.run [] k = .ok .nil k) ∧
    (∀ args k e k', ListOp.append.run args k = .error e k' ↔
      ∃ v, Test.list.firstFailing? args.dropLast = some v ∧ e = .fault (.notList v) ∧ k' = k) ∧
    (∀ args last k, (∀ v ∈ args, v.isProper = true) →
      ∃ w k', ListOp.append.run (args ++ [last]) k = .ok w k' ∧ Appended k args last w k') ∧
    ∀ a b c : Value, a.isProper = true → b.isProper = true → ∃ xs ys,
      a.items = .ok xs ∧ b.items = .ok ys ∧
      GivesChain (do ListOp.append.run [← ListOp.append.run [a, b], c]) (xs ++ ys) c ∧
      GivesChain (do ListOp.append.run [a, ← ListOp.append.run [b, c]]) (xs ++ ys) c ∧
      GivesChain (ListOp.append.run [a, b, c]) (xs ++ ys) c := by
  refine ⟨fun k => rfl, append_eq_error_iff, fun args last k h => exists_appended h last k, ?_⟩
  intro a b c ha hb
  obtain ⟨xs, hxs⟩ := exists_lists_iff.mpr ha
  obtain ⟨ys, hys⟩ := exists_lists_iff.mpr hb
  refine ⟨xs, ys, hxs.items_eq, hys.items_eq, givesChain_left hxs hys c, givesChain_right hxs hys c,
    ?_⟩
  simpa using givesChain_append (.cons hxs (.cons hys .nil)) c

/-- Lists in front of a symbol, and two arguments that are no lists in front of a list. -/
theorem append_laws_dotted :
    let k := Session.new fun _ => .absent
    let a : Value := .pair 1 (.int 1) .nil
    (∀ v ∈ [a, .nil], v.isProper = true) ∧
    (∃ i k', ListOp.append.run [a, .nil, .sym "x"] k = .ok (.pair i (.int 1) (.sym "x")) k') ∧
    Test.list.firstFailing? [a, .sym "x", .int 2] = some (.sym "x") ∧
    ListOp.append.run [a, .sym "x", .int 2, a] k = .error (.fault (.notList (.sym "x"))) k := by
  intro k a
  have hproper : ∀ v ∈ [a, .nil], v.isProper = true := by simp [a, isProper]
  obtain ⟨-, hfails, happend, -⟩ := append_laws
  refine ⟨hproper, ?_, rfl, (hfails _ _ _ _).mpr ⟨_, rfl, rfl, rfl⟩⟩
  obtain ⟨w, k', hw, happended⟩ := happend [a, .nil] (.sym "x") k hproper
  obtain ⟨xss, us, hxss, hlinks, -⟩ := happended.links
  obtain rfl : [[.int 1], []] = xss := Except.ok.inj hxss
  cases hlinks with
  | cons i _ h =>
    obtain rfl := h.eq_tail
    exact ⟨i, k', hw⟩

end Scheme
