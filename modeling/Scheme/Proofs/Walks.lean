import Mathlib.Tactic.TFAE
import Scheme.Proofs.Append

/-!
# Walks along chains

A chain of pairs can be tested for being a list, counted, taken apart into its elements, walked
along pair by pair, and mapped. Each of these goes along the chain on its own; here they are shown
to agree (`Value.WalksAgree`).

A `Cursor` is a walk that is called for one element at a time. It answers the elements in order and,
if the chain is no list, one fault behind them. After that it answers nothing, however often it is
called (`Cursor.answer_rest`). Taking a chain apart and mapping over it are loops over a cursor
(`Value.check_items_eq_each`, `EvalM.mapItems_eq_each`).

A map is described by the calls that it makes, each on the machine that the one before left
(`Calls`): it succeeds if it can make them all and the chain is a list, and otherwise stops at the
first call that fails, or behind the last for the end of the chain (`MapsAlong`).
-/

namespace Scheme

open EvalM

/-! ## The end of a chain -/

namespace Value

variable {v : Value} {xs : List Value}

/-- The spine of a chain is its pairs, and the value behind them. -/
theorem links_spine (v : Value) : ∃ us, Links v.spine.2 v.spine.1 v us := by
  induction v with
  | pair i a d _ ih =>
    obtain ⟨us, h⟩ := ih
    rw [spine_pair]
    exact ⟨_, .cons i a h⟩
  | _ => exact ⟨[], .nil⟩

theorem spine_end_ne_pair (v : Value) (i : Label) (a d : Value) : v.spine.2 ≠ .pair i a d := by
  induction v with
  | pair j b e _ ih => rwa [spine_pair]
  | _ => simp [spine, spineOnto]

theorem not_lists_of_improper (h : v.isProper = false) : ¬v.Lists xs := by
  intro hxs
  rw [hxs.isProper] at h
  cases h

/-- Taking a chain apart succeeds with exactly the elements that it lists. -/
theorem items_eq_ok_iff : v.items = .ok xs ↔ v.Lists xs := by
  refine ⟨fun h => ?_, Lists.items_eq⟩
  unfold items at h
  split at h
  · next hxs =>
    cases h
    exact hxs
  · cases h

theorem items_of_improper (h : v.isProper = false) : v.items = .error (.malformedList v) := by
  unfold items
  split
  · next hxs => exact absurd hxs (not_lists_of_improper h)
  · rfl

/-- Counting an improper chain ends in a fault, wherever the count has come to. -/
theorem countOnto_of_improper (h : v.isProper = false) (whole : Value) (n : Nat) :
    countOnto whole n v = .error (.malformedList whole) := by
  induction v generalizing n with
  | pair i a d _ ih => exact ih h (n + 1)
  | nil => cases h
  | _ => rfl

theorem length_of_improper (h : v.isProper = false) : v.length = .error (.malformedList v) :=
  countOnto_of_improper h v 0

/-- A chain has a length if and only if it is a list, and then it is the number of its elements. -/
theorem length_eq_ok_iff {n : Nat} : v.length = .ok n ↔ ∃ xs, v.Lists xs ∧ xs.length = n := by
  constructor
  · intro hn
    cases h : v.isProper with
    | true =>
      obtain ⟨xs, hxs⟩ := exists_lists_iff.mpr h
      cases hxs.length_eq.symm.trans hn
      exact ⟨xs, hxs, rfl⟩
    | false => cases (length_of_improper h).symm.trans hn
  · rintro ⟨xs, hxs, rfl⟩
    exact hxs.length_eq

/-- A walk along a list gives its elements and no fault. -/
theorem Lists.walk_eq (h : v.Lists xs) : v.walk = (xs, none) := by
  unfold walk
  rw [h]

/-- A walk along an improper chain gives its elements first and the fault behind them. -/
theorem walk_of_improper (h : v.isProper = false) :
    v.walk = (v.spine.1, some (.malformedList v)) := by
  unfold walk
  split
  · next hxs => exact absurd hxs (not_lists_of_improper h)
  · next hxs => rw [hxs]

end Value

/-! ## Cursors -/

/-- A walk along a chain: the whole chain, and what is left of it until the walk is over. -/
structure Cursor where
  whole : Value
  left : Option Value

namespace Cursor

/-- A walk from the first pair of a chain. -/
def start (v : Value) : Cursor := ⟨v, some v⟩

/-- The answer to one call, and the walk behind it. -/
def next (c : Cursor) : Option (Except Fault Value) × Cursor :=
  match c.left with
  | none => (none, c)
  | some (.pair _ a d) => (some (.ok a), { c with left := some d })
  | some .nil => (none, { c with left := none })
  | some _ => (some (.error (.malformedList c.whole)), { c with left := none })

/-- The walk behind some calls. -/
def after : Nat → Cursor → Cursor
  | 0, c => c
  | n + 1, c => after n c.next.2

/-- The answer to the call behind the first `n`. -/
def answer (c : Cursor) (n : Nat) : Option (Except Fault Value) := (c.after n).next.1

/-- A cursor that has answered an element has less left to go. -/
theorem sizeOf_left_next {c c' : Cursor} {a : Value} (h : c.next = (some (.ok a), c')) :
    sizeOf c'.left < sizeOf c.left := by
  obtain ⟨w, left⟩ := c
  unfold next at h
  split at h
  · cases h
  · next hleft =>
    obtain rfl := hleft
    cases h
    simp
  · cases h
  · cases h

/-- Does an action with one element after the other, and gives the results. It stops where the
cursor answers a fault. -/
def each {α : Type} (g : Value → EvalM α) (c : Cursor) : EvalM (List α) :=
  match _h : c.next with
  | (none, _) => pure []
  | (some (.error e), _) => fail e
  | (some (.ok a), rest) => do
    let b ← g a
    return b :: (← rest.each g)
termination_by sizeOf c.left
decreasing_by exact sizeOf_left_next _h

/-! ## What is answered -/

theorem answer_over (w : Value) (n : Nat) : (⟨w, none⟩ : Cursor).answer n = none := by
  induction n with
  | zero => rfl
  | succ n ih => exact ih

/-- The answers on the rest of a chain: its elements and, if it is no list, the fault. -/
theorem answer_rest (w d : Value) (n : Nat) : (⟨w, some d⟩ : Cursor).answer n =
    (d.spine.1.map .ok ++ if d.isProper then [] else [.error (.malformedList w)])[n]? := by
  induction d generalizing n with
  | pair i a d _ ih =>
    rw [Value.spine_pair]
    cases n with
    | zero => rfl
    | succ n => exact ih n
  | _ =>
    -- The walk is over after one call, with an answer or without.
    cases n with
    | zero => rfl
    | succ n => exact answer_over w n

/-! ## Loops -/

variable {α : Type} (g : Value → EvalM α)

/-- A loop over a pair does its action on the first component and goes on with the second. -/
theorem each_pair (w : Value) (i : Label) (a d : Value) :
    (⟨w, some (.pair i a d)⟩ : Cursor).each g = (do
      let b ← g a
      return b :: (← (⟨w, some d⟩ : Cursor).each g)) := by
  rw [each]
  rfl

/-- A loop over the rest of a chain does all its actions before it comes to the end. -/
theorem each_rest (w d : Value) : (⟨w, some d⟩ : Cursor).each g = (do
    let ys ← d.spine.1.mapM g
    if d.isProper then pure ys else fail (.malformedList w)) := by
  induction d with
  | pair i a d _ ih =>
    rw [each_pair, ih, Value.spine_pair, Value.isProper, List.mapM_cons]
    simp only [bind_assoc, pure_bind]
    congr 1
    funext y
    congr 1
    funext ys
    -- A fault at the end takes the place of the results.
    cases d.isProper <;> rfl
  | _ =>
    rw [each]
    rfl

end Cursor

/-- Taking a chain apart is a loop over a cursor that does nothing on the way. -/
theorem Value.check_items_eq_each (v : Value) : check v.items = (Cursor.start v).each pure := by
  have hpure (xs : List Value) : xs.mapM (pure : Value → EvalM Value) = pure xs := by
    simpa using List.mapM_pure (m := EvalM) (l := xs) (f := id)
  rw [Cursor.start, Cursor.each_rest, hpure, pure_bind]
  cases h : v.isProper with
  | true =>
    obtain ⟨xs, hxs⟩ := exists_lists_iff.mpr h
    rw [hxs.items_eq, hxs]
    rfl
  | false =>
    rw [items_of_improper h]
    rfl

/-! ## Agreement -/

/-- How a chain of pairs is walked along. -/
structure Value.WalksAgree (v : Value) : Prop where
  /-- All walks find a list, or none does. -/
  tfae : [v.isProper = true, ∃ n, v.length = .ok n, ∃ xs, v.items = .ok xs,
    ∀ n e, (Cursor.start v).answer n ≠ some (.error e)].TFAE
  /-- The elements of a list are the first parts of its pairs. As many are counted, and a cursor
  answers them and nothing else. -/
  proper : v.isProper = true → ∃ xs us, Links .nil xs v us ∧ v.items = .ok xs ∧
    v.length = .ok xs.length ∧ v.walk = (xs, none) ∧
    ∀ n, (Cursor.start v).answer n = xs[n]?.map .ok
  /-- On any other chain a cursor answers the first parts of all pairs, then one fault, and then
  nothing. -/
  improper : v.isProper = false → ∃ xs us tail, Links tail xs v us ∧
    (∀ i a d, tail ≠ .pair i a d) ∧ tail ≠ .nil ∧ v.items = .error (.malformedList v) ∧
    v.length = .error (.malformedList v) ∧ v.walk = (xs, some (.malformedList v)) ∧
    (∀ n (h : n < xs.length), (Cursor.start v).answer n = some (.ok xs[n])) ∧
    (Cursor.start v).answer xs.length = some (.error (.malformedList v)) ∧
    ∀ n, xs.length < n → (Cursor.start v).answer n = none
  /-- Taking a chain apart is a loop over a cursor. -/
  each : check v.items = (Cursor.start v).each pure

namespace Value

/-- A cursor on a list answers its elements in order, and nothing after them. -/
theorem Lists.answer_eq {v : Value} {xs : List Value} (h : v.Lists xs) (n : Nat) :
    (Cursor.start v).answer n = xs[n]?.map .ok := by
  rw [Cursor.start, Cursor.answer_rest, h.isProper, h]
  simp

/-- A cursor on an improper chain answers its elements, the fault once, and nothing after it. -/
theorem answer_of_improper {v : Value} (h : v.isProper = false) (n : Nat) :
    (Cursor.start v).answer n = (v.spine.1.map .ok ++ [.error (.malformedList v)])[n]? := by
  rw [Cursor.start, Cursor.answer_rest, h]
  rfl

theorem walksAgree (v : Value) : v.WalksAgree where
  tfae := by
    tfae_have 1 → 2 := fun h => by
      obtain ⟨xs, hxs⟩ := exists_lists_iff.mpr h
      exact ⟨_, hxs.length_eq⟩
    tfae_have 1 → 3 := fun h => by
      obtain ⟨xs, hxs⟩ := exists_lists_iff.mpr h
      exact ⟨_, hxs.items_eq⟩
    tfae_have 1 → 4 := fun h n e => by
      obtain ⟨xs, hxs⟩ := exists_lists_iff.mpr h
      rw [hxs.answer_eq]
      simp
    tfae_have 2 → 1 := fun ⟨n, hn⟩ => by
      obtain ⟨xs, hxs, -⟩ := length_eq_ok_iff.mp hn
      exact hxs.isProper
    tfae_have 3 → 1 := fun ⟨xs, hxs⟩ => (items_eq_ok_iff.mp hxs).isProper
    tfae_have 4 → 1 := fun hall => by
      by_contra h
      refine hall v.spine.1.length (.malformedList v) ?_
      rw [answer_of_improper (Bool.eq_false_iff.mpr h)]
      simp
    tfae_finish
  proper h := by
    obtain ⟨xs, hxs⟩ := exists_lists_iff.mpr h
    obtain ⟨us, hlinks⟩ := links_spine v
    rw [hxs] at hlinks
    exact ⟨xs, us, hlinks, hxs.items_eq, hxs.length_eq, hxs.walk_eq, hxs.answer_eq⟩
  improper h := by
    obtain ⟨us, hlinks⟩ := links_spine v
    refine ⟨_, us, _, hlinks, spine_end_ne_pair v, fun hend => ?_, items_of_improper h,
      length_of_improper h, walk_of_improper h, fun n hn => ?_, ?_, fun n hn => ?_⟩
    · exact not_lists_of_improper h (Prod.ext rfl hend)
    · rw [answer_of_improper h, List.getElem?_append_left (by simpa using hn), List.getElem?_map,
        List.getElem?_eq_getElem hn]
      rfl
    · rw [answer_of_improper h]
      simp
    · rw [answer_of_improper h]
      exact List.getElem?_eq_none (by simpa [Nat.succ_le_iff] using hn)
  each := check_items_eq_each v

end Value

/-! ## Calls in a row -/

/-- Calls with the elements in order, one with each and on the machine that the one before left, and
their results. -/
inductive Calls (g : Value → EvalM Value) : Machine → List Value → List Value → Machine → Prop
  | nil (k : Machine) : Calls g k [] [] k
  | cons {x y : Value} {xs ys : List Value} {k k₁ k' : Machine} (hx : g x k = .ok y k₁)
      (h : Calls g k₁ xs ys k') : Calls g k (x :: xs) (y :: ys) k'

/-- The calls are made up to one that stops, and none behind it. -/
def StopsAmong (g : Value → EvalM Value) (k : Machine) (xs : List Value) (s : Stop)
    (k' : Machine) : Prop :=
  ∃ front x back ys k₁, xs = front ++ x :: back ∧ Calls g k front ys k₁ ∧ g x k₁ = .error s k'

namespace Calls

variable {g : Value → EvalM Value} {k k' : Machine} {xs ys : List Value}

theorem mapM_eq (h : Calls g k xs ys k') : xs.mapM g k = .ok ys k' := by
  induction h with
  | nil k => rfl
  | cons hx _ ih =>
    rw [List.mapM_cons, bind_ok hx, bind_ok ih]
    rfl

/-- A map that succeeds has made all its calls. -/
theorem of_mapM (h : xs.mapM g k = .ok ys k') : Calls g k xs ys k' := by
  induction xs generalizing k ys with
  | nil =>
    cases h
    exact .nil _
  | cons x xs ih =>
    rw [List.mapM_cons] at h
    obtain ⟨y, k₁, hx, h⟩ := bind_eq_ok h
    obtain ⟨ys, k₂, hxs, h⟩ := bind_eq_ok h
    cases h
    exact .cons hx (ih hxs)

end Calls

namespace StopsAmong

variable {g : Value → EvalM Value} {k k' : Machine} {xs : List Value} {s : Stop}

theorem mapM_eq (h : StopsAmong g k xs s k') : xs.mapM g k = .error s k' := by
  obtain ⟨front, x, back, ys, k₁, rfl, hfront, hx⟩ := h
  rw [List.mapM_append, bind_ok hfront.mapM_eq, List.mapM_cons]
  exact bind_error (bind_error hx)

/-- A map that stops does so at one of its calls, with all before it made. -/
theorem of_mapM (h : xs.mapM g k = .error s k') : StopsAmong g k xs s k' := by
  induction xs generalizing k with
  | nil => cases h
  | cons x xs ih =>
    cases hx : g x k with
    | error s₁ k₁ =>
      rw [List.mapM_cons, bind_error hx] at h
      cases h
      exact ⟨[], x, xs, [], k, rfl, .nil k, hx⟩
    | ok y k₁ =>
      rw [List.mapM_cons, bind_ok hx] at h
      cases hxs : xs.mapM g k₁ with
      | ok ys k₂ =>
        rw [bind_ok hxs] at h
        cases h
      | error s₂ k₂ =>
        rw [bind_error hxs] at h
        cases h
        obtain ⟨front, z, back, ys, k₃, rfl, hfront, hz⟩ := ih hxs
        exact ⟨x :: front, z, back, y :: ys, k₃, rfl, .cons hx hfront, hz⟩

end StopsAmong

/-! ## Maps -/

section

variable {v : Value} {xs : List Value}

/-- Mapping over a list is the map over its elements. -/
theorem Value.Lists.mapItems_eq (h : v.Lists xs) (g : Value → EvalM Value) :
    mapItems g v = xs.mapM g := by
  simp only [mapItems, h.walk_eq, bind_pure]

/-- Mapping over an improper chain maps its elements first and then fails for its end. -/
theorem EvalM.mapItems_of_improper (h : v.isProper = false) (g : Value → EvalM Value) :
    mapItems g v = (do
      let _ ← v.spine.1.mapM g
      fail (.malformedList v)) := by
  simp only [mapItems, Value.walk_of_improper h]

/-- Mapping is a loop over a cursor. -/
theorem EvalM.mapItems_eq_each (g : Value → EvalM Value) (v : Value) :
    mapItems g v = (Cursor.start v).each g := by
  rw [Cursor.start, Cursor.each_rest]
  cases h : v.isProper with
  | true =>
    obtain ⟨xs, hxs⟩ := Value.exists_lists_iff.mpr h
    rw [hxs.mapItems_eq, hxs]
    simp
  | false => exact mapItems_of_improper h g

variable {g : Value → EvalM Value} {k k' : Machine}

/-- A map succeeds if and only if the chain is a list and all calls are made. -/
theorem EvalM.mapItems_eq_ok_iff {ys : List Value} :
    mapItems g v k = .ok ys k' ↔ ∃ xs, v.items = .ok xs ∧ Calls g k xs ys k' := by
  cases h : v.isProper with
  | true =>
    obtain ⟨xs, hxs⟩ := Value.exists_lists_iff.mpr h
    rw [hxs.mapItems_eq, hxs.items_eq]
    refine ⟨fun hok => ⟨xs, rfl, .of_mapM hok⟩, ?_⟩
    rintro ⟨_, ⟨⟩, hcalls⟩
    exact hcalls.mapM_eq
  | false =>
    rw [mapItems_of_improper h, Value.items_of_improper h]
    refine ⟨fun hok => ?_, ?_⟩
    · obtain ⟨_, _, _, hfail⟩ := bind_eq_ok hok
      cases hfail
    · rintro ⟨_, ⟨⟩, -⟩

/-- A map stops at the first call that does, or behind all of them because the chain is no list. -/
theorem EvalM.mapItems_eq_error_iff {s : Stop} :
    mapItems g v k = .error s k' ↔ StopsAmong g k v.walk.1 s k' ∨
      v.isProper = false ∧ s = .fault (.malformedList v) ∧ ∃ ys, Calls g k v.walk.1 ys k' := by
  cases h : v.isProper with
  | true =>
    obtain ⟨xs, hxs⟩ := Value.exists_lists_iff.mpr h
    rw [hxs.mapItems_eq, hxs.walk_eq]
    simp only [Bool.true_eq_false, false_and, or_false]
    exact ⟨.of_mapM, StopsAmong.mapM_eq⟩
  | false =>
    rw [mapItems_of_improper h, Value.walk_of_improper h]
    constructor
    · intro herror
      cases hxs : v.spine.1.mapM g k with
      | error s₁ k₁ =>
        rw [bind_error hxs] at herror
        cases herror
        exact .inl (.of_mapM hxs)
      | ok ys k₁ =>
        rw [bind_ok hxs] at herror
        cases herror
        exact .inr ⟨rfl, rfl, ys, .of_mapM hxs⟩
    · rintro (hstops | ⟨-, rfl, ys, hcalls⟩)
      · exact bind_error hstops.mapM_eq
      · exact bind_ok hcalls.mapM_eq

end

/-- A new list can always be made, and it has the elements that it is made of. -/
theorem EvalM.exists_newList (xs : List Value) (k : Machine) :
    ∃ w k', newList xs k = .ok w k' ∧ w.items = .ok xs := by
  obtain ⟨us, hlinks, -⟩ := links_linked k .nil xs
  have hlists := hlinks.lists (Value.lists_nil_iff.mpr rfl)
  refine ⟨_, _, consReversed_eq .nil xs.reverse k, ?_⟩
  rw [List.reverse_reverse, hlists.items_eq, List.append_nil]

theorem EvalM.items_of_newList {xs : List Value} {w : Value} {k k' : Machine}
    (h : newList xs k = .ok w k') : w.items = .ok xs := by
  obtain ⟨w₁, k₁, hmade, hitems⟩ := exists_newList xs k
  cases hmade.symm.trans h
  exact hitems

/-- Making a list of the results adds no failure. -/
theorem EvalM.bind_newList_eq_error_iff {x : EvalM (List Value)} {k k' : Machine} {s : Stop} :
    (x >>= newList) k = .error s k' ↔ x k = .error s k' := by
  refine ⟨fun h => ?_, bind_error⟩
  cases hx : x k with
  | error s₁ k₁ =>
    rw [bind_error hx] at h
    cases h
    rfl
  | ok ys k₁ =>
    obtain ⟨w, k₂, hmade, -⟩ := exists_newList ys k₁
    rw [bind_ok hx, hmade] at h
    cases h

/-- Calls that cannot stop are all made. -/
theorem exists_calls {g : Value → EvalM Value} (hg : ∀ x k, ∃ y k', g x k = .ok y k')
    (xs : List Value) (k : Machine) : ∃ ys k', Calls g k xs ys k' := by
  induction xs generalizing k with
  | nil => exact ⟨[], k, .nil k⟩
  | cons x xs ih =>
    obtain ⟨y, k₁, hx⟩ := hg x k
    obtain ⟨ys, k', hxs⟩ := ih k₁
    exact ⟨y :: ys, k', .cons hx hxs⟩

/-- How a new list is made of the results of an action on the elements of a chain. -/
structure MapsAlong (g : Value → EvalM Value) (v : Value) : Prop where
  /-- The action is done with each element as a cursor answers it. -/
  each : mapItems g v = (Cursor.start v).each g
  /-- A list is made of the results if the chain is a list and all calls succeed. -/
  ok_iff (k : Machine) (w : Value) (k' : Machine) : (mapItems g v >>= newList) k = .ok w k' ↔
    ∃ xs ys k₁, v.items = .ok xs ∧ Calls g k xs ys k₁ ∧ newList ys k₁ = .ok w k' ∧
      w.items = .ok ys
  /-- Otherwise the map stops at the first call that fails, or behind all calls for the end of the
  chain. -/
  error_iff (k : Machine) (s : Stop) (k' : Machine) :
    (mapItems g v >>= newList) k = .error s k' ↔ StopsAmong g k v.walk.1 s k' ∨
      v.isProper = false ∧ s = .fault (.malformedList v) ∧ ∃ ys, Calls g k v.walk.1 ys k'
  /-- An action that never fails can be done with exactly the lists. -/
  total : (∀ x k, ∃ y k', g x k = .ok y k') → ∀ k,
    ((∃ w k', (mapItems g v >>= newList) k = .ok w k') ↔ v.isProper = true)
  /-- A function is mapped to the list of its values. -/
  images (h : Value → Value) : (∀ x, g x = pure (h x)) → ∀ xs k, v.items = .ok xs →
    ∃ w k', (mapItems g v >>= newList) k = .ok w k' ∧ w.items = .ok (xs.map h)

theorem mapsAlong (g : Value → EvalM Value) (v : Value) : MapsAlong g v where
  each := mapItems_eq_each g v
  ok_iff k w k' := by
    constructor
    · intro h
      obtain ⟨ys, k₁, hmap, hmade⟩ := bind_eq_ok h
      obtain ⟨xs, hxs, hcalls⟩ := mapItems_eq_ok_iff.mp hmap
      exact ⟨xs, ys, k₁, hxs, hcalls, hmade, items_of_newList hmade⟩
    · rintro ⟨xs, ys, k₁, hxs, hcalls, hmade, -⟩
      exact (bind_ok (mapItems_eq_ok_iff.mpr ⟨xs, hxs, hcalls⟩)).trans hmade
  error_iff k s k' := bind_newList_eq_error_iff.trans mapItems_eq_error_iff
  total hg k := by
    constructor
    · rintro ⟨w, k', h⟩
      obtain ⟨ys, k₁, hmap, -⟩ := bind_eq_ok h
      obtain ⟨xs, hxs, -⟩ := mapItems_eq_ok_iff.mp hmap
      exact (Value.items_eq_ok_iff.mp hxs).isProper
    · intro h
      obtain ⟨xs, hxs⟩ := Value.exists_lists_iff.mpr h
      obtain ⟨ys, k₁, hcalls⟩ := exists_calls hg xs k
      obtain ⟨w, k', hmade, -⟩ := exists_newList ys k₁
      exact ⟨w, k', (bind_ok (mapItems_eq_ok_iff.mpr ⟨xs, hxs.items_eq, hcalls⟩)).trans hmade⟩
  images h hg xs k hxs := by
    obtain ⟨w, k', hmade, hitems⟩ := exists_newList (xs.map h) k
    refine ⟨w, k', ?_, hitems⟩
    rw [(Value.items_eq_ok_iff.mp hxs).mapItems_eq, funext hg, List.mapM_pure, pure_bind]
    exact hmade

end Scheme
