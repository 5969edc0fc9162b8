import Scheme.Fault

/-!
# Walking lists

A chain of pairs has a spine: the first parts of its pairs in order, and the value that the last
of them ends in. It is a list when that value is the empty list. `Value.spine` is the view that
every walk over a list goes through; `Value.spine_pair` and its companions say how it is built.
-/

namespace Scheme.Value

/-- The spine of a chain behind the elements already met, which are held last first. -/
def spineOnto (met : List Value) : Value → List Value × Value
  | pair _ a d => d.spineOnto (a :: met)
  | v => (met.reverse, v)

/-- The elements of a chain of pairs and the value that it ends in. -/
def spine (v : Value) : List Value × Value := v.spineOnto []

/-- The elements of a list. -/
def items (v : Value) : Except Fault (List Value) :=
  match v.spine with
  | (xs, nil) => .ok xs
  | _ => .error (.malformedList v)

/-- Counts on along a chain; `whole` is the chain that is at fault if it is no list. -/
def countOnto (whole : Value) (n : Nat) : Value → Except Fault Nat
  | pair _ _ d => countOnto whole (n + 1) d
  | nil => .ok n
  | _ => .error (.malformedList whole)

/-- The number of elements of a list. -/
def length (v : Value) : Except Fault Nat := v.countOnto 0 v

/-- What is met on the way along a chain: its elements, and at last a fault if it is no list. -/
def walk (v : Value) : List Value × Option Fault :=
  match v.spine with
  | (xs, nil) => (xs, none)
  | (xs, _) => (xs, some (.malformedList v))

/-! ## The spine -/

/-- The elements met before come in front of the others, in their order. -/
theorem spineOnto_eq (met : List Value) (v : Value) :
    v.spineOnto met = (met.reverse ++ v.spine.1, v.spine.2) := by
  have key : ∀ (v : Value) (met : List Value),
      v.spineOnto met = (met.reverse ++ (v.spineOnto []).1, (v.spineOnto []).2) := by
    intro v
    induction v with
    | pair i a d _ ih =>
      intro met
      simp only [spineOnto]
      rw [ih (a :: met), ih [a]]
      simp
    | _ => intro met; simp [spineOnto]
  exact key v met

theorem spine_pair (i : Label) (a d : Value) :
    (pair i a d).spine = (a :: d.spine.1, d.spine.2) := by
  rw [spine, spineOnto, spineOnto_eq]
  simp

end Scheme.Value
