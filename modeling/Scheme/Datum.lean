/-!
# Data

A datum is what program text spells: a number, a boolean, a string, a symbol, the empty list, or
a pair of data. Lists are chains of pairs that end in the empty list. A datum carries no
identity; an evaluation gives it one when it takes the datum as a value.
-/

namespace Scheme

/-- What an expression spells. -/
inductive Datum where
  | int (i : Int)
  | float (f : Float)
  | bool (b : Bool)
  | str (s : String)
  | sym (name : String)
  | nil
  | pair (first second : Datum)

namespace Datum

/-- The elements, given last first, in front of `tail`. -/
def chain (tail : Datum) (reversed : List Datum) : Datum :=
  reversed.foldl (fun rest d => .pair d rest) tail

/-- The list of the elements. -/
def ofList (items : List Datum) : Datum := chain .nil items.reverse

/-- The expression whose value is `d` itself. -/
def quoting (d : Datum) : Datum := .pair (.sym "quote") (.pair d .nil)

theorem chain_cons (tail d : Datum) (reversed : List Datum) :
    chain tail (d :: reversed) = chain (.pair d tail) reversed := rfl

/-- A list is its first datum in front of the list of the others. -/
theorem ofList_cons (d : Datum) (items : List Datum) :
    ofList (d :: items) = .pair d (ofList items) := by
  simp [ofList, chain, List.foldl_append]

end Datum

end Scheme
