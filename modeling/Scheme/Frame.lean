import Scheme.Value.Basic

/-!
# Frames

A frame binds names to values and knows its parent, the frame in which names that it does not
bind are looked up. A name is bound at most once: binding it again replaces its value in place.
The laws `lookup_put` and `names_put` say what a binding does to every name.
-/

namespace Scheme

/-- Names with their values. -/
abbrev Bindings := List (String × Value)

namespace Bindings

/-- Binds a name, in the place that it has already or behind all others. -/
def put (x : String) (v : Value) : Bindings → Bindings
  | [] => [(x, v)]
  | (y, w) :: rest => if y = x then (x, v) :: rest else (y, w) :: put x v rest

/-- The names that are bound. -/
def names (b : Bindings) : List String := b.map Prod.fst

/-- Binds names to the values in the same places, one after the other. -/
def putAll (b : Bindings) (new : List (String × Value)) : Bindings :=
  new.foldl (fun b e => put e.1 e.2 b) b

/-- A name that has been put has its new value, and all others have what they had. -/
theorem lookup_put (x y : String) (v : Value) (b : Bindings) :
    (put x v b).lookup y = if y = x then some v else b.lookup y := by
  induction b with
  | nil =>
    by_cases h : y = x
    · simp [put, h]
    · have hb : (y == x) = false := by simpa using h
      simp [put, List.lookup_cons, h, hb]
  | cons e b ih =>
    obtain ⟨z, w⟩ := e
    by_cases hz : z = x
    · subst hz
      by_cases h : y = z
      · simp [put, h]
      · have hb : (y == z) = false := by simpa using h
        simp [put, List.lookup_cons, h, hb]
    · by_cases h : y = z
      · subst h
        simp [put, hz]
      · have hb : (y == z) = false := by simpa using h
        simp [put, List.lookup_cons, hz, hb, ih]

/-- A name is entered once, behind those before it. -/
theorem names_put (x : String) (v : Value) (b : Bindings) :
    (put x v b).names = if x ∈ b.names then b.names else b.names ++ [x] := by
  induction b with
  | nil => simp [put, names]
  | cons e b ih =>
    obtain ⟨z, w⟩ := e
    by_cases hz : z = x
    · subst hz
      simp [put, names]
    · have hx : ¬x = z := fun h => hz h.symm
      simp only [names] at ih
      by_cases hm : x ∈ List.map Prod.fst b
      · simp [put, names, hz, hm, ih]
      · simp [put, names, hz, hx, hm, ih]

end Bindings

/-- Bindings and the frame around them; only a global frame has none. -/
structure Frame where
  parent : Option FrameId
  bindings : Bindings

namespace Frame

/-- The value that the frame itself gives a name. -/
def get (fr : Frame) (x : String) : Option Value := fr.bindings.lookup x

/-- Binds a name in the frame. -/
def define (fr : Frame) (x : String) (v : Value) : Frame :=
  { fr with bindings := fr.bindings.put x v }

theorem get_define (fr : Frame) (x y : String) (v : Value) :
    (fr.define x v).get y = if y = x then some v else fr.get y :=
  Bindings.lookup_put x y v fr.bindings

theorem parent_define (fr : Frame) (x : String) (v : Value) :
    (fr.define x v).parent = fr.parent := rfl

end Frame

end Scheme
