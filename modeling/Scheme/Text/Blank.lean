/-!
# Blank characters

The blank characters are those with the Unicode property White_Space. They separate tokens and
are what trimming a line removes. The property is stored as a sorted table of code point ranges;
`within` searches such a table and stops at the first range beyond the character.
-/

namespace Scheme.Text

/-- Whether `n` lies in one of the closed ranges of a table sorted upwards. -/
def within (n : Nat) : List (Nat × Nat) → Bool
  | [] => false
  | (lo, hi) :: rest => if n < lo then false else if n ≤ hi then true else within n rest

/-- The code point ranges of White_Space. -/
def blankRanges : List (Nat × Nat) :=
  [(0x9, 0xd), (0x20, 0x20), (0x85, 0x85), (0xa0, 0xa0), (0x1680, 0x1680), (0x2000, 0x200a),
   (0x2028, 0x2029), (0x202f, 0x202f), (0x205f, 0x205f), (0x3000, 0x3000)]

/-- A character that separates tokens. -/
def isBlank (c : Char) : Bool := within c.toNat blankRanges

/-- A text of blank characters only, the empty one included. -/
def allBlank (cs : List Char) : Bool := cs.all isBlank

theorem isBlank_newline : isBlank '\n' = true := by decide

theorem allBlank_nil : allBlank [] = true := rfl

theorem allBlank_cons (c : Char) (cs : List Char) :
    allBlank (c :: cs) = (isBlank c && allBlank cs) := rfl

end Scheme.Text
