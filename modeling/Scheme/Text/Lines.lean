/-!
# Lines of input

Input comes as bytes and is taken line by line, each line with the newline that ends it. A line
that is no valid text ends the input with a failure. Bytes that are valid as a whole are cut as
text, which gives the same lines.
-/

namespace Scheme.Text

/-- The lines of a text; `read` holds the present line so far, last character first. -/
def linesOnto (read : List Char) : List Char → List (List Char)
  | [] => if read.isEmpty then [] else [read.reverse]
  | c :: cs => if c = '\n' then (c :: read).reverse :: linesOnto [] cs else linesOnto (c :: read) cs

/-- The lines of a text, each with its newline. -/
def lines (cs : List Char) : List (List Char) := linesOnto [] cs

/-- The lines of a sequence of bytes; `read` holds the present line so far, last byte first. -/
def byteLinesOnto (read : List UInt8) : List UInt8 → List (List UInt8)
  | [] => if read.isEmpty then [] else [read.reverse]
  | b :: bs =>
    if b = 10 then (b :: read).reverse :: byteLinesOnto [] bs else byteLinesOnto (b :: read) bs

/-- The text that some bytes encode. -/
def decode? (bytes : List UInt8) : Option (List Char) :=
  (String.fromUTF8? ⟨bytes.toArray⟩).map String.toList

/-- The lines of some bytes: `none` stands for a line that is no valid text. -/
def inputLines (bytes : ByteArray) : List (Option (List Char)) :=
  match String.fromUTF8? bytes with
  | some s => (lines s.toList).map some
  | none => (byteLinesOnto [] bytes.toList).map decode?

end Scheme.Text
