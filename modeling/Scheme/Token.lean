import Scheme.Text.Blank
import Scheme.Decimal.Numeral

/-!
# Tokens

Program text is cut into tokens. Blanks and comments, from a semicolon to the end of the line,
stand between them and are skipped. A string runs to its closing quote; every other token that is
not a single mark is an atom and runs to the next blank, mark, quote or semicolon.

`Lexeme.next` takes one lexeme off a text and gives what is left. `Lexeme.rest_lt` says that
every lexeme but the end takes at least one character.
-/

namespace Scheme

/-- The units of program text. -/
inductive Token where
  | number (text : String)
  | symbol (text : String)
  | string (text : String)
  | boolean (b : Bool)
  | opening
  | closing
  | quote
  | dot
deriving DecidableEq, Repr

/-- What stands next in a text. -/
inductive Lexeme where
  | token (t : Token)
  /-- An atom that begins with `#` and is no boolean. -/
  | invalid (text : String)
  /-- A string that the text ends in. -/
  | unclosed
  /-- Only blanks and comments are left. -/
  | finished
deriving DecidableEq, Repr

namespace Token

/-- The apostrophe, which abbreviates quotation. -/
def apostrophe : Char := Char.ofNat 0x27

/-- The marks that end an atom. -/
def marks : List Char := ['(', ')', '"', apostrophe, ';']

/-- A character that ends an atom. -/
def isDelimiter (c : Char) : Bool := Text.isBlank c || marks.contains c

/-- Whether a text starts with an ASCII digit. -/
def startsWithDigit : List Char → Bool
  | c :: _ => Numeral.isDigit c
  | [] => false

/-- Whether a text starts with a digit, or with a point and a digit. -/
def startsWithDecimal : List Char → Bool
  | '.' :: cs => startsWithDigit cs
  | cs => startsWithDigit cs

/-- Whether an atom is taken for a number: it starts with a digit, or with a sign, a point or
both in front of a digit. -/
def looksNumeric : List Char → Bool
  | '+' :: cs => startsWithDecimal cs
  | '-' :: cs => startsWithDecimal cs
  | cs => startsWithDecimal cs

/-- The token of an atom that does not begin with `#`. -/
def ofAtom (atom : List Char) : Token :=
  if atom = ['.'] then .dot
  else if looksNumeric atom then .number (String.ofList atom)
  else .symbol (String.ofList atom)

end Token

namespace Lexeme

/-- The lexeme of an atom that begins with `#`. -/
def ofHashAtom (atom : List Char) : Lexeme :=
  if atom = ['#', 't'] then .token (.boolean true)
  else if atom = ['#', 'f'] then .token (.boolean false)
  else .invalid (String.ofList atom)

/-- Drops blanks and comments; the flag tells that the text starts inside a comment. -/
def skip : (inComment : Bool) → List Char → List Char
  | _, [] => []
  | true, c :: cs => skip (c != '\n') cs
  | false, c :: cs =>
    if Text.isBlank c then skip false cs
    else if c = ';' then skip true cs
    else c :: cs

/-- The character that a backslash and `c` stand for. -/
def unescape (c : Char) : Char :=
  if c = 'n' then '\n' else if c = 't' then '\t' else if c = 'r' then '\r' else c

/-- Reads a string behind its opening quote; `read` holds the characters so far, last first. -/
def stringBody (read : List Char) : List Char → Option (List Char × List Char)
  | [] => none
  | '"' :: cs => some (read.reverse, cs)
  | ['\\'] => none
  | '\\' :: c :: cs => stringBody (unescape c :: read) cs
  | c :: cs => stringBody (c :: read) cs

/-- The lexeme that starts with the character `c`, which is neither blank nor a semicolon, and
the text behind it. -/
def start (c : Char) (cs : List Char) : Lexeme × List Char :=
  if c = '(' then (.token .opening, cs)
  else if c = ')' then (.token .closing, cs)
  else if c = Token.apostrophe then (.token .quote, cs)
  else if c = '"' then
    match stringBody [] cs with
    | some (body, rest) => (.token (.string (String.ofList body)), rest)
    | none => (.unclosed, [])
  else
    let atom := c :: cs.takeWhile (!Token.isDelimiter ·)
    let rest := cs.dropWhile (!Token.isDelimiter ·)
    if c = '#' then (ofHashAtom atom, rest) else (.token (Token.ofAtom atom), rest)

/-- The next lexeme of a text and the text behind it. -/
def next (cs : List Char) : Lexeme × List Char :=
  match skip false cs with
  | [] => (.finished, [])
  | c :: cs => start c cs

/-! ## Progress -/

theorem skip_length_le (b : Bool) (cs : List Char) : (skip b cs).length ≤ cs.length := by
  induction cs generalizing b with
  | nil => simp [skip]
  | cons c cs ih =>
    cases b with
    | true => simpa [skip] using Nat.le_succ_of_le (ih _)
    | false =>
      simp only [skip]
      split
      · simpa using Nat.le_succ_of_le (ih _)
      · split
        · simpa using Nat.le_succ_of_le (ih _)
        · simp

/-- A string that is closed has taken at least its closing quote. -/
theorem stringBody_length_lt {read cs body rest : List Char}
    (h : stringBody read cs = some (body, rest)) : rest.length < cs.length := by
  fun_induction stringBody read cs with
  | case1 => simp at h
  | case2 read cs =>
    simp only [Option.some.injEq, Prod.mk.injEq] at h
    simp [← h.2]
  | case3 => simp at h
  | case4 read c cs ih =>
    have := ih h
    simp only [List.length_cons]
    omega
  | case5 read c cs _ _ _ ih =>
    have := ih h
    simp only [List.length_cons]
    omega

theorem dropWhile_length_le (p : Char → Bool) (cs : List Char) :
    (cs.dropWhile p).length ≤ cs.length :=
  (List.dropWhile_sublist p).length_le

theorem start_length_le (c : Char) (cs : List Char) : (start c cs).2.length ≤ cs.length := by
  unfold start
  split
  · simp
  split
  · simp
  split
  · simp
  split
  · cases h : stringBody [] cs with
    | none => simp
    | some r =>
      obtain ⟨body, rest⟩ := r
      exact Nat.le_of_lt (stringBody_length_lt h)
  · simp only
    split <;> exact dropWhile_length_le _ _

/-- Every lexeme but the end takes at least one character. -/
theorem rest_lt {cs : List Char} (h : (next cs).1 ≠ .finished) :
    (next cs).2.length < cs.length := by
  have hs := skip_length_le false cs
  unfold next at h ⊢
  revert h hs
  cases skip false cs with
  | nil => simp
  | cons c rest =>
    intro _ hs
    have := start_length_le c rest
    simp only [List.length_cons] at hs
    simp only
    omega

/-- A token takes at least one character. -/
theorem rest_lt_of_token {cs rest : List Char} {t : Token} (h : next cs = (.token t, rest)) :
    rest.length < cs.length := by
  simpa [h] using @rest_lt cs (by simp [h])

end Lexeme

end Scheme
