import Scheme.Text.Printable

/-!
# Quoted texts

The written form of a string: the text between double quotes, with the quote and the backslash
behind a backslash, five control characters by a letter, and every other character without a
shape of its own by its code point in hexadecimal. The apostrophe is not escaped.
-/

namespace Scheme.Text

/-- The code point of `c` as an escape, in the fewest lower-case hexadecimal digits. -/
def codePointEscape (c : Char) : List Char :=
  '\\' :: 'u' :: '\x7b' :: (Nat.toDigits 16 c.toNat ++ ['\x7d'])

/-- One character of a quoted text. -/
def quotedChar (c : Char) : List Char :=
  if c = '"' then ['\\', '"']
  else if c = '\\' then ['\\', '\\']
  else if c = '\n' then ['\\', 'n']
  else if c = '\t' then ['\\', 't']
  else if c = '\r' then ['\\', 'r']
  else if c = '\x00' then ['\\', '0']
  else if isPrintable c then [c]
  else codePointEscape c

/-- The characters of a text between the quotes. -/
def quotedChars (cs : List Char) : List Char := cs.flatMap quotedChar

/-- A text in double quotes. -/
def quoted (s : String) : String := String.ofList ('"' :: (quotedChars s.toList ++ ['"']))

theorem quotedChars_cons (c : Char) (cs : List Char) :
    quotedChars (c :: cs) = quotedChar c ++ quotedChars cs := rfl

end Scheme.Text
