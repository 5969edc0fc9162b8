import Scheme.Reader
import Mathlib.Data.List.TakeWhile
import Mathlib.Tactic.IntervalCases

/-!
# The lexemes of a text

What the next lexeme of a text is, by the way the text starts: a blank is passed over
(`Lexeme.next_blank`), a mark is a token by itself, an atom reaches to the first delimiter
(`Lexeme.next_atom`), a string to its closing quote (`Lexeme.next_string`). In the other
direction, `Lexeme.next_symbol` says what a symbol that is read is like.

The decimal text of an integer is an atom that looks numeric, and it is read as that integer
(`Datum.ofNumeral_toString`).
-/

namespace Scheme

/-- A text in front of which an atom ends: it is empty or it starts with a delimiter. -/
def Delimited (r : List Char) : Prop := ∀ c ∈ r.head?, Token.isDelimiter c = true

theorem Delimited.nil : Delimited [] := by simp [Delimited]

theorem Delimited.cons {c : Char} (hc : Token.isDelimiter c = true) (r : List Char) :
    Delimited (c :: r) := by
  simpa [Delimited] using hc

/-- The characters of an atom: there is one, and none of them is a delimiter. -/
structure IsAtom (cs : List Char) : Prop where
  ne_nil : cs ≠ []
  plain : ∀ c ∈ cs, Token.isDelimiter c = false

theorem IsAtom.of_all {cs : List Char} (hne : cs ≠ [])
    (hcs : cs.all (!Token.isDelimiter ·) = true) : IsAtom cs :=
  ⟨hne, by simpa using hcs⟩

namespace Token

/-- An atom goes on with a character that is neither a blank nor one of the marks. -/
theorem isDelimiter_eq_false_iff {c : Char} :
    isDelimiter c = false ↔ Text.isBlank c = false ∧ c ∉ marks := by
  simp [isDelimiter]

end Token

namespace Lexeme

/-! ## Blanks and marks -/

theorem next_blank {c : Char} (hc : Text.isBlank c = true) (cs : List Char) :
    next (c :: cs) = next cs := by
  simp [next, skip, hc]

/-- A lexeme starts at the first character that is neither blank nor in a comment. -/
theorem next_start {c : Char} (hb : Text.isBlank c = false) (hs : c ≠ ';') (cs : List Char) :
    next (c :: cs) = start c cs := by
  simp [next, skip, hb, hs]

theorem next_opening (cs : List Char) : next ('(' :: cs) = (.token .opening, cs) := by
  rw [next_start (by decide) (by decide)]
  rfl

theorem next_closing (cs : List Char) : next (')' :: cs) = (.token .closing, cs) := by
  rw [next_start (by decide) (by decide)]
  rfl

/-! ## Atoms -/

/-- An atom is taken up to the delimiter behind it. -/
theorem takeWhile_atom {cs r : List Char} (hcs : ∀ c ∈ cs, Token.isDelimiter c = false)
    (hr : Delimited r) : (cs ++ r).takeWhile (!Token.isDelimiter ·) = cs := by
  rw [List.takeWhile_append_of_pos (by simpa using hcs)]
  cases r with
  | nil => simp
  | cons c r => simp [hr c rfl]

theorem dropWhile_atom {cs r : List Char} (hcs : ∀ c ∈ cs, Token.isDelimiter c = false)
    (hr : Delimited r) : (cs ++ r).dropWhile (!Token.isDelimiter ·) = r := by
  rw [List.dropWhile_append_of_pos (by simpa using hcs)]
  cases r with
  | nil => rfl
  | cons c r => simp [hr c rfl]

/-- What an atom is read as; only those that begin with `#` are not tokens of one kind. -/
def ofAtom (cs : List Char) : Lexeme :=
  if cs.head? = some '#' then ofHashAtom cs else .token (Token.ofAtom cs)

/-- A character that is no delimiter starts an atom. -/
theorem start_atom {c : Char} (hc : Token.isDelimiter c = false) (cs : List Char) :
    start c cs = (ofAtom (c :: cs.takeWhile (!Token.isDelimiter ·)),
      cs.dropWhile (!Token.isDelimiter ·)) := by
  obtain ⟨-, hmark⟩ := Token.isDelimiter_eq_false_iff.mp hc
  simp only [Token.marks, List.mem_cons, List.not_mem_nil, or_false, not_or] at hmark
  obtain ⟨h1, h2, h3, h4, h5⟩ := hmark
  rw [start, if_neg h1, if_neg h2, if_neg h4, if_neg h3]
  simp only [ofAtom, List.head?_cons, Option.some.injEq]
  split <;> rfl

/-- An atom in front of a delimiter is taken whole. -/
theorem next_atom {cs r : List Char} (hcs : IsAtom cs) (hr : Delimited r) :
    next (cs ++ r) = (ofAtom cs, r) := by
  obtain ⟨hne, hplain⟩ := hcs
  cases cs with
  | nil => exact absurd rfl hne
  | cons c cs =>
    have hc : Token.isDelimiter c = false := hplain c (by simp)
    have hcs : ∀ d ∈ cs, Token.isDelimiter d = false := fun d hd => hplain d (by simp [hd])
    obtain ⟨hblank, hmark⟩ := Token.isDelimiter_eq_false_iff.mp hc
    have hsemi : c ≠ ';' := fun h => hmark (by simp [h, Token.marks])
    rw [List.cons_append, next_start hblank hsemi, start_atom hc, takeWhile_atom hcs hr,
      dropWhile_atom hcs hr]

/-! ## Strings -/

theorem stringBody_quote (read cs : List Char) :
    stringBody read ('"' :: cs) = some (read.reverse, cs) := by
  rw [stringBody]

theorem stringBody_escape (read : List Char) (c : Char) (cs : List Char) :
    stringBody read ('\\' :: c :: cs) = stringBody (unescape c :: read) cs := by
  rw [stringBody]

theorem stringBody_plain {c : Char} (hq : c ≠ '"') (hb : c ≠ '\\') (read cs : List Char) :
    stringBody read (c :: cs) = stringBody (c :: read) cs := by
  rw [stringBody]
  · exact hq
  · intro h
    exact absurd h hb
  · intro c' cs' h
    exact absurd h hb

/-- Characters without a meaning of their own are read as they stand. -/
theorem stringBody_plain_append {cs : List Char} (hcs : ∀ c ∈ cs, c ≠ '"' ∧ c ≠ '\\')
    (read r : List Char) :
    stringBody read (cs ++ r) = stringBody (cs.reverse ++ read) r := by
  induction cs generalizing read with
  | nil => rfl
  | cons c cs ih =>
    obtain ⟨hq, hb⟩ := hcs c (by simp)
    rw [List.cons_append, stringBody_plain hq hb, ih fun d hd => hcs d (by simp [hd])]
    simp

theorem start_quote (cs : List Char) :
    start '"' cs =
      match stringBody [] cs with
      | some (body, rest) => (.token (.string (String.ofList body)), rest)
      | none => (.unclosed, []) := rfl

/-- A quote starts a string token if the string is closed. -/
theorem next_string {cs body rest : List Char} (h : stringBody [] cs = some (body, rest)) :
    next ('"' :: cs) = (.token (.string (String.ofList body)), rest) := by
  rw [next_start (by decide) (by decide), start_quote, h]

/-! ## What starts a lexeme -/

/-- What is left behind blanks and comments starts with neither. -/
theorem skip_eq_cons {b : Bool} {cs rest : List Char} {c : Char} (h : skip b cs = c :: rest) :
    Text.isBlank c = false ∧ c ≠ ';' := by
  induction cs generalizing b with
  | nil => simp [skip] at h
  | cons d cs ih =>
    cases b with
    | true => exact ih h
    | false =>
      rw [skip] at h
      split at h
      · exact ih h
      next hblank =>
      split at h
      · exact ih h
      · next hsemi =>
        obtain ⟨rfl, rfl⟩ := List.cons.inj h
        exact ⟨by simpa using hblank, hsemi⟩

/-- A lexeme is a mark, a string or an atom. -/
theorem start_cases {c : Char} (hb : Text.isBlank c = false) (hs : c ≠ ';') :
    (∃ t, (∀ x, t ≠ .symbol x) ∧ ∀ cs, start c cs = (.token t, cs)) ∨ c = '"' ∨
      Token.isDelimiter c = false := by
  by_cases h1 : c = '('
  · subst h1
    exact .inl ⟨.opening, by simp, fun _ => rfl⟩
  by_cases h2 : c = ')'
  · subst h2
    exact .inl ⟨.closing, by simp, fun _ => rfl⟩
  by_cases h3 : c = Token.apostrophe
  · subst h3
    exact .inl ⟨.quote, by simp, fun _ => rfl⟩
  by_cases h4 : c = '"'
  · exact .inr (.inl h4)
  · exact .inr (.inr (Token.isDelimiter_eq_false_iff.mpr ⟨hb, by simp [Token.marks, *]⟩))

/-- What is read as a symbol is an atom that is neither a dot nor a number, and has no hash in
front. -/
theorem ofAtom_eq_symbol {cs : List Char} {x : String} (h : ofAtom cs = .token (.symbol x)) :
    x.toList = cs ∧ cs ≠ ['.'] ∧ Token.looksNumeric cs = false ∧ cs.head? ≠ some '#' := by
  simp only [ofAtom, ofHashAtom, Token.ofAtom] at h
  split at h
  · split at h
    · simp at h
    · split at h <;> simp at h
  next hhash =>
  split at h
  · simp at h
  next hdot =>
  split at h
  · simp at h
  next hnum =>
  simp only [token.injEq, Token.symbol.injEq] at h
  exact ⟨by rw [← h, String.toList_ofList], hdot, by simpa using hnum, hhash⟩

/-- A symbol that is read is an atom that is neither a dot nor numeric, and does not begin
with `#`. -/
theorem next_symbol {cs rest : List Char} {x : String} (h : next cs = (.token (.symbol x), rest)) :
    IsAtom x.toList ∧ x.toList ≠ ['.'] ∧ Token.looksNumeric x.toList = false ∧
      x.toList.head? ≠ some '#' := by
  rw [next] at h
  split at h
  · simp at h
  next c cs' hskip =>
  obtain ⟨hblank, hsemi⟩ := skip_eq_cons hskip
  rcases start_cases hblank hsemi with ⟨t, ht, hstart⟩ | rfl | hc
  · rw [hstart, Prod.mk.injEq, token.injEq] at h
    exact absurd h.1 (ht x)
  · rw [start_quote] at h
    split at h <;> simp at h
  · rw [start_atom hc, Prod.mk.injEq] at h
    obtain ⟨hx, hrest⟩ := ofAtom_eq_symbol h.1
    rw [hx]
    refine ⟨⟨by simp, fun d hd => ?_⟩, hrest⟩
    rcases List.mem_cons.mp hd with rfl | hd
    · exact hc
    · simpa using List.mem_takeWhile_imp hd

end Lexeme

/-! ## Integers -/

namespace Numeral

theorem mem_toDigits {b n : Nat} {c : Char} (hb : 1 < b) (h : c ∈ Nat.toDigits b n) :
    ∃ k < b, c = k.digitChar := by
  induction n using Nat.strong_induction_on with
  | _ n ih =>
    rw [Nat.toDigits_eq_if hb] at h
    split at h
    · next hlt => exact ⟨n, hlt, by simpa using h⟩
    · next hge =>
      rcases List.mem_append.mp h with h | h
      · exact ih (n / b) (Nat.div_lt_self (by omega) hb) h
      · exact ⟨n % b, Nat.mod_lt _ (by omega), by simpa using h⟩

theorem isDigit_of_mem_toDigits {n : Nat} {c : Char} (h : c ∈ Nat.toDigits 10 n) :
    isDigit c = true := by
  obtain ⟨k, hk, rfl⟩ := mem_toDigits (by decide) h
  have hdigit : ∀ k < 10, isDigit (Nat.digitChar k) = true := by decide
  exact hdigit k hk

/-- A decimal digit stands for the distance of its code point from that of zero. -/
theorem digit?_of_isDigit {c : Char} (h : isDigit c = true) :
    digit? c = some (c.toNat - '0'.toNat) := by
  rw [isDigit, digit?] at h
  rw [digit?]
  split at h
  · next hc => exact if_pos hc
  · simp at h

/-- The value of digits is the number that they spell in base ten. -/
theorem value_eq_ofDigitChars {ds : List Char} (hds : ∀ c ∈ ds, isDigit c = true) (n : Nat) :
    value n ds = Nat.ofDigitChars 10 ds n := by
  induction ds generalizing n with
  | nil => rfl
  | cons c ds ih =>
    have hstep : value n (c :: ds) = value (n * 10 + (c.toNat - '0'.toNat)) ds := by
      simp [value, digit?_of_isDigit (hds c (by simp))]
    rw [hstep, ih fun d hd => hds d (by simp [hd]), Nat.ofDigitChars_cons, Nat.mul_comm]

/-- The decimal digits of a number are read as that number. -/
theorem natural?_toDigits (n : Nat) : natural? (Nat.toDigits 10 n) = some n := by
  have hdigits : ∀ c ∈ Nat.toDigits 10 n, isDigit c = true := fun c => isDigit_of_mem_toDigits
  have hvalue : value 0 (Nat.toDigits 10 n) = n := by
    rw [value_eq_ofDigitChars hdigits, Nat.ofDigitChars_ten_toDigits]
  cases hcs : Nat.toDigits 10 n with
  | nil => exact absurd hcs Nat.toDigits_ne_nil
  | cons c cs =>
    rw [hcs] at hdigits hvalue
    have hrest : ∀ d ∈ cs, isDigit d = true := fun d hd => hdigits d (by simp [hd])
    have hall : cs.all (fun d => isDigit d || d == '_') = true :=
      List.all_eq_true.mpr fun d hd => by simp [hrest d hd]
    rw [natural?, hdigits c (by simp), hall, List.filter_eq_self.mpr hrest, hvalue]
    rfl

/-- The decimal text of an integer: digits, behind a minus if it is negative. -/
theorem toString_cases (i : Int) :
    ∃ n : Nat, i = n ∧ (toString i).toList = Nat.toDigits 10 n ∨
      i = -n ∧ (toString i).toList = '-' :: Nat.toDigits 10 n := by
  rw [Int.toString_eq_repr, Int.repr_eq_if]
  split
  · next h => exact ⟨i.toNat, .inl ⟨by omega, Nat.toList_repr⟩⟩
  · next h => exact ⟨(-i).toNat, .inr ⟨by omega, by simp [Nat.toList_repr]⟩⟩

/-- There is a first digit, even of zero. -/
theorem toDigits_eq_cons (n : Nat) :
    ∃ k < 10, ∃ cs, Nat.toDigits 10 n = Nat.digitChar k :: cs := by
  cases hcs : Nat.toDigits 10 n with
  | nil => exact absurd hcs Nat.toDigits_ne_nil
  | cons c cs =>
    obtain ⟨k, hk, rfl⟩ := mem_toDigits (by decide) (hcs ▸ List.mem_cons_self : c ∈ _)
    exact ⟨k, hk, cs, rfl⟩

/-- The text of an integer is read back as the integer. -/
theorem integer?_toString (i : Int) : integer? (toString i).toList = some i := by
  obtain ⟨n, ⟨hi, hn⟩ | ⟨hi, hn⟩⟩ := toString_cases i
  · have hsign : splitSign (Nat.toDigits 10 n) = (false, Nat.toDigits 10 n) := by
      obtain ⟨k, hk, cs, hcs⟩ := toDigits_eq_cons n
      rw [hcs]
      interval_cases k <;> rfl
    rw [hn, integer?, hsign, hi]
    simp [natural?_toDigits]
  · rw [hn, integer?, splitSign, hi]
    simp [natural?_toDigits]

theorem looksNumeric_toString (i : Int) : Token.looksNumeric (toString i).toList = true := by
  obtain ⟨n, ⟨-, hn⟩ | ⟨-, hn⟩⟩ := toString_cases i
  all_goals
    obtain ⟨k, hk, cs, hcs⟩ := toDigits_eq_cons n
    rw [hn, hcs]
    interval_cases k <;> rfl

/-- What holds of the minus and of the ten digits holds of every character of an integer. -/
theorem forall_mem_toString {P : Char → Prop} (hminus : P '-')
    (hdigit : ∀ k < 10, P (Nat.digitChar k)) (i : Int) : ∀ c ∈ (toString i).toList, P c := by
  intro c hc
  have hdigits : ∀ n, c ∈ Nat.toDigits 10 n → P c := by
    intro n h
    obtain ⟨k, hk, rfl⟩ := mem_toDigits (by decide) h
    exact hdigit k hk
  obtain ⟨n, ⟨-, hn⟩ | ⟨-, hn⟩⟩ := toString_cases i
  · exact hdigits n (hn ▸ hc)
  · rcases List.mem_cons.mp (hn ▸ hc) with rfl | h
    · exact hminus
    · exact hdigits n h

/-- The text of an integer is one atom. -/
theorem isAtom_toString (i : Int) : IsAtom (toString i).toList := by
  refine ⟨fun h => ?_, forall_mem_toString (by decide) (by decide) i⟩
  have hnum := looksNumeric_toString i
  rw [h] at hnum
  exact absurd hnum (by decide)

theorem ofAtom_toString (i : Int) :
    Lexeme.ofAtom (toString i).toList = .token (.number (toString i)) := by
  have hhash : (toString i).toList.head? ≠ some '#' := fun h =>
    forall_mem_toString (P := (· ≠ '#')) (by decide) (by decide) i _ (List.mem_of_head? h) rfl
  have hdot : (toString i).toList ≠ ['.'] := fun h =>
    forall_mem_toString (P := (· ≠ '.')) (by decide) (by decide) i '.' (by rw [h]; simp) rfl
  rw [Lexeme.ofAtom, if_neg hhash, Token.ofAtom, if_neg hdot, if_pos (looksNumeric_toString i),
    String.ofList_toList]

end Numeral

/-- The decimal text of an integer is a numeral of that integer. -/
theorem Datum.ofNumeral_toString (i : Int) : Datum.ofNumeral (toString i) = .ok (.int i) := by
  have habsent : ∀ c ∈ (toString i).toList, c ≠ '.' ∧ c ≠ 'e' ∧ c ≠ 'E' :=
    Numeral.forall_mem_toString (by decide) (by decide) i
  have hdot : (toString i).toList.contains '.' = false := by
    simpa using fun h => (habsent _ h).1 rfl
  have he : (toString i).toList.contains 'e' = false := by
    simpa using fun h => (habsent _ h).2.1 rfl
  have hE : (toString i).toList.contains 'E' = false := by
    simpa using fun h => (habsent _ h).2.2 rfl
  simp only [ofNumeral, hdot, he, hE, Bool.or_false, Bool.false_eq_true, if_false,
    Numeral.integer?_toString]

end Scheme
