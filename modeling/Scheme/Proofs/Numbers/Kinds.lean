import Scheme.Proofs.Numbers.Shortest
import Scheme.Proofs.Reading.RoundTrip

/-!
# The texts of numbers, read back

The reader takes a numeral for a double if there is a point in it, and for an integer otherwise. The
writer always puts an integer in digits alone. A double gets a point if it is below `10^16`: a whole
number by rule, and any other because its shortest decimal has digits behind the point
(`Decimal.exponent_neg_of_not_whole`). A whole number from `10^16` on is written in digits alone and
comes back as an integer.

So a number keeps its kind if and only if it is no such double: `numbers_keep_kind`.
-/

namespace Scheme

/-! ## Numerals -/

namespace Numeral

/-- Decimal digits only. -/
def IsDigits (ds : List Char) : Prop := ∀ c ∈ ds, ∃ k < 10, c = Nat.digitChar k

theorem isDigits_toDigits (n : Nat) : IsDigits (Nat.toDigits 10 n) :=
  fun _ hc => mem_toDigits (by decide) hc

theorem isDigits_zeros (n : Nat) : IsDigits (List.replicate n '0') :=
  fun _ hc => ⟨0, by decide, List.eq_of_mem_replicate hc⟩

namespace IsDigits

variable {ds ds' : List Char}

theorem append (h : IsDigits ds) (h' : IsDigits ds') : IsDigits (ds ++ ds') :=
  fun c hc => (List.mem_append.mp hc).elim (h c) (h' c)

theorem take (h : IsDigits ds) (n : Nat) : IsDigits (ds.take n) :=
  fun c hc => h c (List.mem_of_mem_take hc)

theorem drop (h : IsDigits ds) (n : Nat) : IsDigits (ds.drop n) :=
  fun c hc => h c (List.mem_of_mem_drop hc)

/-- What holds of the ten digits holds of every character. -/
theorem forall_mem (h : IsDigits ds) {P : Char → Prop} (hP : ∀ k < 10, P (Nat.digitChar k)) :
    ∀ c ∈ ds, P c := by
  intro c hc
  obtain ⟨k, hk, rfl⟩ := h c hc
  exact hP k hk

theorem isDigit (h : IsDigits ds) : ∀ c ∈ ds, isDigit c = true := h.forall_mem (by decide)

theorem exists_cons (h : IsDigits ds) (hne : ds ≠ []) :
    ∃ k < 10, ∃ rest, ds = Nat.digitChar k :: rest := by
  obtain ⟨c, rest, rfl⟩ := List.exists_cons_of_ne_nil hne
  obtain ⟨k, hk, rfl⟩ := h c List.mem_cons_self
  exact ⟨k, hk, rest, rfl⟩

end IsDigits

/-- A minus, if there is one. -/
def signChars (negative : Bool) : List Char := if negative then ['-'] else []

/-- What holds of the minus and of all characters behind it holds of the signed text. -/
theorem forall_mem_signed {P : Char → Prop} (hminus : P '-') {cs : List Char} (h : ∀ c ∈ cs, P c)
    (negative : Bool) : ∀ c ∈ signChars negative ++ cs, P c := by
  refine List.forall_mem_append.mpr ⟨?_, h⟩
  cases negative with
  | true => exact List.forall_mem_singleton.mpr hminus
  | false => exact List.forall_mem_nil _

/-- What is left of a numeral behind its sign: it starts with a digit, and the characters are those
of numerals. -/
structure Unsigned (cs : List Char) : Prop where
  starts : ∃ k < 10, ∃ rest, cs = Nat.digitChar k :: rest
  plain : ∀ c ∈ cs, Token.isDelimiter c = false

namespace Unsigned

variable {cs : List Char} (h : Unsigned cs) (negative : Bool)

include h

/-- The reader finds the sign and what is behind it. -/
theorem splitSign_eq : splitSign (signChars negative ++ cs) = (negative, cs) := by
  obtain ⟨k, hk, rest, rfl⟩ := h.starts
  cases negative with
  | true => rfl
  | false => interval_cases k <;> rfl

/-- A signed numeral looks like a number to the reader. -/
theorem looksNumeric : Token.looksNumeric (signChars negative ++ cs) = true := by
  obtain ⟨k, hk, rest, rfl⟩ := h.starts
  cases negative <;> interval_cases k <;> rfl

/-- A signed numeral is an atom: no character in it ends one. -/
theorem isAtom : IsAtom (signChars negative ++ cs) := by
  refine ⟨fun hnil => ?_, forall_mem_signed (by decide) h.plain negative⟩
  have hnum := h.looksNumeric negative
  rw [hnil] at hnum
  exact absurd hnum (by decide)

/-- A signed numeral is read as a token for a number, with the text it was written in. -/
theorem ofAtom_eq : Lexeme.ofAtom (signChars negative ++ cs) =
    .token (.number (String.ofList (signChars negative ++ cs))) := by
  have hhead : (signChars negative ++ cs).head? ≠ some '#' ∧ signChars negative ++ cs ≠ ['.'] := by
    obtain ⟨k, hk, rest, rfl⟩ := h.starts
    cases negative with
    | true => exact ⟨by simp [signChars], by simp [signChars]⟩
    | false => interval_cases k <;> exact ⟨by simp [signChars], by simp [signChars]⟩
  rw [Lexeme.ofAtom, if_neg hhead.1, Token.ofAtom, if_neg hhead.2, if_pos (h.looksNumeric negative)]

/-- A numeral is one token, and it is read as the number that it spells. -/
theorem spells {d : Datum}
    (hd : Datum.ofNumeral (String.ofList (signChars negative ++ cs)) = .ok d) :
    Spells (signChars negative ++ cs) d := by
  refine spells_of_next (t := .number (String.ofList (signChars negative ++ cs)))
    (fun r hr => ?_) fun stack => ?_
  · rw [Lexeme.next_atom (h.isAtom negative) hr, h.ofAtom_eq]
  · rw [Progress.begin, hd]
    rfl

end Unsigned

theorem IsDigits.unsigned {ds : List Char} (h : IsDigits ds) (hne : ds ≠ []) : Unsigned ds :=
  ⟨h.exists_cons hne, h.forall_mem (by decide)⟩

/-- Digits with a point behind the first of them are a numeral without a sign. -/
theorem unsigned_point {front back : List Char} (hf : IsDigits front) (hne : front ≠ [])
    (hb : IsDigits back) : Unsigned (front ++ '.' :: back) := by
  obtain ⟨k, hk, rest, hrest⟩ := hf.exists_cons hne
  refine ⟨⟨k, hk, rest ++ '.' :: back, by rw [hrest, List.cons_append]⟩, ?_⟩
  refine List.forall_mem_append.mpr ⟨hf.forall_mem (by decide), List.forall_mem_cons.mpr ⟨?_, ?_⟩⟩
  · decide
  · exact hb.forall_mem (by decide)

theorem IsDigits.exists_natural {ds : List Char} (h : IsDigits ds) (hne : ds ≠ []) :
    ∃ n, natural? ds = some n := by
  obtain ⟨c, rest, rfl⟩ := List.exists_cons_of_ne_nil hne
  obtain ⟨hc, hrest⟩ := List.forall_mem_cons.mp h.isDigit
  have hall : rest.all (fun d => Numeral.isDigit d || d == '_') = true :=
    List.all_eq_true.mpr fun d hd => by simp [hrest d hd]
  exact ⟨_, by rw [natural?, hc, hall]; rfl⟩

/-- Digits are read as an integer. -/
theorem spells_digits (negative : Bool) {ds : List Char} (h : IsDigits ds) (hne : ds ≠ []) :
    ∃ i, Spells (signChars negative ++ ds) (.int i) := by
  have hunsigned := h.unsigned hne
  obtain ⟨n, hn⟩ := h.exists_natural hne
  have hinteger : ∃ i, integer? (signChars negative ++ ds) = some i := by
    rw [integer?, hunsigned.splitSign_eq]
    cases negative with
    | true => exact ⟨-n, by simp [hn]⟩
    | false => exact ⟨n, by simp [hn]⟩
  obtain ⟨i, hi⟩ := hinteger
  -- A point or an exponent would make it a double.
  have habsent {c : Char} (hminus : '-' ≠ c) (hdigit : ∀ k < 10, Nat.digitChar k ≠ c) :
      (signChars negative ++ ds).contains c = false := by
    have hother : ∀ d ∈ signChars negative ++ ds, d ≠ c :=
      forall_mem_signed hminus (h.forall_mem hdigit) negative
    rw [Bool.eq_false_iff]
    exact fun hmem => hother c (List.contains_iff_mem.mp hmem) rfl
  refine ⟨i, hunsigned.spells negative ?_⟩
  simp only [Datum.ofNumeral, String.toList_ofList, habsent (c := '.') (by decide) (by decide),
    habsent (c := 'e') (by decide) (by decide), habsent (c := 'E') (by decide) (by decide), hi,
    Bool.or_false, Bool.false_eq_true, if_false]

/-- Digits with a point among them are read as a double. -/
theorem spells_point (negative : Bool) {front back : List Char} (hf : IsDigits front)
    (hne : front ≠ []) (hb : IsDigits back) :
    ∃ f, Spells (signChars negative ++ (front ++ '.' :: back)) (.float f) := by
  have hunsigned := unsigned_point hf hne hb
  have hpoint : Numeral.isDigit '.' = false := by decide
  have htake : (front ++ '.' :: back).takeWhile Numeral.isDigit = front := by
    rw [List.takeWhile_append_of_pos hf.isDigit, List.takeWhile_cons_of_neg (by simp [hpoint]),
      List.append_nil]
  have hdrop : (front ++ '.' :: back).dropWhile Numeral.isDigit = '.' :: back := by
    rw [List.dropWhile_append_of_pos hf.isDigit, List.dropWhile_cons_of_neg (by simp [hpoint])]
  have hback : fraction ('.' :: back) = (back, []) := by
    rw [fraction, List.takeWhile_eq_self_iff.mpr hb.isDigit,
      List.dropWhile_eq_nil_iff.mpr hb.isDigit]
  have hdecimal : ∃ f, decimal? (signChars negative ++ (front ++ '.' :: back)) = some f := by
    simp only [decimal?, hunsigned.splitSign_eq, htake, hdrop, hback, power?,
      List.isEmpty_eq_false_iff.mpr hne, Bool.false_and, Bool.false_eq_true, if_false]
    exact ⟨_, rfl⟩
  obtain ⟨f, hf⟩ := hdecimal
  refine ⟨f, hunsigned.spells negative ?_⟩
  have hmem : (signChars negative ++ (front ++ '.' :: back)).contains '.' = true := by simp
  simp only [Datum.ofNumeral, String.toList_ofList, hmem, hf, Bool.true_or, if_true]

end Numeral

open Numeral

/-! ## The texts of doubles -/

/-- A decimal with no places behind the point is written in digits alone. -/
theorem Decimal.text_of_nonneg {d : Decimal} (h : 0 ≤ d.exponent) :
    ∃ ds, IsDigits ds ∧ ds ≠ [] ∧ d.text.toList = ds := by
  rw [text, if_pos h, String.toList_ofList]
  exact ⟨_, (isDigits_toDigits _).append (isDigits_zeros _), by simp [Nat.toDigits_ne_nil], rfl⟩

/-- A decimal with places behind the point is written with digits on either side of it. -/
theorem Decimal.text_of_neg {d : Decimal} (h : d.exponent < 0) :
    ∃ front back, IsDigits front ∧ front ≠ [] ∧ IsDigits back ∧
      d.text.toList = front ++ '.' :: back := by
  rw [text, if_neg (Int.not_le.mpr h)]
  dsimp only
  split
  · next hplaces =>
    rw [String.toList_ofList]
    refine ⟨_, _, (isDigits_toDigits _).take _, fun hnil => ?_, (isDigits_toDigits _).drop _, rfl⟩
    have hlength := congrArg List.length hnil
    rw [List.length_take, List.length_nil] at hlength
    omega
  · rw [String.toList_ofList]
    exact ⟨['0'], _, isDigits_zeros 1, by simp, (isDigits_zeros _).append (isDigits_toDigits _),
      rfl⟩

namespace Double

/-- Neither infinite nor a NaN. -/
def isFinite : Double → Bool
  | finite .. => true
  | _ => false

/-- A whole number that is written without a point. -/
def isLargeWhole (d : Double) : Bool := d.whole?.any (oneDecimalBound ≤ ·)

/-- A finite double has a mantissa of 53 bits, and an exponent not below the smallest. -/
theorem bounds_of_view {f : Float} {negative : Bool} {m : Nat} {e : Int}
    (h : view f = finite negative m e) : m < 2 * leadingBit ∧ -1074 ≤ e := by
  have hfraction : f.toBits.toNat % leadingBit < leadingBit := Nat.mod_lt _ (by decide)
  unfold view at h
  dsimp only at h
  split at h
  · split at h <;> cases h
  · split at h
    · cases h
      exact ⟨by omega, le_rfl⟩
    · cases h
      exact ⟨by omega, by omega⟩

theorem signText_toList (negative : Bool) : (signText negative).toList = signChars negative := by
  cases negative <;> rfl

/-- The plain text is a sign and the shortest decimal without zeros at its end. -/
theorem plainText_toList (negative : Bool) {m : Nat} (hm : m ≠ 0) (e : Int) :
    (finite negative m e).plainText.toList =
      signChars negative ++ ((Decimal.shortest m e).trimmed 17).text.toList := by
  rw [plainText, if_neg hm, String.toList_append, signText_toList]

/-- A whole number below the bound is written with a point and a zero. -/
theorem text_of_whole_lt {negative : Bool} {m n : Nat} {e : Int}
    (h : (finite negative m e).whole? = some n) (hn : n < oneDecimalBound) :
    (finite negative m e).text.toList =
      signChars negative ++ (Nat.toDigits 10 n ++ '.' :: ['0']) := by
  have htext : (finite negative m e).text = signText negative ++ Nat.repr n ++ ".0" := by
    simp only [text, h, hn, if_true]
  rw [htext, String.toList_append, String.toList_append, signText_toList, Nat.toList_repr,
    List.append_assoc]
  rfl

/-- A whole number from the bound on is written without them. -/
theorem text_of_whole_ge {negative : Bool} {m n : Nat} {e : Int}
    (h : (finite negative m e).whole? = some n) (hn : oneDecimalBound ≤ n) :
    (finite negative m e).text = (finite negative m e).plainText := by
  simp only [text, h, Nat.not_lt.mpr hn, if_false]

/-- What is no whole number is written as its shortest decimal. -/
theorem text_of_not_whole {negative : Bool} {m : Nat} {e : Int}
    (h : (finite negative m e).whole? = none) :
    (finite negative m e).text = (finite negative m e).plainText := by
  simp only [text, h]

theorem whole?_zero (negative : Bool) (e : Int) : (finite negative 0 e).whole? = some 0 := by
  simp [whole?]

/-- The text of a finite double is read as a number: as an integer if the double is a whole number
from `10^16` on, and as a double otherwise. -/
theorem spells_text {f : Float} (hf : (view f).isFinite = true) :
    ∃ d, Spells (view f).text.toList d ∧
      if (view f).isLargeWhole = true then ∃ i, d = .int i else ∃ g, d = .float g := by
  cases hview : view f with
  | infinite | nan => simp [hview, isFinite] at hf
  | finite negative m e =>
    obtain ⟨hlt, hlow⟩ := bounds_of_view hview
    have hpoint : ∀ {d : Decimal}, d.exponent < 0 →
        ∃ g, Spells (signChars negative ++ d.text.toList) (.float g) := by
      intro d hd
      obtain ⟨front, back, hfront, hne, hback, htext⟩ := Decimal.text_of_neg hd
      exact htext ▸ spells_point negative hfront hne hback
    cases hwhole : (finite negative m e).whole? with
    | none =>
      have hm : m ≠ 0 := by
        rintro rfl
        simp [whole?_zero] at hwhole
      obtain ⟨g, hg⟩ := hpoint (Decimal.exponent_neg_of_not_whole hlt hlow hwhole)
      refine ⟨.float g, ?_, by simp [isLargeWhole, hwhole]⟩
      rwa [text_of_not_whole hwhole, plainText_toList negative hm]
    | some n =>
      rcases Nat.lt_or_ge n oneDecimalBound with hn | hn
      · obtain ⟨g, hg⟩ := spells_point negative (isDigits_toDigits n) Nat.toDigits_ne_nil
          (isDigits_zeros 1)
        refine ⟨.float g, ?_, by simp [isLargeWhole, hwhole, hn]⟩
        rw [text_of_whole_lt hwhole hn]
        exact hg
      · have hm : m ≠ 0 := by
          rintro rfl
          rw [whole?_zero] at hwhole
          obtain rfl := Option.some.inj hwhole
          exact absurd hn (by decide)
        obtain ⟨ds, hds, hne, htext⟩ :=
          Decimal.text_of_nonneg (Decimal.exponent_nonneg_of_large hlt hlow hwhole hn)
        obtain ⟨i, hi⟩ := spells_digits negative hds hne
        refine ⟨.int i, ?_, by simp [isLargeWhole, hwhole, hn]⟩
        rw [text_of_whole_ge hwhole hn, plainText_toList negative hm, htext]
        exact hi

end Double

/-! ## Numbers -/

/-- An integer or a finite double. -/
def Value.isFiniteNumber : Value → Bool
  | .int _ => true
  | .float f => (Double.view f).isFinite
  | _ => false

/-- The value and the datum are integers, or they are doubles. -/
inductive SameKind : Value → Datum → Prop
  | int (i j : Int) : SameKind (.int i) (.int j)
  | float (f g : Float) : SameKind (.float f) (.float g)

theorem Spells.read_eq {text : List Char} {d : Datum} (h : Spells text d) :
    Datum.read text = (.ok d, []) := by
  have hread := h [] [] (fun _ _ _ hs => by cases hs) .nil
  rwa [List.append_nil] at hread

theorem Value.written_toList {v : Value} (text : String) {t : FrameId → String}
    (h : v.writeOnto t true .alone "" = Place.put "" text .alone) :
    (v.written t).toList = text.toList := by
  rw [written, h, Place.put_toList]
  rfl

/-- The written form of an integer or of a finite double is read, to its end, as a number. An
integer comes back as itself. A double comes back as a double if and only if it is no whole number
from `10^16` on, and otherwise as an integer. -/
theorem numbers_keep_kind {v : Value} (hv : v.isFiniteNumber = true) (t : FrameId → String) :
    ∃ d, Datum.read (v.written t).toList = (.ok d, []) ∧
      (∀ i, v = .int i → d = .int i) ∧
      (∀ f, v = .float f → (∃ i, d = .int i) ∨ ∃ g, d = .float g) ∧
      (SameKind v d ↔ ∀ f, v = .float f → (Double.view f).isLargeWhole = false) := by
  cases v with
  | int i =>
    refine ⟨.int i, ?_, by simp, by simp, iff_of_true (.int i i) (by simp)⟩
    rw [Value.written_toList (toString i) rfl]
    exact (spells_int i).read_eq
  | float f =>
    obtain ⟨d, hd, hkind⟩ := Double.spells_text hv
    refine ⟨d, ?_, by simp, ?_, ?_⟩
    · rw [Value.written_toList (Double.view f).text rfl]
      exact hd.read_eq
    · intro g hg
      split at hkind
      · exact .inl hkind
      · exact .inr hkind
    · split at hkind
      · next hlarge =>
        obtain ⟨i, rfl⟩ := hkind
        refine iff_of_false (fun h => by cases h) fun h => ?_
        simp [hlarge] at h
      · next hlarge =>
        obtain ⟨g, rfl⟩ := hkind
        refine iff_of_true (.float f g) ?_
        simpa using hlarge
  | _ => cases hv

/-- The largest double below `10^16` comes back as a double. -/
theorem numbers_keep_kind_below :
    let v : Value := .float (Float.ofBits 0x4341C37937E07FFF)
    v.isFiniteNumber = true ∧ v.written (fun _ => "") = "9999999999999998.0" ∧
      ∃ d, Datum.read (v.written fun _ => "").toList = (.ok d, []) ∧ SameKind v d := by
  intro v
  have hfinite : v.isFiniteNumber = true := by decide +kernel
  have hsmall : (Double.view (Float.ofBits 0x4341C37937E07FFF)).isLargeWhole = false := by
    decide +kernel
  obtain ⟨d, hread, -, -, hkind⟩ := numbers_keep_kind hfinite fun _ => ""
  refine ⟨hfinite, by decide +kernel, d, hread, hkind.mpr fun f hf => ?_⟩
  exact Value.float.inj hf ▸ hsmall

/-- The double `10^16` is written without a point, so it comes back as an integer. -/
theorem large_double_read_as_integer :
    let v : Value := .float (Float.ofBits 0x4341C37937E08000)
    v.isFiniteNumber = true ∧
      Datum.read (v.written fun _ => "").toList = (.ok (.int 10000000000000000), []) ∧
      ¬∃ d, Datum.read (v.written fun _ => "").toList = (.ok d, []) ∧ SameKind v d := by
  intro v
  have hwritten : v.written (fun _ => "") = toString (10000000000000000 : Int) := by decide +kernel
  have hread : Datum.read (v.written fun _ => "").toList = (.ok (.int 10000000000000000), []) := by
    rw [hwritten]
    exact (spells_int _).read_eq
  refine ⟨by decide +kernel, hread, ?_⟩
  rintro ⟨d, hd, hkind⟩
  rw [hread] at hd
  cases hd
  change SameKind (.float _) (.int _) at hkind
  cases hkind

end Scheme
