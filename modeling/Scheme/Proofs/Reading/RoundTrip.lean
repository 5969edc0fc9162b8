import Scheme.Machine
import Scheme.Proofs.Reading.Spelling

/-!
# Writing and reading back

The written form of a value that was read is a spelling of its datum (`Denotes.writeOnto_eq`), so
it is read again, up to its end, whatever delimiter follows. The writer's escapes are not all
escapes of the reader: NUL is written as a backslash and a nought, which is read as a nought, and
a character without a shape is written by its code point, which is read as the letters of that
escape. `rereadChar` is what the reader makes of one written character.

`read_written` is the round trip: the value that comes back is `equal` to the one that was
written if and only if no string in it holds such a character (`Datum.Faithful`).
-/

namespace Scheme

open EvalM

/-! ## Values that are data -/

/-- The value is the datum, with some labels. -/
inductive Denotes : Value → Datum → Prop
  | int (i : Int) : Denotes (.int i) (.int i)
  | float (f : Float) : Denotes (.float f) (.float f)
  | bool (b : Bool) : Denotes (.bool b) (.bool b)
  | str (label : Label) (s : String) : Denotes (.str label s) (.str s)
  | sym (x : String) : Denotes (.sym x) (.sym x)
  | nil : Denotes .nil .nil
  | pair (label : Label) {v w : Value} {a d : Datum} :
    Denotes v a → Denotes w d → Denotes (.pair label v w) (.pair a d)

/-- Elements put in front of a tail denote the data put in front of the datum of the tail. -/
theorem denotes_consReversed {met : List Value} {ds : List Datum}
    (h : List.Forall₂ Denotes met ds) {tail : Value} {d : Datum} (ht : Denotes tail d)
    (m : Machine) :
    ∃ v i, consReversed tail met m = .ok v { m with nextLabel := i } ∧ Denotes v (d.chain ds) := by
  induction h generalizing tail d m with
  | nil => exact ⟨tail, m.nextLabel, rfl, ht⟩
  | cons ha _ ih => exact ih (.pair m.nextLabel ha ht) { m with nextLabel := m.nextLabel + 1 }

/-- The value made of a datum denotes it, also inside a list that has been begun. -/
theorem denotes_embedOnto (d : Datum) {met : List Value} {ds : List Datum}
    (h : List.Forall₂ Denotes met ds) (m : Machine) :
    ∃ v i, embedOnto met d m = .ok v { m with nextLabel := i } ∧ Denotes v (d.chain ds) := by
  induction d generalizing met ds m with
  | int i => exact denotes_consReversed h (.int i) m
  | float f => exact denotes_consReversed h (.float f) m
  | bool b => exact denotes_consReversed h (.bool b) m
  | str s => exact denotes_consReversed h (.str m.nextLabel s) { m with nextLabel := _ }
  | sym x => exact denotes_consReversed h (.sym x) m
  | nil => exact denotes_consReversed h .nil m
  | pair a d iha ihd =>
    obtain ⟨v, i, ha, hv⟩ := iha .nil m
    obtain ⟨w, j, hd, hw⟩ := ihd (.cons hv h) { m with nextLabel := i }
    refine ⟨w, j, ?_, hw⟩
    rw [← hd]
    simp only [embedOnto, bind, EStateM.bind, ha]

/-- A datum always becomes a value of itself. -/
theorem denotes_embed (d : Datum) (m : Machine) :
    ∃ v m', embed d m = .ok v m' ∧ Denotes v d := by
  obtain ⟨v, i, h, hv⟩ := denotes_embedOnto d .nil m
  exact ⟨v, _, h, hv⟩

/-- Values that are data without floats are `equal` when their data are the same. -/
theorem Denotes.equal_iff {v w : Value} {a d : Datum} (hv : Denotes v a) (hw : Denotes w d)
    (hf : a.FloatFree) : v.equal w = true ↔ a = d := by
  induction hv generalizing w d with
  | pair label _ _ iha ihd =>
    obtain ⟨hfa, hfd⟩ := Datum.floatFree_pair.mp hf
    cases hw with
    | pair label' hc hd => simp [Value.equal, iha hc hfa, ihd hd hfd]
    | _ => simp [Value.equal, Value.same]
  | float f => exact absurd (by simp [Datum.leaves]) (hf f)
  | _ => cases hw <;> simp [Value.equal, Value.same]

/-! ## The writer's quoting -/

namespace Text

/-- A character that comes back when it is written and read: it is not NUL, and the writer does
not give it by its code point. -/
def Survives (c : Char) : Prop := c ≠ '\x00' ∧ quotedChar c ≠ codePointEscape c

/-- What the reader makes of one character as the writer quotes it. -/
def rereadChar (c : Char) : List Char :=
  if c = '\x00' then ['0']
  else if quotedChar c = codePointEscape c then (codePointEscape c).tail
  else [c]

theorem rereadChar_of_survives {c : Char} (h : Survives c) : rereadChar c = [c] := by
  rw [rereadChar, if_neg h.1, if_neg h.2]

/-- A character that survives is written behind a backslash from which the reader gets it, or as
it is. -/
theorem Survives.quotedChar_cases {c : Char} (h : Survives c) :
    (∃ e, quotedChar c = ['\\', e] ∧ Lexeme.unescape e = c) ∨
      quotedChar c = [c] ∧ c ≠ '"' ∧ c ≠ '\\' := by
  by_cases h1 : c = '"'
  · exact .inl ⟨'"', by rw [h1]; decide, by rw [h1]; decide⟩
  by_cases h2 : c = '\\'
  · exact .inl ⟨'\\', by rw [h2]; decide, by rw [h2]; decide⟩
  by_cases h3 : c = '\n'
  · exact .inl ⟨'n', by rw [h3]; decide, by rw [h3]; decide⟩
  by_cases h4 : c = '\t'
  · exact .inl ⟨'t', by rw [h4]; decide, by rw [h4]; decide⟩
  by_cases h5 : c = '\r'
  · exact .inl ⟨'r', by rw [h5]; decide, by rw [h5]; decide⟩
  have hquoted : quotedChar c = if isPrintable c then [c] else codePointEscape c := by
    rw [quotedChar, if_neg h1, if_neg h2, if_neg h3, if_neg h4, if_neg h5, if_neg h.1]
  split at hquoted
  · exact .inr ⟨hquoted, h1, h2⟩
  · exact absurd hquoted h.2

/-- The reader takes nothing in a code point escape for an escape but its first letter, which it
leaves as it is. -/
theorem stringBody_codePointEscape (c : Char) (read cs : List Char) :
    Lexeme.stringBody read (codePointEscape c ++ cs) =
      Lexeme.stringBody ((codePointEscape c).tail.reverse ++ read) cs := by
  have hdigit : ∀ k < 16, Nat.digitChar k ≠ '"' ∧ Nat.digitChar k ≠ '\\' := by decide
  have hplain : ∀ d ∈ '\x7b' :: (Nat.toDigits 16 c.toNat ++ ['\x7d']), d ≠ '"' ∧ d ≠ '\\' := by
    intro d hd
    simp only [List.mem_cons, List.mem_append, List.not_mem_nil, or_false] at hd
    rcases hd with rfl | hd | rfl
    · decide
    · obtain ⟨k, hk, rfl⟩ := Numeral.mem_toDigits (by decide) hd
      exact hdigit k hk
    · decide
  have hu : Lexeme.unescape 'u' = 'u' := by decide
  rw [codePointEscape, List.tail_cons, List.cons_append, List.cons_append,
    Lexeme.stringBody_escape, hu, Lexeme.stringBody_plain_append hplain]
  simp

/-- A quoted character is read as the characters that come back for it. -/
theorem stringBody_quotedChar (c : Char) (read cs : List Char) :
    Lexeme.stringBody read (quotedChar c ++ cs) =
      Lexeme.stringBody ((rereadChar c).reverse ++ read) cs := by
  by_cases h0 : c = '\x00'
  · subst h0
    exact Lexeme.stringBody_escape read '0' cs
  by_cases hesc : quotedChar c = codePointEscape c
  · rw [rereadChar, if_neg h0, if_pos hesc, hesc, stringBody_codePointEscape]
  · rw [rereadChar_of_survives ⟨h0, hesc⟩]
    obtain ⟨e, he, hc⟩ | ⟨he, hq, hb⟩ := Survives.quotedChar_cases ⟨h0, hesc⟩
    · rw [he, ← hc]
      exact Lexeme.stringBody_escape read e cs
    · rw [he]
      exact Lexeme.stringBody_plain hq hb read cs

theorem stringBody_quotedChars (cs read r : List Char) :
    Lexeme.stringBody read (quotedChars cs ++ r) =
      Lexeme.stringBody ((cs.flatMap rereadChar).reverse ++ read) r := by
  induction cs generalizing read with
  | nil => rfl
  | cons c cs ih =>
    rw [quotedChars_cons, List.append_assoc, stringBody_quotedChar, ih, List.flatMap_cons,
      List.reverse_append, List.append_assoc]

/-! ## The strings that come back -/

/-- A character comes back as a zero digit, as several characters, or as itself. -/
theorem rereadChar_cases (c : Char) :
    c = '\x00' ∧ rereadChar c = ['0'] ∨ 1 < (rereadChar c).length ∨
      Survives c ∧ rereadChar c = [c] := by
  by_cases h0 : c = '\x00'
  · exact .inl ⟨h0, by rw [rereadChar, if_pos h0]⟩
  by_cases hesc : quotedChar c = codePointEscape c
  · refine .inr (.inl ?_)
    rw [rereadChar, if_neg h0, if_pos hesc, codePointEscape]
    simp
  · exact .inr (.inr ⟨⟨h0, hesc⟩, rereadChar_of_survives ⟨h0, hesc⟩⟩)

/-- No quoted text comes back shorter. -/
theorem length_le_reread (cs : List Char) : cs.length ≤ (cs.flatMap rereadChar).length := by
  induction cs with
  | nil => simp
  | cons c cs ih =>
    have hpos : 1 ≤ (rereadChar c).length := by
      obtain ⟨-, h⟩ | h | ⟨-, h⟩ := rereadChar_cases c
      · simp [h]
      · omega
      · simp [h]
    simp only [List.flatMap_cons, List.length_append, List.length_cons]
    omega

/-- A text comes back exactly when all its characters do: one that the writer gives by its code
point makes it longer, and NUL turns into another character. -/
theorem reread_eq_self {cs : List Char} :
    cs.flatMap rereadChar = cs ↔ ∀ c ∈ cs, Survives c := by
  induction cs with
  | nil => simp
  | cons c cs ih =>
    rw [List.flatMap_cons, List.forall_mem_cons, ← ih]
    obtain ⟨rfl, h⟩ | h | ⟨hs, h⟩ := rereadChar_cases c
    · simp [h, Survives]
    · have hlen := length_le_reread cs
      constructor
      · intro heq
        have := congrArg List.length heq
        simp only [List.length_append, List.length_cons] at this
        omega
      · rintro ⟨hs, -⟩
        simp [rereadChar_of_survives hs] at h
    · simp [h, hs]

end Text

/-- The quoting of the written form. -/
def Quoting.written : Quoting where
  chars s := Text.quotedChars s.toList
  meaning s := String.ofList (s.toList.flatMap Text.rereadChar)
  stringBody_chars s r := by
    rw [Text.stringBody_quotedChars, Lexeme.stringBody_quote]
    simp

theorem Place.put_toList (acc text : String) (place : Place) :
    (place.put acc text).toList = acc.toList ++ place.enclose text.toList := by
  cases place <;> simp [put, start, finish, enclose]

/-- The writer spells the datum that the value is. -/
theorem Denotes.writeOnto_eq {v : Value} {d : Datum} (h : Denotes v d)
    (frameText : FrameId → String) (place : Place) (acc : String) :
    (v.writeOnto frameText true place acc).toList =
      acc.toList ++ d.spell Quoting.written place := by
  induction h generalizing place acc with
  | str label s =>
    rw [Value.writeOnto, Place.put_toList]
    simp [Datum.spell, Text.quoted, Quoting.written]
  | nil => cases place <;> simp [Value.writeOnto, Datum.spell]
  | pair label _ _ iha ihd => cases place <;> simp [Value.writeOnto, Datum.spell, iha, ihd]
  | _ => rw [Value.writeOnto, Place.put_toList]; rfl

/-! ## The round trip -/

/-- A datum whose strings hold only characters that come back. -/
def Datum.Faithful (d : Datum) : Prop := ∀ s, .str s ∈ d.leaves → ∀ c ∈ s.toList, Text.Survives c

/-- A datum comes back unchanged if and only if all characters of its strings survive. -/
theorem Datum.mapStrings_written_eq_self {d : Datum} :
    d.mapStrings Quoting.written.meaning = d ↔ d.Faithful := by
  have hmeaning : ∀ s, Quoting.written.meaning s = s ↔ ∀ c ∈ s.toList, Text.Survives c := by
    intro s
    rw [← Text.reread_eq_self, ← String.toList_inj]
    simp [Quoting.written]
  simp only [mapStrings_eq_self, hmeaning, Faithful]

theorem Datum.FloatFree.mapStrings {d : Datum} (h : d.FloatFree) (g : String → String) :
    (d.mapStrings g).FloatFree := by
  induction d with
  | pair a d iha ihd =>
    obtain ⟨ha, hd⟩ := floatFree_pair.mp h
    exact floatFree_pair.mpr ⟨iha ha, ihd hd⟩
  | str s => simp [FloatFree, Datum.mapStrings, leaves]
  | _ => exact h

/-- The data without floats that can be read are those with proper names. Such a datum, made a
value and written in front of a delimiter, is read up to exactly there, and what is read is
`equal` to what was written if and only if its strings hold only characters that come back. -/
theorem read_written {d : Datum} (hf : d.FloatFree) :
    (d.Readable ↔ d.WellNamed) ∧
    (d.Readable → ∀ m, ∃ v m₁, embed d m = .ok v m₁ ∧ ∀ frameText r, Delimited r →
      ∃ d', Datum.read ((v.written frameText).toList ++ r) = (.ok d', r) ∧
        ∀ m', ∃ v' m₁', embed d' m' = .ok v' m₁' ∧ (v'.equal v = true ↔ d.Faithful)) := by
  refine ⟨Datum.readable_iff hf, fun hd m => ?_⟩
  have hn : d.WellNamed := (Datum.readable_iff hf).mp hd
  obtain ⟨v, m₁, hembed, hv⟩ := denotes_embed d m
  refine ⟨v, m₁, hembed, fun frameText r hr => ⟨d.mapStrings Quoting.written.meaning, ?_, ?_⟩⟩
  · have htext : (v.written frameText).toList = d.spell Quoting.written .alone := by
      simpa [Value.written] using hv.writeOnto_eq frameText .alone ""
    rw [htext, Datum.read_spell Quoting.written hf hn hr]
  · intro m'
    obtain ⟨v', m₁', hembed', hv'⟩ := denotes_embed (d.mapStrings Quoting.written.meaning) m'
    refine ⟨v', m₁', hembed', ?_⟩
    rw [hv'.equal_iff hv (hf.mapStrings _), Datum.mapStrings_written_eq_self]

/-- A dotted list with an escape character in a string is read back, but as another value. -/
theorem read_written_dotted :
    let d : Datum := .pair (.sym "a") (.pair (.str "\x1b\"") (.int (-12)))
    d.FloatFree ∧ d.Readable ∧ ∀ m, ∃ v m₁, embed d m = .ok v m₁ ∧ ∃ d',
      Datum.read ((v.written fun _ => "").toList ++ [')']) = (.ok d', [')']) ∧
        ∀ m', ∃ v' m₁', embed d' m' = .ok v' m₁' ∧ v'.equal v = false := by
  intro d
  have hf : d.FloatFree := by simp [d, Datum.FloatFree, Datum.leaves]
  obtain ⟨hread, hback⟩ := read_written hf
  have ha : IsName "a" :=
    ⟨.of_all (by decide) (by decide), by decide, by decide, by decide, by decide, by decide,
      by decide⟩
  have hd : d.Readable := hread.mpr (by simpa [d, Datum.WellNamed, Datum.leaves] using ha)
  have hlost : ¬ d.Faithful := fun h =>
    (h "\x1b\"" (by simp [d, Datum.leaves]) '\x1b' (by decide)).2 (by decide)
  refine ⟨hf, hd, fun m => ?_⟩
  obtain ⟨v, m₁, hembed, hv⟩ := hback hd m
  obtain ⟨d', hd', hagain⟩ := hv (fun _ => "") [')'] (Delimited.cons (by decide) [])
  refine ⟨v, m₁, hembed, d', hd', fun m' => ?_⟩
  obtain ⟨v', m₁', hembed', hequal⟩ := hagain m'
  exact ⟨v', m₁', hembed', by simpa [hlost] using hequal⟩

end Scheme
