import Scheme.Proofs.Reading.Lexical
import Scheme.Value.Writer

/-!
# Spelling and reading data

`Datum.spell` is the text of a datum, for any way `Quoting` of putting a string between quotes
from which the reader gets some string back. Reading such a text in front of a delimiter gives
the datum with its strings as the quoting has them read, and leaves exactly what follows
(`Datum.read_spell`).

The symbols that can be read are the `IsName`s. `Datum.readable_iff` says that a datum without
floats is the answer of some reading if and only if all its symbols are such names: a datum that
is read is built from tokens (`Datum.wellNamed_of_read`), and one with proper names is read from
its own spelling.
-/

namespace Scheme

/-! ## Readings -/

/-- What a reading comes to that has made some progress and has `r` in front of it. -/
def Progress.resume : Progress → List Char → Reading
  | .done d, r => (.ok d, r)
  | .more stack, r => Datum.readWithin stack r

namespace Datum

/-- One step of a reading: the next lexeme decides. -/
theorem readWithin_eq (stack : List OpenExpr) (cs : List Char) :
    readWithin stack cs =
      match Lexeme.next cs with
      | (.finished, rest) => (.error (if stack.isEmpty then .finished else .incomplete), rest)
      | (.unclosed, rest) => (.error .incomplete, rest)
      | (.invalid text, rest) => (.error (.misspelt (.invalidToken text)), rest)
      | (.token t, rest) =>
        match Progress.feed t stack with
        | .error m => (.error (.misspelt m), rest)
        | .ok p => p.resume rest := by
  rw [readWithin]
  split <;> rename_i h <;> simp only [h]
  split <;> rename_i hf <;> simp only [hf, Progress.resume]

/-- A token takes the reading one state on. -/
theorem readWithin_token {stack : List OpenExpr} {cs rest : List Char} {t : Token} {p : Progress}
    (h : Lexeme.next cs = (.token t, rest)) (hf : Progress.feed t stack = .ok p) :
    readWithin stack cs = p.resume rest := by
  rw [readWithin_eq, h]
  simp only [hf]

theorem readWithin_blank {c : Char} (hc : Text.isBlank c = true) (stack : List OpenExpr)
    (cs : List Char) : readWithin stack (c :: cs) = readWithin stack cs := by
  rw [readWithin_eq, Lexeme.next_blank hc, ← readWithin_eq]

end Datum

/-! ## Quotings -/

/-- A way to put a string between quotes that the reader can take: the text between the quotes,
and the string that is read from it. -/
structure Quoting where
  chars : String → List Char
  meaning : String → String
  stringBody_chars : ∀ s r,
    Lexeme.stringBody [] (chars s ++ '"' :: r) = some ((meaning s).toList, r)

namespace Quoting

variable (q : Quoting)

/-- A string in quotes is one token. -/
theorem next_quoted (s : String) (r : List Char) :
    Lexeme.next ('"' :: (q.chars s ++ '"' :: r)) = (.token (.string (q.meaning s)), r) := by
  rw [Lexeme.next_string (q.stringBody_chars s r), String.ofList_toList]

/-- One character between quotes, with a backslash in front of those that need it. -/
def literalChar (c : Char) : List Char := if c = '"' ∨ c = '\\' then ['\\', c] else [c]

/-- A character between quotes is read as itself, with the backslash that it may need. -/
theorem stringBody_literalChar (c : Char) (read cs : List Char) :
    Lexeme.stringBody read (literalChar c ++ cs) = Lexeme.stringBody (c :: read) cs := by
  rw [literalChar]
  split
  · next h =>
    have hc : Lexeme.unescape c = c := by
      rcases h with rfl | rfl <;> decide
    simp only [List.cons_append, List.nil_append]
    rw [Lexeme.stringBody_escape, hc]
  · next h =>
    rw [not_or] at h
    exact Lexeme.stringBody_plain h.1 h.2 read cs

/-- A string between quotes is read as itself. -/
theorem stringBody_literal (cs read r : List Char) :
    Lexeme.stringBody read (cs.flatMap literalChar ++ r) =
      Lexeme.stringBody (cs.reverse ++ read) r := by
  induction cs generalizing read with
  | nil => rfl
  | cons c cs ih => simp [List.flatMap_cons, List.append_assoc, stringBody_literalChar, ih]

/-- The quoting that leaves out nothing: every string is read back as it is. -/
def literal : Quoting where
  chars s := s.toList.flatMap literalChar
  meaning := id
  stringBody_chars s r := by
    rw [stringBody_literal, Lexeme.stringBody_quote]
    simp

end Quoting

/-! ## Spelling -/

/-- The text of a value that is no list, behind a dot and in front of the closing mark where it
ends a list. -/
def Place.enclose (text : List Char) : Place → List Char
  | .alone => text
  | .rest => ' ' :: '.' :: ' ' :: (text ++ [')'])

namespace Datum

/-- The text of a datum at a place. -/
def spell (q : Quoting) (place : Place) : Datum → List Char
  | int i => place.enclose (toString i).toList
  | float f => place.enclose (Double.view f).text.toList
  | bool b => place.enclose (Value.boolText b).toList
  | str s => place.enclose ('"' :: (q.chars s ++ ['"']))
  | sym x => place.enclose x.toList
  | nil =>
    match place with
    | .alone => ['(', ')']
    | .rest => [')']
  | pair a d =>
    let opened := match place with
      | .alone => '('
      | .rest => ' '
    opened :: (a.spell q .alone ++ d.spell q .rest)

/-- The parts of a datum that are no pairs, from left to right. -/
def leaves : Datum → List Datum
  | pair a d => a.leaves ++ d.leaves
  | d => [d]

/-- A datum with other strings. -/
def mapStrings (g : String → String) : Datum → Datum
  | str s => str (g s)
  | pair a d => pair (a.mapStrings g) (d.mapStrings g)
  | d => d

/-- A datum without floats. -/
def FloatFree (d : Datum) : Prop := ∀ f, .float f ∉ d.leaves

end Datum

/-- The names that can be read: atoms that spell neither a dot nor a number nor a constant. -/
structure IsName (x : String) : Prop where
  isAtom : IsAtom x.toList
  ne_dot : x ≠ "."
  not_numeric : Token.looksNumeric x.toList = false
  no_hash : x.toList.head? ≠ some '#'
  ne_nil : x ≠ "nil"
  ne_true : x ≠ "true"
  ne_false : x ≠ "false"

/-- A datum all of whose symbols are names. -/
def Datum.WellNamed (d : Datum) : Prop := ∀ x, .sym x ∈ d.leaves → IsName x

namespace Datum

theorem floatFree_pair {a d : Datum} : (pair a d).FloatFree ↔ a.FloatFree ∧ d.FloatFree := by
  simp [FloatFree, leaves, not_or, forall_and]

theorem wellNamed_pair {a d : Datum} : (pair a d).WellNamed ↔ a.WellNamed ∧ d.WellNamed := by
  simp [WellNamed, leaves, or_imp, forall_and]

theorem wellNamed_sym {x : String} : (sym x).WellNamed ↔ IsName x := by
  simp [WellNamed, leaves]

theorem mapStrings_id (d : Datum) : d.mapStrings id = d := by
  induction d with
  | pair a d iha ihd => rw [mapStrings, iha, ihd]
  | _ => rfl

/-- A datum keeps its strings if and only if each of them is mapped to itself. -/
theorem mapStrings_eq_self {g : String → String} {d : Datum} :
    d.mapStrings g = d ↔ ∀ s, .str s ∈ d.leaves → g s = s := by
  induction d with
  | pair a d iha ihd => simp [mapStrings, leaves, iha, ihd, or_imp, forall_and]
  | _ => simp [mapStrings, leaves]

end Datum

/-! ## Reading what is spelled -/

/-- The innermost open expression takes a datum: it is not a dotted list with its tail. -/
def Awaits (stack : List OpenExpr) : Prop := ∀ read tail outer, stack ≠ .tailed read tail :: outer

/-- Where a datum is awaited, a token begins one. -/
theorem Progress.feed_of_awaits {stack : List OpenExpr} (h : Awaits stack) (t : Token) :
    feed t stack = begin t stack := by
  rw [feed]
  exact fun read tail outer hs => h read tail outer hs

/-- The text is read as the datum wherever a datum may start and a delimiter follows. -/
def Spells (text : List Char) (d : Datum) : Prop := ∀ stack r, Awaits stack → Delimited r →
  Datum.readWithin stack (text ++ r) = (Progress.give d stack).resume r

/-- The text closes a list that has elements, with the datum as its tail. -/
structure Continues (text : List Char) (d : Datum) : Prop where
  delimited : ∀ r, Delimited (text ++ r)
  reads : ∀ x read outer r, Datum.readWithin (.list (x :: read) :: outer) (text ++ r) =
    (Progress.give (d.chain (x :: read)) outer).resume r

/-- The text is read as the datum at a place. -/
def Place.Reads (text : List Char) (d : Datum) : Place → Prop
  | .alone => Spells text d
  | .rest => Continues text d

/-- A text of a single token spells a datum if the token stands for it. -/
theorem spells_of_next {text : List Char} {t : Token} {d : Datum}
    (hnext : ∀ r, Delimited r → Lexeme.next (text ++ r) = (.token t, r))
    (hbegin : ∀ stack, Progress.begin t stack = .ok (Progress.give d stack)) :
    Spells text d := by
  intro stack r hs hr
  refine Datum.readWithin_token (hnext r hr) ?_
  rw [Progress.feed_of_awaits hs, hbegin]

theorem spells_int (i : Int) : Spells (toString i).toList (.int i) := by
  refine spells_of_next (t := .number (toString i)) (fun r hr => ?_) fun stack => ?_
  · rw [Lexeme.next_atom (Numeral.isAtom_toString i) hr, Numeral.ofAtom_toString]
  · rw [Progress.begin, Datum.ofNumeral_toString]
    rfl

theorem spells_bool (b : Bool) : Spells (Value.boolText b).toList (.bool b) := by
  refine spells_of_next (t := .boolean b) (fun r hr => ?_) fun stack => rfl
  have hatom : IsAtom (Value.boolText b).toList := by
    cases b <;> exact .of_all (by decide) (by decide)
  rw [Lexeme.next_atom hatom hr]
  cases b <;> rfl

/-- A quoted string spells what it means. -/
theorem spells_str (q : Quoting) (s : String) :
    Spells ('"' :: (q.chars s ++ ['"'])) (.str (q.meaning s)) := by
  refine spells_of_next (t := .string (q.meaning s)) (fun r hr => ?_) fun stack => rfl
  simpa using q.next_quoted s r

theorem IsName.ofAtom_eq {x : String} (hx : IsName x) :
    Lexeme.ofAtom x.toList = .token (.symbol x) := by
  have hdot : x.toList ≠ ['.'] := fun h => hx.ne_dot (String.toList_inj.mp h)
  rw [Lexeme.ofAtom, if_neg hx.no_hash, Token.ofAtom, if_neg hdot, hx.not_numeric,
    String.ofList_toList]
  rfl

theorem IsName.ofSymbol_eq {x : String} (hx : IsName x) : Datum.ofSymbol x = .sym x := by
  rw [Datum.ofSymbol, if_neg hx.ne_nil, if_neg hx.ne_true, if_neg hx.ne_false]

theorem spells_sym {x : String} (hx : IsName x) : Spells x.toList (.sym x) := by
  refine spells_of_next (t := .symbol x) (fun r hr => ?_) fun stack => ?_
  · rw [Lexeme.next_atom hx.isAtom hr, hx.ofAtom_eq]
  · rw [Progress.begin, hx.ofSymbol_eq]

/-- A datum that is no list ends a list behind a dot. -/
theorem Spells.enclose {text : List Char} {d : Datum} (h : Spells text d) :
    ∀ place : Place, place.Reads (place.enclose text) d
  | .alone => h
  | .rest => by
    refine ⟨fun r => Delimited.cons (by decide) _, fun x read outer r => ?_⟩
    have hatom : IsAtom ['.'] := .of_all (by decide) (by decide)
    have hdot : Lexeme.next ('.' :: ' ' :: (text ++ ')' :: r)) =
        (.token .dot, ' ' :: (text ++ ')' :: r)) :=
      Lexeme.next_atom hatom (Delimited.cons (by decide) _)
    have htail := h (.dotted (x :: read) :: outer) (')' :: r) (by simp [Awaits])
      (Delimited.cons (by decide) r)
    calc Datum.readWithin (.list (x :: read) :: outer) (Place.rest.enclose text ++ r)
        = Datum.readWithin (.list (x :: read) :: outer) ('.' :: ' ' :: (text ++ ')' :: r)) := by
          simp [Place.enclose, Datum.readWithin_blank (show Text.isBlank ' ' = true by decide)]
      _ = Datum.readWithin (.dotted (x :: read) :: outer) (' ' :: (text ++ ')' :: r)) :=
          Datum.readWithin_token (p := .more (.dotted (x :: read) :: outer)) hdot rfl
      _ = Datum.readWithin (.tailed (x :: read) d :: outer) (')' :: r) := by
          rw [Datum.readWithin_blank (by decide), htail]
          rfl
      _ = (Progress.give (d.chain (x :: read)) outer).resume r :=
          Datum.readWithin_token (Lexeme.next_closing r) rfl

theorem continues_nil : Continues [')'] .nil := by
  refine ⟨fun r => Delimited.cons (by decide) _, fun x read outer r => ?_⟩
  exact Datum.readWithin_token (Lexeme.next_closing r) rfl

theorem spells_nil : Spells ['(', ')'] .nil := by
  intro stack r hs _
  have hopen := Progress.feed_of_awaits hs .opening
  calc Datum.readWithin stack ('(' :: ')' :: r)
      = Datum.readWithin (.list [] :: stack) (')' :: r) :=
        Datum.readWithin_token (Lexeme.next_opening _) hopen
    _ = (Progress.give .nil stack).resume r :=
        Datum.readWithin_token (Lexeme.next_closing r) rfl

section Pairs

variable {ta td : List Char} {a d : Datum}

/-- A further element goes on a list that goes on behind it. -/
theorem Continues.pair (ha : Spells ta a) (hd : Continues td d) :
    Continues (' ' :: (ta ++ td)) (.pair a d) := by
  refine ⟨fun r => Delimited.cons (by decide) _, fun x read outer r => ?_⟩
  have hfirst := ha (.list (x :: read) :: outer) (td ++ r) (by simp [Awaits]) (hd.delimited r)
  calc Datum.readWithin (.list (x :: read) :: outer) (' ' :: (ta ++ td) ++ r)
      = Datum.readWithin (.list (a :: x :: read) :: outer) (td ++ r) := by
        rw [List.cons_append, Datum.readWithin_blank (by decide), List.append_assoc, hfirst]
        rfl
    _ = (Progress.give (d.chain (a :: x :: read)) outer).resume r := hd.reads a (x :: read) outer r

/-- A list is spelt by its first element and what goes on behind it. -/
theorem Spells.pair (ha : Spells ta a) (hd : Continues td d) :
    Spells ('(' :: (ta ++ td)) (.pair a d) := by
  intro stack r hs _
  have hopen := Progress.feed_of_awaits hs .opening
  have hfirst := ha (.list [] :: stack) (td ++ r) (by simp [Awaits]) (hd.delimited r)
  calc Datum.readWithin stack ('(' :: (ta ++ td) ++ r)
      = Datum.readWithin (.list [] :: stack) (ta ++ (td ++ r)) := by
        rw [List.cons_append, List.append_assoc]
        exact Datum.readWithin_token (Lexeme.next_opening _) hopen
    _ = Datum.readWithin (.list [a] :: stack) (td ++ r) := hfirst
    _ = (Progress.give (.pair a d) stack).resume r := hd.reads a [] stack r

end Pairs

namespace Datum

/-- The spelling of a datum is read as the datum, at either place. -/
theorem reads_spell (q : Quoting) {d : Datum} (hf : d.FloatFree) (hn : d.WellNamed) :
    ∀ place : Place, place.Reads (d.spell q place) (d.mapStrings q.meaning) := by
  induction d with
  | int i => exact (spells_int i).enclose
  | float f => exact absurd (by simp [leaves]) (hf f)
  | bool b => exact (spells_bool b).enclose
  | str s => exact (spells_str q s).enclose
  | sym x => exact (spells_sym (wellNamed_sym.mp hn)).enclose
  | nil =>
    rintro (_ | _)
    · exact spells_nil
    · exact continues_nil
  | pair a d iha ihd =>
    obtain ⟨hfa, hfd⟩ := floatFree_pair.mp hf
    obtain ⟨hna, hnd⟩ := wellNamed_pair.mp hn
    rintro (_ | _)
    · exact Spells.pair (iha hfa hna .alone) (ihd hfd hnd .rest)
    · exact Continues.pair (iha hfa hna .alone) (ihd hfd hnd .rest)

/-- A spelling in front of a delimiter is read to its end and no further. -/
theorem read_spell (q : Quoting) {d : Datum} (hf : d.FloatFree) (hn : d.WellNamed)
    {r : List Char} (hr : Delimited r) :
    read (d.spell q .alone ++ r) = (.ok (d.mapStrings q.meaning), r) :=
  reads_spell q hf hn .alone [] r (by simp [Awaits]) hr

end Datum

/-! ## What is read is well named -/

/-- The data that an open expression holds. -/
def OpenExpr.parts : OpenExpr → List Datum
  | quotation => []
  | list read => read
  | dotted read => read
  | tailed read tail => tail :: read

/-- All data that have been read so far are well named. -/
def Progress.WellNamed : Progress → Prop
  | done d => d.WellNamed
  | more stack => ∀ o ∈ stack, ∀ d ∈ o.parts, d.WellNamed

/-- A list of well named data, in front of a well named tail, is well named. -/
theorem Datum.WellNamed.chain {tail : Datum} {read : List Datum} (ht : tail.WellNamed)
    (hr : ∀ d ∈ read, d.WellNamed) : (tail.chain read).WellNamed := by
  induction read generalizing tail with
  | nil => exact ht
  | cons d read ih =>
    rw [chain_cons]
    exact ih (wellNamed_pair.mpr ⟨hr d (by simp), ht⟩) fun e he => hr e (by simp [he])

theorem Datum.wellNamed_nil : nil.WellNamed := by simp [WellNamed, leaves]

theorem Datum.wellNamed_quoting {d : Datum} (h : d.WellNamed) : d.quoting.WellNamed := by
  have hquote : IsName "quote" :=
    ⟨.of_all (by decide) (by decide), by decide, by decide, by decide, by decide, by decide,
      by decide⟩
  exact wellNamed_pair.mpr ⟨wellNamed_sym.mpr hquote, wellNamed_pair.mpr ⟨h, wellNamed_nil⟩⟩

/-- A symbol token names a constant or is a name. -/
theorem Datum.wellNamed_ofSymbol {cs rest : List Char} {x : String}
    (h : Lexeme.next cs = (.token (.symbol x), rest)) : (ofSymbol x).WellNamed := by
  obtain ⟨hatom, hdot, hnum, hhash⟩ := Lexeme.next_symbol h
  have hdot' : x ≠ "." := fun hx => hdot (by rw [hx]; rfl)
  rw [ofSymbol]
  split
  · exact wellNamed_nil
  split
  · simp [WellNamed, leaves]
  split
  · simp [WellNamed, leaves]
  · exact wellNamed_sym.mpr ⟨hatom, hdot', hnum, hhash, ‹_›, ‹_›, ‹_›⟩

namespace Progress

/-- A well named datum keeps the state of the reader well named. -/
theorem wellNamed_give {d : Datum} (hd : d.WellNamed) {stack : List OpenExpr}
    (hs : (more stack).WellNamed) : (give d stack).WellNamed := by
  induction stack generalizing d with
  | nil => exact hd
  | cons o stack ih =>
    obtain ⟨ho, hstack⟩ := List.forall_mem_cons.mp hs
    cases o with
    | quotation => exact ih (Datum.wellNamed_quoting hd) hstack
    | list read => exact List.forall_mem_cons.mpr ⟨List.forall_mem_cons.mpr ⟨hd, ho⟩, hstack⟩
    | dotted read => exact List.forall_mem_cons.mpr ⟨List.forall_mem_cons.mpr ⟨hd, ho⟩, hstack⟩
    | tailed read tail => exact hs

/-- One token keeps what has been read well named, if its own symbol is. -/
theorem wellNamed_begin {t : Token} (ht : ∀ x, t = .symbol x → (Datum.ofSymbol x).WellNamed)
    {stack : List OpenExpr} (hs : (more stack).WellNamed) {p : Progress}
    (h : begin t stack = .ok p) : p.WellNamed := by
  have hleaf : ∀ d : Datum, (∀ x, d ≠ .sym x) → d.leaves = [d] → (give d stack).WellNamed := by
    intro d hsym hd
    refine wellNamed_give (fun x hx => ?_) hs
    rw [hd, List.mem_singleton] at hx
    exact absurd hx.symm (hsym x)
  cases t with
  | number text =>
    simp only [begin, Datum.ofNumeral] at h
    split at h <;> split at h <;> simp only [Except.map, reduceCtorEq, Except.ok.injEq] at h <;>
      subst h <;> exact hleaf _ (by simp) rfl
  | symbol x =>
    obtain rfl := Except.ok.inj h
    exact wellNamed_give (ht x rfl) hs
  | string s =>
    obtain rfl := Except.ok.inj h
    exact hleaf _ (by simp) rfl
  | boolean b =>
    obtain rfl := Except.ok.inj h
    exact hleaf _ (by simp) rfl
  | opening =>
    obtain rfl := Except.ok.inj h
    exact List.forall_mem_cons.mpr ⟨by simp [OpenExpr.parts], hs⟩
  | quote =>
    obtain rfl := Except.ok.inj h
    exact List.forall_mem_cons.mpr ⟨by simp [OpenExpr.parts], hs⟩
  | closing =>
    simp only [begin] at h
    split at h
    · obtain rfl := Except.ok.inj h
      obtain ⟨ho, houter⟩ := List.forall_mem_cons.mp hs
      exact wellNamed_give (Datum.wellNamed_nil.chain ho) houter
    · simp at h
  | dot =>
    simp only [begin] at h
    split at h
    · simp at h
    · obtain rfl := Except.ok.inj h
      exact List.forall_mem_cons.mpr (List.forall_mem_cons.mp hs)
    · simp at h

/-- Every token keeps the state of the reader well named. -/
theorem wellNamed_feed {t : Token} (ht : ∀ x, t = .symbol x → (Datum.ofSymbol x).WellNamed)
    {stack : List OpenExpr} (hs : (more stack).WellNamed) {p : Progress}
    (h : feed t stack = .ok p) : p.WellNamed := by
  rw [feed.eq_def] at h
  split at h
  · next read tail outer =>
    split at h
    · obtain rfl := Except.ok.inj h
      obtain ⟨ho, houter⟩ := List.forall_mem_cons.mp hs
      obtain ⟨htail, hread⟩ := List.forall_mem_cons.mp ho
      exact wellNamed_give (htail.chain hread) houter
    · simp at h
  · exact wellNamed_begin ht hs h

end Progress

namespace Datum

/-- What is read is well named if everything before it was. -/
theorem wellNamed_of_readWithin {stack : List OpenExpr} {cs rest : List Char} {d : Datum}
    (hs : (Progress.more stack).WellNamed) (h : readWithin stack cs = (.ok d, rest)) :
    d.WellNamed := by
  fun_induction readWithin stack cs with
  | case1 => simp at h
  | case2 => simp at h
  | case3 => simp at h
  | case4 => simp at h
  | case5 stack cs t rest' hn hlt d' hf =>
    have ht : ∀ x, t = .symbol x → (ofSymbol x).WellNamed := by
      rintro x rfl
      exact wellNamed_ofSymbol hn
    simp only [Prod.mk.injEq, Except.ok.injEq] at h
    exact h.1 ▸ Progress.wellNamed_feed ht hs hf
  | case6 stack cs t rest' hn hlt stack' hf ih =>
    have ht : ∀ x, t = .symbol x → (ofSymbol x).WellNamed := by
      rintro x rfl
      exact wellNamed_ofSymbol hn
    exact ih (Progress.wellNamed_feed ht hs hf) h

/-- A datum that some text spells. -/
def Readable (d : Datum) : Prop := ∃ cs rest, read cs = (.ok d, rest)

/-- What can be read is exactly what has proper names. -/
theorem readable_iff {d : Datum} (hf : d.FloatFree) : d.Readable ↔ d.WellNamed := by
  constructor
  · rintro ⟨cs, rest, h⟩
    exact wellNamed_of_readWithin (by simp [Progress.WellNamed]) h
  · intro hn
    have h := read_spell Quoting.literal hf hn Delimited.nil
    have hid : d.mapStrings Quoting.literal.meaning = d := mapStrings_id d
    exact ⟨_, [], hid ▸ h⟩

end Datum

end Scheme
