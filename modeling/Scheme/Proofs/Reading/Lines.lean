import Scheme.Program
import Scheme.Text.Lines
import Scheme.Proofs.Reading.Spelling

/-!
# Reading line by line

A text of whole lines, `WholeLines`, is empty or ends in a newline. More text behind it cannot
change what has been read from it: no atom and no comment reaches over a newline, and a string that
does was not closed. The same holds of any text in front of a newline. In both cases the text is
`Parted` from what follows: a lexeme of it stays as it is (`Lexeme.next_append`), and so does a
datum or a misspelling (`Datum.readWithin_append`).

`Program.ofChars_append` says what that means for a program that comes in pieces: what the first
lines hold is read once, and what they leave open is read again together with what follows.
`Text.lines` cuts every text into such pieces.
-/

namespace Scheme

/-- A text that is empty or ends in a newline. -/
def WholeLines (cs : List Char) : Prop := ∀ c ∈ cs.getLast?, c = '\n'

namespace WholeLines

theorem nil : WholeLines [] := by simp [WholeLines]

theorem append {cs ds : List Char} (hc : WholeLines cs) (hd : WholeLines ds) :
    WholeLines (cs ++ ds) := by
  intro c h
  rw [List.getLast?_append] at h
  cases hl : ds.getLast? with
  | none => exact hc c (by simpa [hl] using h)
  | some d => exact hd c (by simpa [hl] using h)

theorem of_suffix {cs ds : List Char} (h : WholeLines cs) (hs : ds <:+ cs) : WholeLines ds := by
  obtain ⟨front, rfl⟩ := hs
  intro c hc
  refine h c ?_
  rw [List.getLast?_append, Option.mem_def.mp hc]
  rfl

theorem tail {c : Char} {cs : List Char} (h : WholeLines (c :: cs)) : WholeLines cs :=
  h.of_suffix (List.suffix_cons c cs)

/-- Behind a character other than the newline there is one. -/
theorem newline_mem {c : Char} {cs : List Char} (h : WholeLines (c :: cs)) (hc : c ≠ '\n') :
    '\n' ∈ cs := by
  cases hl : cs.getLast? with
  | none =>
    rw [List.getLast?_eq_none_iff.mp hl] at h
    exact absurd (h c rfl) hc
  | some d =>
    obtain rfl : d = '\n' := h.tail d hl
    exact List.mem_of_getLast? hl

end WholeLines

/-- A newline stands between the texts: no atom or comment of the first goes on in the second. -/
def Parted (cs t : List Char) : Prop := WholeLines cs ∨ t.head? = some '\n'

namespace Parted

variable {c : Char} {cs ds t : List Char}

theorem of_suffix (h : Parted cs t) (hs : ds <:+ cs) : Parted ds t := h.imp_left (·.of_suffix hs)

theorem tail (h : Parted (c :: cs) t) : Parted cs t := h.imp_left (·.tail)

/-- If the first character is no newline, there is one behind it or at the start of the second
text. -/
theorem newline (h : Parted (c :: cs) t) (hc : c ≠ '\n') : '\n' ∈ cs ∨ t.head? = some '\n' :=
  h.imp_left (·.newline_mem hc)

/-- An atom ends in front of the newline. -/
theorem atom_ends (h : Parted (c :: cs) t) (hc : Token.isDelimiter c = false) :
    cs.dropWhile (!Token.isDelimiter ·) ≠ [] ∨ Delimited t := by
  have hne : c ≠ '\n' := by
    rintro rfl
    exact absurd hc (by decide)
  refine (h.newline hne).imp (fun hmem hnil => ?_) fun ht d hd => ?_
  · exact absurd (List.dropWhile_eq_nil_iff.mp hnil _ hmem) (by decide)
  · obtain rfl : '\n' = d := Option.some.inj (ht.symm.trans hd)
    decide

end Parted

/-! ## Lexemes -/

namespace Lexeme

/-- Blanks and comments in front of a character are skipped in the same way if more text follows. -/
theorem skip_append_cons {b : Bool} {cs rest : List Char} {c : Char}
    (h : skip b cs = c :: rest) (t : List Char) : skip b (cs ++ t) = c :: (rest ++ t) := by
  induction cs generalizing b with
  | nil => simp [skip] at h
  | cons d cs ih =>
    cases b with
    | true => exact ih h
    | false =>
      simp only [List.cons_append, skip] at h ⊢
      split at h
      · next hblank =>
        rw [if_pos hblank]
        exact ih h
      next hblank =>
      split at h
      · next hsemi =>
        rw [if_neg hblank, if_pos hsemi]
        exact ih h
      · next hsemi =>
        obtain ⟨rfl, rfl⟩ := List.cons.inj h
        rw [if_neg hblank, if_neg hsemi]

/-- Where only blanks and comments were, reading starts afresh behind them. -/
theorem skip_append_nil {b : Bool} {cs t : List Char} (hp : Parted cs t)
    (hb : b = true → '\n' ∈ cs ∨ t.head? = some '\n') (h : skip b cs = []) :
    skip b (cs ++ t) = skip false t := by
  induction cs generalizing b with
  | nil =>
    cases b with
    | true =>
      obtain ⟨rest, rfl⟩ := List.head?_eq_some_iff.mp ((hb rfl).resolve_left List.not_mem_nil)
      rfl
    | false => rfl
  | cons c cs ih =>
    cases b with
    | true =>
      simp only [List.cons_append, skip] at h ⊢
      refine ih hp.tail (fun hc => hp.newline ?_) h
      simpa using hc
    | false =>
      simp only [List.cons_append, skip] at h ⊢
      split at h
      · next hblank =>
        rw [if_pos hblank]
        exact ih hp.tail (by simp) h
      next hblank =>
      split at h
      · next hsemi =>
        rw [if_neg hblank, if_pos hsemi]
        exact ih hp.tail (fun _ => hp.newline (by simp [hsemi])) h
      · simp at h

theorem ne_backslash {c : Char} {cs : List Char} (hone : c = '\\' → cs = [] → False)
    (hmore : ∀ d ds, c = '\\' → cs = d :: ds → False) : c ≠ '\\' := by
  intro hc
  cases cs with
  | nil => exact hone hc rfl
  | cons d ds => exact hmore d ds hc rfl

/-- A string that is closed is read in the same way if more text follows. -/
theorem stringBody_append {read cs body rest : List Char}
    (h : stringBody read cs = some (body, rest)) (t : List Char) :
    stringBody read (cs ++ t) = some (body, rest ++ t) := by
  fun_induction stringBody read cs with
  | case1 => simp at h
  | case2 read cs =>
    simp only [Option.some.injEq, Prod.mk.injEq] at h
    obtain ⟨rfl, rfl⟩ := h
    exact stringBody_quote read _
  | case3 => simp at h
  | case4 read c cs ih =>
    rw [List.cons_append, List.cons_append, stringBody_escape]
    exact ih h
  | case5 read c cs hq hone hmore ih =>
    rw [List.cons_append, stringBody_plain hq (ne_backslash hone hmore)]
    exact ih h

theorem stringBody_suffix {read cs body rest : List Char}
    (h : stringBody read cs = some (body, rest)) : rest <:+ cs := by
  fun_induction stringBody read cs with
  | case1 => simp at h
  | case2 read cs =>
    simp only [Option.some.injEq, Prod.mk.injEq] at h
    obtain ⟨rfl, rfl⟩ := h
    exact List.suffix_cons _ _
  | case3 => simp at h
  | case4 read c cs ih => exact ((ih h).trans (List.suffix_cons c cs)).trans (List.suffix_cons _ _)
  | case5 read c cs _ _ _ ih => exact (ih h).trans (List.suffix_cons c cs)

theorem skip_suffix (b : Bool) (cs : List Char) : skip b cs <:+ cs := by
  induction cs generalizing b with
  | nil => exact List.nil_suffix
  | cons c cs ih =>
    have hrest : ∀ b, skip b cs <:+ c :: cs := fun b => (ih b).trans (List.suffix_cons c cs)
    cases b with
    | true => exact hrest _
    | false =>
      rw [skip]
      split
      · exact hrest false
      split
      · exact hrest true
      · exact List.suffix_refl _

/-- An atom that ends inside a text, or in front of a delimiter, ends there whatever follows. -/
theorem atom_append {cs t : List Char}
    (h : cs.dropWhile (!Token.isDelimiter ·) ≠ [] ∨ Delimited t) :
    (cs ++ t).takeWhile (!Token.isDelimiter ·) = cs.takeWhile (!Token.isDelimiter ·) ∧
      (cs ++ t).dropWhile (!Token.isDelimiter ·) = cs.dropWhile (!Token.isDelimiter ·) ++ t := by
  induction cs with
  | nil =>
    have ht : Delimited t := h.resolve_left fun hne => hne rfl
    have hnil : ∀ c ∈ ([] : List Char), Token.isDelimiter c = false := by simp
    exact ⟨takeWhile_atom hnil ht, dropWhile_atom hnil ht⟩
  | cons c cs ih =>
    cases hc : Token.isDelimiter c with
    | true => simp [hc]
    | false =>
      have hcs := ih (by simpa [hc] using h)
      simp [hc, hcs.1, hcs.2]

/-- A lexeme other than an open string stays the same when more text follows. Only an atom could be
lengthened, if it ends where the text does. -/
theorem start_append {c : Char} {cs rest t : List Char} {l : Lexeme}
    (hb : Text.isBlank c = false) (hs : c ≠ ';') (h : start c cs = (l, rest))
    (hl : l ≠ .unclosed) (hrest : Token.isDelimiter c = false → rest ≠ [] ∨ Delimited t) :
    start c (cs ++ t) = (l, rest ++ t) := by
  rcases start_cases hb hs with ⟨k, -, hstart⟩ | rfl | hc
  · rw [hstart, Prod.mk.injEq] at h
    rw [hstart, h.1, h.2]
  · rw [start_quote] at h ⊢
    split at h
    · next body r hbody =>
      obtain ⟨rfl, rfl⟩ := Prod.mk.inj h
      rw [stringBody_append hbody]
    · exact absurd (Prod.mk.inj h).1.symm hl
  · rw [start_atom hc] at h ⊢
    obtain ⟨rfl, rfl⟩ := Prod.mk.inj h
    obtain ⟨htake, hdrop⟩ := atom_append (hrest hc)
    rw [htake, hdrop]

theorem start_suffix {c : Char} {cs : List Char} (hb : Text.isBlank c = false) (hs : c ≠ ';') :
    (start c cs).2 <:+ cs := by
  rcases start_cases hb hs with ⟨k, -, hstart⟩ | rfl | hc
  · exact ⟨[], congrArg Prod.snd (hstart cs)⟩
  · rw [start_quote]
    split
    · next hbody => exact stringBody_suffix hbody
    · exact List.nil_suffix
  · rw [start_atom hc]
    exact List.dropWhile_suffix _

/-- Where a lexeme starts there is one. -/
theorem start_ne_finished {c : Char} (hb : Text.isBlank c = false) (hs : c ≠ ';')
    (cs : List Char) : (start c cs).1 ≠ .finished := by
  rcases start_cases hb hs with ⟨k, -, hstart⟩ | rfl | hc
  · simp [hstart]
  · rw [start_quote]
    split <;> simp
  · rw [start_atom hc, ofAtom, ofHashAtom]
    split
    · split
      · simp
      · split <;> simp
    · simp

theorem ofAtom_ne_unclosed (cs : List Char) : ofAtom cs ≠ .unclosed := by
  rw [ofAtom, ofHashAtom]
  repeat' split
  all_goals simp

/-- What is left open by a text is a string without a closing quote. -/
theorem next_unclosed {cs : List Char} (h : (next cs).1 = .unclosed) :
    ∃ body, skip false cs = '"' :: body ∧ stringBody [] body = none := by
  rw [next] at h
  split at h
  · simp at h
  · next c body hskip =>
    obtain ⟨hblank, hsemi⟩ := skip_eq_cons hskip
    rcases start_cases hblank hsemi with ⟨k, -, hstart⟩ | rfl | hc
    · simp [hstart] at h
    · refine ⟨body, hskip, ?_⟩
      rw [start_quote] at h
      split at h
      · simp at h
      · assumption
    · rw [start_atom hc] at h
      exact absurd h (ofAtom_ne_unclosed _)

/-- A lexeme stays the same when more text follows behind a newline. -/
theorem next_append {cs rest t : List Char} {l : Lexeme} (hp : Parted cs t)
    (h : next cs = (l, rest)) (hl : l ≠ .unclosed) (hf : l ≠ .finished) :
    next (cs ++ t) = (l, rest ++ t) := by
  rw [next] at h
  split at h
  · exact absurd (Prod.mk.inj h).1.symm hf
  · next c cs' hskip =>
    obtain ⟨hblank, hsemi⟩ := skip_eq_cons hskip
    have hp' : Parted (c :: cs') t := hp.of_suffix (hskip ▸ skip_suffix false cs)
    rw [next, skip_append_cons hskip]
    refine start_append hblank hsemi h hl fun hc => ?_
    rw [← (Prod.mk.inj ((start_atom hc cs').symm.trans h)).2]
    exact hp'.atom_ends hc

/-- If nothing but layout is left of the first text, the next lexeme is that of the second. -/
theorem next_append_finished {cs rest t : List Char} (hp : Parted cs t)
    (h : next cs = (.finished, rest)) : next (cs ++ t) = next t := by
  have hskip : skip false cs = [] := by
    rw [next] at h
    split at h
    · assumption
    · next c cs' hskip =>
      obtain ⟨hblank, hsemi⟩ := skip_eq_cons hskip
      exact absurd (congrArg Prod.fst h) (start_ne_finished hblank hsemi cs')
  rw [next, skip_append_nil hp (by simp) hskip, next]

/-- What is left behind a lexeme is the end of the text. -/
theorem next_suffix (cs : List Char) : (next cs).2 <:+ cs := by
  have h := skip_suffix false cs
  rw [next]
  split
  · exact List.nil_suffix
  · next c cs' hskip =>
    obtain ⟨hblank, hsemi⟩ := skip_eq_cons hskip
    rw [hskip] at h
    exact ((start_suffix hblank hsemi).trans (List.suffix_cons c cs')).trans h

end Lexeme

/-! ## Data -/

namespace Progress

/-- After a datum the reader is done, or there is still an open expression. -/
theorem give_ne_more_nil (d : Datum) (stack : List OpenExpr) : give d stack ≠ .more [] := by
  induction stack generalizing d with
  | nil => simp [give]
  | cons o stack ih =>
    cases o with
    | quotation => exact ih _
    | _ => simp [give]

/-- A reading that goes on has an expression open. -/
theorem feed_ne_more_nil (t : Token) (stack : List OpenExpr) : feed t stack ≠ .ok (.more []) := by
  intro h
  rw [feed.eq_def] at h
  split at h
  · split at h
    · exact give_ne_more_nil _ _ (Except.ok.inj h)
    · simp at h
  · cases t with
    | number text =>
      rw [begin] at h
      cases hn : Datum.ofNumeral text with
      | error e => simp [hn, Except.map] at h
      | ok d => exact give_ne_more_nil d _ (by simpa [hn, Except.map] using h)
    | symbol x => exact give_ne_more_nil _ _ (Except.ok.inj h)
    | string s => exact give_ne_more_nil _ _ (Except.ok.inj h)
    | boolean b => exact give_ne_more_nil _ _ (Except.ok.inj h)
    | opening => simp [begin] at h
    | quote => simp [begin] at h
    | closing =>
      simp only [begin] at h
      split at h
      · exact give_ne_more_nil _ _ (Except.ok.inj h)
      · simp at h
    | dot =>
      simp only [begin] at h
      split at h <;> simp at h

end Progress

namespace Datum

/-- What is left behind a datum is the end of the text. -/
theorem readWithin_suffix (stack : List OpenExpr) (cs : List Char) :
    (readWithin stack cs).2 <:+ cs := by
  have hnext := Lexeme.next_suffix
  fun_induction readWithin stack cs with
  | case1 stack cs rest h => simpa [h] using hnext cs
  | case2 stack cs rest h => simpa [h] using hnext cs
  | case3 stack cs text rest h => simpa [h] using hnext cs
  | case4 stack cs t rest h hlt m hf => simpa [h] using hnext cs
  | case5 stack cs t rest h hlt d hf => simpa [h] using hnext cs
  | case6 stack cs t rest h hlt stack' hf ih => exact ih.trans (by simpa [h] using hnext cs)

/-- A datum is read from a text whatever follows behind a newline, and so is a misspelling found. -/
theorem readWithin_append {stack : List OpenExpr} {cs rest t : List Char}
    {r : Except ReadError Datum} (hp : Parted cs t) (h : readWithin stack cs = (r, rest))
    (hf : r ≠ .error .finished) (hi : r ≠ .error .incomplete) :
    readWithin stack (cs ++ t) = (r, rest ++ t) := by
  fun_induction readWithin stack cs with
  | case1 stack cs rest' hn =>
    obtain ⟨rfl, -⟩ := Prod.mk.inj h
    split at hf
    · exact absurd rfl hf
    · next hs => exact absurd (by simp [hs]) hi
  | case2 stack cs rest' hn => exact absurd (Prod.mk.inj h).1.symm hi
  | case3 stack cs text rest' hn =>
    obtain ⟨rfl, rfl⟩ := Prod.mk.inj h
    rw [readWithin_eq, Lexeme.next_append hp hn (by simp) (by simp)]
  | case4 stack cs k rest' hn hlt m hk =>
    obtain ⟨rfl, rfl⟩ := Prod.mk.inj h
    rw [readWithin_eq, Lexeme.next_append hp hn (by simp) (by simp)]
    simp only [hk]
  | case5 stack cs k rest' hn hlt d hk =>
    obtain ⟨rfl, rfl⟩ := Prod.mk.inj h
    exact readWithin_token (Lexeme.next_append hp hn (by simp) (by simp)) hk
  | case6 stack cs k rest' hn hlt stack' hk ih =>
    have hrest : rest' <:+ cs := by simpa [hn] using Lexeme.next_suffix cs
    rw [readWithin_token (Lexeme.next_append hp hn (by simp) (by simp)) hk]
    exact ih (hp.of_suffix hrest) h

/-- A reading inside an expression does not find the text finished. -/
theorem readWithin_ne_finished {stack : List OpenExpr} (hs : stack ≠ []) (cs : List Char) :
    (readWithin stack cs).1 ≠ .error .finished := by
  fun_induction readWithin stack cs with
  | case1 => simp [hs]
  | case2 => simp
  | case3 => simp
  | case4 => simp
  | case5 => simp
  | case6 stack cs k rest hn hlt stack' hk ih =>
    refine ih fun h => Progress.feed_ne_more_nil k stack ?_
    rw [hk, h]

/-- Behind a text without an expression, reading starts afresh. -/
theorem readWithin_append_finished {stack : List OpenExpr} {cs rest t : List Char}
    (hp : Parted cs t) (h : readWithin stack cs = (.error .finished, rest)) :
    readWithin stack (cs ++ t) = readWithin stack t := by
  rw [readWithin_eq] at h
  split at h
  · next rest' hn => rw [readWithin_eq, Lexeme.next_append_finished hp hn, ← readWithin_eq]
  · simp at h
  · simp at h
  · next k rest' hn =>
    cases hk : Progress.feed k stack with
    | error m => simp [hk] at h
    | ok p =>
      cases p with
      | done d => simp [hk, Progress.resume] at h
      | more stack' =>
        have hs : stack' ≠ [] := fun hnil => Progress.feed_ne_more_nil k stack (hnil ▸ hk)
        have hfin : (readWithin stack' rest').1 = .error .finished := by
          simpa [hk, Progress.resume] using congrArg Prod.fst h
        exact absurd hfin (readWithin_ne_finished hs rest')

end Datum

/-! ## Programs -/

namespace Ending

/-- The text that waits for more. -/
def pending : Ending → List Char
  | incomplete cs => cs
  | _ => []

end Ending

namespace Program

theorem ofChars_nil : ofChars [] = ⟨[], .finished⟩ := by
  have hread : Datum.read [] = (.error .finished, []) := by
    rw [Datum.read, Datum.readWithin_eq]
    rfl
  rw [ofChars_of_error hread]
  rfl

theorem eq_of_all {p : Program} {es : List Datum} (h : p.all = .ok es) : p = ⟨es, .finished⟩ := by
  obtain ⟨exprs, ending⟩ := p
  cases ending with
  | finished => rw [← Except.ok.inj h]
  | _ => simp [all, Ending.error?] at h

/-- Texts that are read alike spell the same expressions, and neither can be read further than the
other. -/
theorem ofChars_congr {cs ds : List Char} (h : Datum.read cs = Datum.read ds) :
    (ofChars cs).exprs = (ofChars ds).exprs ∧
      (ofChars cs).ending.error? = (ofChars ds).ending.error? := by
  rcases hds : Datum.read ds with ⟨e | d, rest⟩
  · rw [ofChars_of_error hds, ofChars_of_error (h.trans hds)]
    exact ⟨rfl, by cases e <;> rfl⟩
  · rw [ofChars_of_read hds, ofChars_of_read (h.trans hds)]
    exact ⟨rfl, rfl⟩

/-- Programs with the same data and the same fault at the end are read alike. -/
theorem all_congr {p q : Program} (h : p.exprs = q.exprs ∧ p.ending.error? = q.ending.error?) :
    p.all = q.all := by
  rw [all, all, h.1, h.2]

/-- A text is the expressions that it spells and a remainder on which reading fails. What follows
behind a newline is read together with the remainder. -/
theorem exists_remainder (cs : List Char) :
    ∃ left e rest, left <:+ cs ∧ Datum.read left = (.error e, rest) ∧
      (ofChars cs).ending = .ofError left e ∧ ∀ t, Parted cs t →
        ofChars (cs ++ t) =
          ⟨(ofChars cs).exprs ++ (ofChars (left ++ t)).exprs, (ofChars (left ++ t)).ending⟩ := by
  induction hn : cs.length using Nat.strong_induction_on generalizing cs with
  | _ n ih =>
    subst hn
    rcases hr : Datum.read cs with ⟨e | d, rest⟩
    · rw [ofChars_of_error hr]
      exact ⟨cs, e, rest, List.suffix_refl cs, hr, rfl, fun t _ => rfl⟩
    · have hsuffix : (Datum.read cs).2 <:+ cs := Datum.readWithin_suffix [] cs
      rw [hr] at hsuffix
      obtain ⟨left, e, rest', hleft, hread, hending, happend⟩ :=
        ih rest.length (Datum.rest_lt_of_read hr) rest rfl
      rw [ofChars_of_read hr]
      refine ⟨left, e, rest', hleft.trans hsuffix, hread, hending, fun t hp => ?_⟩
      have happ : Datum.read (cs ++ t) = (.ok d, rest ++ t) :=
        Datum.readWithin_append hp hr (by simp) (by simp)
      rw [ofChars_of_read happ, happend t (hp.of_suffix hsuffix)]
      rfl

/-- If whole lines begin a program that can be read to its end, then nothing in them is misspelt,
and what follows spells the rest of the program behind what they leave open. -/
theorem ofChars_append {cs t : List Char} {es : List Datum} (hw : WholeLines cs)
    (h : ofChars (cs ++ t) = ⟨es, .finished⟩) :
    (∀ m, (ofChars cs).ending ≠ .misspelt m) ∧ WholeLines (ofChars cs).ending.pending ∧
      ∃ es', es = (ofChars cs).exprs ++ es' ∧
        ofChars ((ofChars cs).ending.pending ++ t) = ⟨es', .finished⟩ := by
  obtain ⟨left, e, rest, hleft, hread, hending, happend⟩ := exists_remainder cs
  have hw' : WholeLines left := hw.of_suffix hleft
  rw [happend t (.inl hw), Program.mk.injEq] at h
  obtain ⟨rfl, hfinished⟩ := h
  rw [hending]
  cases e with
  | finished =>
    have happ : Datum.read (left ++ t) = Datum.read t :=
      Datum.readWithin_append_finished (.inl hw') hread
    have hall : (ofChars t).all = .ok (ofChars (left ++ t)).exprs := by
      rw [← all_congr (ofChars_congr happ), all, hfinished]
      rfl
    exact ⟨by simp [Ending.ofError], WholeLines.nil, _, rfl, eq_of_all hall⟩
  | incomplete =>
    exact ⟨by simp [Ending.ofError], hw', _, rfl, by rw [← hfinished]; rfl⟩
  | misspelt m =>
    have happ : Datum.read (left ++ t) = (.error (.misspelt m), rest ++ t) :=
      Datum.readWithin_append (.inl hw') hread (by simp) (by simp)
    rw [ofChars_of_error happ] at hfinished
    simp [Ending.ofError] at hfinished

end Program

/-! ## Lines -/

namespace Text

theorem flatten_linesOnto (read cs : List Char) :
    (linesOnto read cs).flatten = read.reverse ++ cs := by
  induction cs generalizing read with
  | nil =>
    cases read with
    | nil => rfl
    | cons c read => simp [linesOnto]
  | cons c cs ih =>
    rw [linesOnto]
    split
    · rw [List.flatten_cons, ih]
      simp
    · rw [ih]
      simp

/-- The lines of a text together are the text. -/
theorem flatten_lines (cs : List Char) : (lines cs).flatten = cs := flatten_linesOnto [] cs

/-- The lines of an encoded text are decoded to the lines of the text. -/
theorem inputLines_toUTF8 (s : String) : inputLines s.toUTF8 = (lines s.toList).map some := by
  have hbytes : String.fromUTF8? s.toUTF8 = some s := dif_pos s.isValidUTF8
  rw [inputLines, hbytes]

/-- Only the last line can lack its newline. -/
theorem wholeLines_of_mem_dropLast (read cs : List Char) :
    ∀ l ∈ (linesOnto read cs).dropLast, WholeLines l := by
  induction cs generalizing read with
  | nil =>
    intro l hl
    rw [linesOnto] at hl
    split at hl <;> simp at hl
  | cons c cs ih =>
    intro l hl
    rw [linesOnto] at hl
    split at hl
    · next hc =>
      cases hrest : linesOnto [] cs with
      | nil => simp [hrest] at hl
      | cons l' ls =>
        rw [hrest, List.dropLast_cons_cons] at hl
        rcases List.mem_cons.mp hl with rfl | hl
        · simp [WholeLines, hc]
        · exact ih [] l (by rwa [hrest])
    · exact ih (c :: read) l hl

end Text

end Scheme
