import Scheme.Proofs.Reading.Extension
import Scheme.Proofs.Simulation.Basic
import Scheme.Repl

/-!
# Finishing an expression

When a text ends inside an expression the reading is incomplete, and whoever reads asks for more
text. Nearly always some text finishes the expression: closing marks close every stack of open
expressions (`exists_closing`), and a string that is open can be closed
(`Lexeme.next_close_string`).

There is one exception. Behind the tail of a dotted list only the closing mark is taken. Other
tokens are misspellings there, but a string whose end is missing is no token, so the reading is
incomplete; and when the string is closed, it is one token too many. Such a text is a
`CrowdedString`, and `incomplete_completable_iff` says that exactly these cannot be finished.
-/

namespace Scheme

/-! ## Closing what is open -/

/-- Closing marks finish the expressions around a datum. -/
theorem exists_closing_give (d : Datum) (stack : List OpenExpr) :
    ∃ text ts v, TokensOf text ts [] ∧ Takes (.give d stack) ts (.done v) := by
  induction stack generalizing d with
  | nil => exact ⟨[], [], d, .nil [], .nil _⟩
  | cons o outer ih =>
    have hclose : ∀ {stack : List OpenExpr} (w : Datum),
        Progress.feed .closing stack = .ok (.give w outer) →
          ∃ text ts v, TokensOf text ts [] ∧ Takes (.more stack) ts (.done v) := by
      intro stack w hf
      obtain ⟨text, ts, v, hts, ht⟩ := ih w
      exact ⟨')' :: text, .closing :: ts, v, .cons (Lexeme.next_closing text) hts, .cons hf ht⟩
    cases o with
    | quotation => exact ih d.quoting
    | list read => exact hclose (Datum.chain .nil (d :: read)) rfl
    | dotted read => exact hclose (Datum.chain d read) rfl
    | tailed read tail => exact hclose (Datum.chain tail read) rfl

/-- Some text finishes the open expressions, whatever they are. -/
theorem exists_closing (stack : List OpenExpr) :
    ∃ text ts v, TokensOf text ts [] ∧ Takes (.more stack) ts (.done v) := by
  by_cases hs : Awaits stack
  · -- An empty list is given to the innermost of them, and then all are closed.
    obtain ⟨text, ts, v, hts, ht⟩ := exists_closing_give .nil stack
    have hopen : Progress.feed .opening stack = .ok (.more (.list [] :: stack)) :=
      Progress.feed_of_awaits hs .opening
    exact ⟨'(' :: ')' :: text, .opening :: .closing :: ts, v,
      .cons (Lexeme.next_opening _) (.cons (Lexeme.next_closing text) hts),
      .cons hopen (.cons rfl ht)⟩
  · simp only [Awaits, ne_eq, not_forall, not_not] at hs
    obtain ⟨read, tail, outer, rfl⟩ := hs
    exact exists_closing_give tail (.tailed read tail :: outer)

/-! ## Tokens in front of more text -/

namespace Lexeme

/-- A token is taken in the same way if more text follows, unless the text ends with it and could go
on. -/
theorem next_append_token {cs rest t : List Char} {k : Token} (h : next cs = (.token k, rest))
    (hrest : rest ≠ [] ∨ Delimited t) : next (cs ++ t) = (.token k, rest ++ t) := by
  rw [next] at h
  split at h
  · simp at h
  · next c cs' hskip =>
    obtain ⟨hblank, hsemi⟩ := skip_eq_cons hskip
    rw [next, skip_append_cons hskip]
    exact start_append hblank hsemi h (by simp) fun _ => hrest

/-- A string that is still open can be closed behind a newline, whatever follows. -/
theorem stringBody_close {read cs : List Char} (h : stringBody read cs = none) :
    ∃ body, ∀ t, stringBody read (cs ++ '\n' :: '"' :: t) = some (body, t) := by
  fun_induction stringBody read cs with
  | case1 read =>
    refine ⟨('\n' :: read).reverse, fun t => ?_⟩
    rw [List.nil_append, stringBody_plain (by decide) (by decide), stringBody_quote]
  | case2 => simp at h
  | case3 read =>
    refine ⟨(unescape '\n' :: read).reverse, fun t => ?_⟩
    rw [List.cons_append, List.nil_append, stringBody_escape, stringBody_quote]
  | case4 read c cs ih =>
    obtain ⟨body, hbody⟩ := ih h
    refine ⟨body, fun t => ?_⟩
    rw [List.cons_append, List.cons_append, stringBody_escape, hbody]
  | case5 read c cs hq hone hmore ih =>
    obtain ⟨body, hbody⟩ := ih h
    refine ⟨body, fun t => ?_⟩
    rw [List.cons_append, stringBody_plain hq (ne_backslash hone hmore), hbody]

/-- A newline and a quote close a string that is open. The newline is part of it, also behind a
backslash. -/
theorem next_close_string {cs : List Char} (h : (next cs).1 = .unclosed) :
    ∃ s, ∀ t, next (cs ++ '\n' :: '"' :: t) = (.token (.string s), t) := by
  obtain ⟨body, hskip, hbody⟩ := next_unclosed h
  obtain ⟨closed, hclosed⟩ := stringBody_close hbody
  refine ⟨String.ofList closed, fun t => ?_⟩
  rw [next, skip_append_cons hskip]
  simp only [start_quote, hclosed]

/-- An open string stays open, or it becomes a token. -/
theorem next_unclosed_append {cs : List Char} (h : (next cs).1 = .unclosed) (t : List Char) :
    (next (cs ++ t)).1 = .unclosed ∨ ∃ s, (next (cs ++ t)).1 = .token (.string s) := by
  obtain ⟨body, hskip, -⟩ := next_unclosed h
  rw [next, skip_append_cons hskip]
  simp only [start_quote]
  split
  · exact .inr ⟨_, rfl⟩
  · exact .inl rfl

end Lexeme

namespace TokensOf

theorem suffix {cs rest : List Char} {ts : List Token} (h : TokensOf cs ts rest) : rest <:+ cs := by
  induction h with
  | nil cs => exact List.suffix_refl cs
  | @cons cs _ _ _ _ hn _ ih => exact ih.trans (by simpa [hn] using Lexeme.next_suffix cs)

/-- The tokens of a text stay the same when more text follows, unless the last of them is an atom
at the end of the text. -/
theorem append {cs rest t : List Char} {ts : List Token} (h : TokensOf cs ts rest)
    (hrest : rest ≠ [] ∨ Delimited t) : TokensOf (cs ++ t) ts (rest ++ t) := by
  induction h with
  | nil cs => exact .nil _
  | cons hn hs ih =>
    refine .cons (Lexeme.next_append_token hn (hrest.imp_left fun hne hnil => hne ?_)) (ih hrest)
    exact List.suffix_nil.mp (hnil ▸ hs.suffix)

/-- A text has one sequence of tokens in front of something other than a token. -/
theorem unique {cs rest rest' : List Char} {ts ts' : List Token} (h : TokensOf cs ts rest)
    (h' : TokensOf cs ts' rest') (hend : ∀ t, (Lexeme.next rest).1 ≠ .token t)
    (hend' : ∀ t, (Lexeme.next rest').1 ≠ .token t) : ts = ts' ∧ rest = rest' := by
  induction h generalizing ts' with
  | nil cs =>
    cases h' with
    | nil => exact ⟨rfl, rfl⟩
    | cons hn _ => exact absurd (congrArg Prod.fst hn) (hend _)
  | cons hn hs ih =>
    cases h' with
    | nil => exact absurd (congrArg Prod.fst hn) (hend' _)
    | cons hn' hs' =>
      obtain ⟨ht, rfl⟩ := Prod.mk.inj (hn.symm.trans hn')
      obtain ⟨rfl, rfl⟩ := ih hs' hend
      exact ⟨congrArg (· :: _) (Lexeme.token.inj ht), rfl⟩

end TokensOf

/-- A run goes on from where a shorter one ends. -/
theorem Takes.of_append {p q r : Progress} {ts us : List Token} (h : Takes p ts q)
    (h' : Takes p (ts ++ us) r) : Takes q us r := by
  induction h with
  | nil => exact h'
  | cons hf _ ih =>
    cases h' with
    | cons hf' h' =>
      obtain rfl := Except.ok.inj (hf.symm.trans hf')
      exact ih h'

/-! ## Where a reading is incomplete -/

/-- A reading that is incomplete has taken all tokens and stops at the end or in an open string. -/
theorem Datum.takes_of_incomplete {stack : List OpenExpr} {cs : List Char}
    (h : (readWithin stack cs).1 = .error .incomplete) :
    ∃ ts rest stack', TokensOf cs ts rest ∧ Takes (.more stack) ts (.more stack') ∧
      ((Lexeme.next rest).1 = .finished ∨ (Lexeme.next rest).1 = .unclosed) := by
  fun_induction readWithin stack cs with
  | case1 stack cs rest hn =>
    exact ⟨[], cs, stack, .nil cs, .nil _, .inl (congrArg Prod.fst hn)⟩
  | case2 stack cs rest hn =>
    exact ⟨[], cs, stack, .nil cs, .nil _, .inr (congrArg Prod.fst hn)⟩
  | case3 => simp at h
  | case4 => simp at h
  | case5 => simp at h
  | case6 stack cs t rest hn hlt stack' hf ih =>
    obtain ⟨ts, rest', stack'', hts, ht, hend⟩ := ih h
    exact ⟨t :: ts, rest', stack'', .cons hn hts, .cons hf ht, hend⟩

/-- The text ends inside a string that stands where the grammar has a closing mark: every phrase
that begins with the tokens in front of the string goes on with this mark. -/
def CrowdedString (cs : List Char) : Prop :=
  ∃ ts rest, TokensOf cs ts rest ∧ (Lexeme.next rest).1 = .unclosed ∧
    ∀ us d, Derives (ts ++ us) d → us.head? = some .closing

section

variable {cs rest : List Char} {ts : List Token} {stack : List OpenExpr}
  (hts : TokensOf cs ts rest) (ht : Takes (.more []) ts (.more stack))

include hts ht

/-- A text that ends between two tokens can be finished. -/
theorem exists_completion_of_finished (h : (Lexeme.next rest).1 = .finished) :
    ∃ t v, (Datum.read (cs ++ t)).1 = .ok v := by
  obtain ⟨text, us, v, hus, hclose⟩ := exists_closing stack
  refine ⟨'\n' :: text, v, ?_⟩
  have hall : TokensOf (cs ++ '\n' :: text) ts (rest ++ '\n' :: text) :=
    hts.append (.inr (.cons (by decide) text))
  have hrest : Lexeme.next (rest ++ '\n' :: text) = Lexeme.next text := by
    rw [Lexeme.next_append_finished (.inr rfl) (Prod.ext h rfl),
      Lexeme.next_blank Text.isBlank_newline]
  have hread : Datum.read (cs ++ '\n' :: text) = (.ok v, []) := by
    calc Datum.read (cs ++ '\n' :: text)
        = Datum.readWithin stack (rest ++ '\n' :: text) := hall.resume_eq ht
      _ = Datum.readWithin stack text := by
        rw [Datum.readWithin_eq, hrest, ← Datum.readWithin_eq]
      _ = (.ok v, []) := hus.resume_eq hclose
  rw [hread]

/-- A text that ends inside a string is incomplete. -/
theorem read_of_unclosed (h : (Lexeme.next rest).1 = .unclosed) :
    (Datum.read cs).1 = .error .incomplete := by
  have hread : Datum.read cs = Datum.readWithin stack rest := hts.resume_eq ht
  rcases hnext : Lexeme.next rest with ⟨l, rest'⟩
  obtain rfl : l = .unclosed := by rwa [hnext] at h
  rw [hread, Datum.readWithin_eq, hnext]

/-- A text that ends inside a string can be finished if a string may stand there. -/
theorem exists_completion_of_unclosed (h : (Lexeme.next rest).1 = .unclosed) (hs : Awaits stack) :
    ∃ t v, (Datum.read (cs ++ t)).1 = .ok v := by
  obtain ⟨s, hstring⟩ := Lexeme.next_close_string h
  obtain ⟨text, us, v, hus, hclose⟩ := exists_closing_give (.str s) stack
  refine ⟨'\n' :: '"' :: text, v, ?_⟩
  have hall : TokensOf (cs ++ '\n' :: '"' :: text) ts (rest ++ '\n' :: '"' :: text) :=
    hts.append (.inr (.cons (by decide) _))
  have hgive : Progress.feed (.string s) stack = .ok (.give (.str s) stack) :=
    Progress.feed_of_awaits hs _
  have hread : Datum.read (cs ++ '\n' :: '"' :: text) = (.ok v, []) := by
    calc Datum.read (cs ++ '\n' :: '"' :: text)
        = Datum.readWithin stack (rest ++ '\n' :: '"' :: text) := hall.resume_eq ht
      _ = (Progress.give (.str s) stack).resume text := Datum.readWithin_token (hstring text) hgive
      _ = (.ok v, []) := hus.resume_eq hclose
  rw [hread]

/-- Behind the tail of a dotted list a string is never right, closed or not. -/
theorem read_append_of_crowded (h : (Lexeme.next rest).1 = .unclosed) (hs : ¬Awaits stack)
    (t : List Char) : (Datum.read (cs ++ t)).1 = .error .incomplete ∨
      (Datum.read (cs ++ t)).1 = .error (.misspelt .crowdedTail) := by
  simp only [Awaits, ne_eq, not_forall, not_not] at hs
  obtain ⟨read, tail, outer, rfl⟩ := hs
  have hne : rest ≠ [] := by
    rintro rfl
    simp [Lexeme.next, Lexeme.skip] at h
  have hread : Datum.read (cs ++ t) = Datum.readWithin (.tailed read tail :: outer) (rest ++ t) :=
    (hts.append (.inl hne)).resume_eq ht
  rw [hread, Datum.readWithin_eq]
  rcases hnext : Lexeme.next (rest ++ t) with ⟨l, rest'⟩
  rcases Lexeme.next_unclosed_append h t with hl | ⟨s, hl⟩
  all_goals
    rw [hnext] at hl
    obtain rfl := hl
  · exact .inl rfl
  · exact .inr rfl

theorem read_append_ne_ok (h : (Lexeme.next rest).1 = .unclosed) (hs : ¬Awaits stack)
    (t : List Char) (v : Datum) : (Datum.read (cs ++ t)).1 ≠ .ok v := by
  rcases read_append_of_crowded hts ht h hs t with hread | hread <;> simp [hread]

theorem crowdedString_iff (h : (Lexeme.next rest).1 = .unclosed) :
    CrowdedString cs ↔ ¬Awaits stack := by
  constructor
  · rintro ⟨ts', rest', hts', h', hall⟩ hs
    obtain ⟨rfl, rfl⟩ := hts.unique hts' (by simp [h]) (by simp [h'])
    obtain ⟨text, us, v, -, hclose⟩ := exists_closing_give (.str "") stack
    have hgive : Progress.feed (.string "") stack = .ok (.give (.str "") stack) :=
      Progress.feed_of_awaits hs _
    have hderives : Derives (ts ++ .string "" :: us) v :=
      takes_iff_derives.mp (ht.append (.cons hgive hclose))
    simpa using hall _ _ hderives
  · intro hs
    simp only [Awaits, ne_eq, not_forall, not_not] at hs
    obtain ⟨read, tail, outer, rfl⟩ := hs
    refine ⟨ts, rest, hts, h, fun us d hd => ?_⟩
    cases ht.of_append (takes_iff_derives.mpr hd) with
    | cons hf _ =>
      rw [Progress.feed] at hf
      split at hf
      · next ht => rw [ht, List.head?_cons]
      · simp at hf

end

/-! ## What waits for more text -/

/-- What a program leaves open is a text that is incomplete by itself. -/
theorem Program.read_pending {cs pending : List Char}
    (h : (ofChars cs).ending = .incomplete pending) :
    (Datum.read pending).1 = .error .incomplete := by
  obtain ⟨left, e, rest, -, hread, hending, -⟩ := exists_remainder cs
  rw [h] at hending
  cases e with
  | incomplete =>
    obtain rfl : pending = left := Ending.incomplete.inj hending
    rw [hread]
  | _ => simp [Ending.ofError] at hending

/-- The loop keeps nothing waiting but an expression that is open. -/
theorem Repl.read_pending {ev : Evaluator} {f : FrameId} {buffer pending : List Char}
    {m m' : Machine} (h : turn ev f buffer m = .ok pending m') (hne : pending ≠ []) :
    (Datum.read pending).1 = .error .incomplete := by
  obtain ⟨evaluated, m₁, -, h⟩ := EvalM.bind_eq_ok h
  cases evaluated with
  | false => exact absurd (EStateM.Result.ok.inj h).1.symm hne
  | true =>
    rw [if_pos rfl] at h
    cases hending : (Program.ofChars buffer).ending with
    | finished =>
      rw [hending] at h
      exact absurd (EStateM.Result.ok.inj h).1.symm hne
    | incomplete p =>
      rw [hending] at h
      obtain rfl : p = pending := (EStateM.Result.ok.inj h).1
      exact Program.read_pending hending
    | misspelt e =>
      rw [hending] at h
      obtain ⟨text, m₂, -, h⟩ := EvalM.bind_eq_ok h
      obtain ⟨_, m₃, -, h⟩ := EvalM.bind_eq_ok h
      exact absurd (EStateM.Result.ok.inj h).1.symm hne

theorem Datum.ofText_append (p q : String) :
    ofText (p ++ q) = (read (p.toList ++ q.toList)).1 := by
  rw [ofText, String.toList_append]

/-- An incomplete text can be finished by some more text, unless it ends inside a string that stands
where only a closing mark is right; then it stays incomplete whatever follows, until it is found
misspelt. What the loop keeps waiting is incomplete, so it asks for another line in these two
situations only. -/
theorem incomplete_completable_iff (p : String) :
    (Datum.ofText p = .error .incomplete →
      ((∃ q d, Datum.ofText (p ++ q) = .ok d) ↔ ¬CrowdedString p.toList) ∧
      (CrowdedString p.toList → ∀ q, Datum.ofText (p ++ q) = .error .incomplete ∨
        Datum.ofText (p ++ q) = .error (.misspelt .crowdedTail))) ∧
    ∀ ev f buffer m m', Repl.turn ev f buffer m = .ok p.toList m' → p.toList ≠ [] →
      Datum.ofText p = .error .incomplete := by
  refine ⟨fun h => ?_, fun ev f buffer m m' h hne => Repl.read_pending h hne⟩
  obtain ⟨ts, rest, stack, hts, ht, hend⟩ := Datum.takes_of_incomplete h
  have htext : ∀ {t v}, (Datum.read (p.toList ++ t)).1 = .ok v →
      ∃ q d, Datum.ofText (p ++ q) = .ok d := fun {t v} hread =>
    ⟨String.ofList t, v, by rw [Datum.ofText_append, String.toList_ofList, hread]⟩
  rcases hend with hfinished | hunclosed
  · obtain ⟨t, v, hread⟩ := exists_completion_of_finished hts ht hfinished
    have hcrowded : ¬CrowdedString p.toList := by
      rintro ⟨ts', rest', hts', hunclosed, -⟩
      obtain ⟨-, rfl⟩ := hts.unique hts' (by simp [hfinished]) (by simp [hunclosed])
      simp [hfinished] at hunclosed
    exact ⟨iff_of_true (htext hread) hcrowded, fun h => absurd h hcrowded⟩
  · rw [crowdedString_iff hts ht hunclosed]
    by_cases hs : Awaits stack
    · obtain ⟨t, v, hread⟩ := exists_completion_of_unclosed hts ht hunclosed hs
      exact ⟨iff_of_true (htext hread) (not_not_intro hs), fun h => absurd hs h⟩
    · simp only [Datum.ofText_append]
      refine ⟨iff_of_false ?_ (not_not_intro hs), fun _ q => ?_⟩
      · rintro ⟨q, d, hread⟩
        exact read_append_ne_ok hts ht hunclosed hs q.toList d hread
      · exact read_append_of_crowded hts ht hunclosed hs q.toList

/-- Where a string may stand the text is not crowded, even if it ends behind a backslash; behind the
tail of a dotted list it is. -/
theorem incomplete_completable_iff_dotted :
    Datum.ofText "(a . \"b\\" = .error .incomplete ∧ ¬CrowdedString "(a . \"b\\".toList ∧
    Datum.ofText "(a . b \"c" = .error .incomplete ∧ CrowdedString "(a . b \"c".toList := by
  have htail : TokensOf "(a . \"b\\".toList [.opening, .symbol "a", .dot] " \"b\\".toList :=
    .cons rfl (.cons rfl (.cons rfl (.nil _)))
  have hbehind : TokensOf "(a . b \"c".toList [.opening, .symbol "a", .dot, .symbol "b"]
      " \"c".toList := .cons rfl (.cons rfl (.cons rfl (.cons rfl (.nil _))))
  have hdotted : Takes (.more []) [.opening, .symbol "a", .dot] (.more [.dotted [.sym "a"]]) :=
    .cons rfl (.cons rfl (.cons rfl (.nil _)))
  have htailed : Takes (.more []) [.opening, .symbol "a", .dot, .symbol "b"]
      (.more [.tailed [.sym "a"] (.sym "b")]) := hdotted.append (.single rfl)
  have hfirst : Datum.ofText "(a . \"b\\" = .error .incomplete :=
    read_of_unclosed htail hdotted rfl
  have hsecond : Datum.ofText "(a . b \"c" = .error .incomplete :=
    read_of_unclosed hbehind htailed rfl
  have hclosing : Takes (.more [.dotted [.sym "a"]]) [.string "b\"", .closing]
      (.give (.pair (.sym "a") (.str "b\"")) []) := .cons rfl (.single rfl)
  have hclosed : (Datum.read "(a . \"b\\\"\")".toList).1 =
      .ok (.pair (.sym "a") (.str "b\"")) :=
    congrArg Prod.fst (TokensOf.resume_eq
      (.cons rfl (.cons rfl (.cons rfl (.cons rfl (.cons rfl (.nil []))))))
      (hdotted.append hclosing))
  refine ⟨hfirst, ?_, hsecond, ?_⟩
  · exact (((incomplete_completable_iff _).1 hfirst).1).mp ⟨"\"\")", _, hclosed⟩
  · by_contra hnot
    obtain ⟨q, d, hread⟩ := (((incomplete_completable_iff _).1 hsecond).1).mpr hnot
    rw [Datum.ofText_append] at hread
    exact read_append_ne_ok hbehind htailed rfl (by simp [Awaits]) q.toList d hread

/-- A text that is incomplete and cannot be finished. -/
theorem crowded_string_never_finished :
    Datum.ofText "(a . b \"" = .error .incomplete ∧
      ∀ q d, Datum.ofText ("(a . b \"" ++ q) ≠ .ok d := by
  have hts : TokensOf "(a . b \"".toList [.opening, .symbol "a", .dot, .symbol "b"]
      " \"".toList := .cons rfl (.cons rfl (.cons rfl (.cons rfl (.nil _))))
  have ht : Takes (.more []) [.opening, .symbol "a", .dot, .symbol "b"]
      (.more [.tailed [.sym "a"] (.sym "b")]) :=
    .cons rfl (.cons rfl (.cons rfl (.cons rfl (.nil _))))
  refine ⟨read_of_unclosed hts ht rfl, fun q d hread => ?_⟩
  rw [Datum.ofText_append] at hread
  exact read_append_ne_ok hts ht rfl (by simp [Awaits]) q.toList d hread

end Scheme
