import Scheme.Proofs.Reading.Lines

/-!
# The grammar of data

`Derives` is the grammar over tokens, with the datum that each phrase stands for: an atom, a list
between its marks, a dotted list, and a quotation. `TokensOf` takes the first tokens off a text.

The reader is a machine with a stack of open expressions, and `Takes` is a run of it over tokens.
Every phrase takes the machine from any stack to the one that has been given its datum
(`Derives.takes`). In the other direction, `Closes` and `Awaited` say what a stack still demands
of the tokens, and every run that ends in a datum has met the demands (`awaited_of_takes`).

`read_accepts_grammar` puts the two together: the reader answers a datum and stops behind a token
if and only if the tokens up to there are a phrase for the datum, and it finds the text finished
if and only if there is nothing but blanks and comments in it.
-/

namespace Scheme

/-! ## Phrases -/

/-- The tokens of phrases in a row. -/
def phraseTokens (ps : List (List Token × Datum)) : List Token := ps.flatMap Prod.fst

/-- The data of phrases in a row, as the elements of a list that ends in `tail`. -/
def phraseData (tail : Datum) (ps : List (List Token × Datum)) : Datum :=
  ps.foldr (fun p rest => .pair p.2 rest) tail

/-- The tokens are a phrase for the datum. -/
inductive Derives : List Token → Datum → Prop
  | number {text : String} {d : Datum} (h : Datum.ofNumeral text = .ok d) :
      Derives [.number text] d
  | string (s : String) : Derives [.string s] (.str s)
  | boolean (b : Bool) : Derives [.boolean b] (.bool b)
  | emptyList : Derives [.symbol "nil"] .nil
  | isTrue : Derives [.symbol "true"] (.bool true)
  | isFalse : Derives [.symbol "false"] (.bool false)
  | symbol {x : String} (hn : x ≠ "nil") (ht : x ≠ "true") (hf : x ≠ "false") :
      Derives [.symbol x] (.sym x)
  | list {ps : List (List Token × Datum)} (h : ∀ p ∈ ps, Derives p.1 p.2) :
      Derives (.opening :: (phraseTokens ps ++ [.closing])) (phraseData .nil ps)
  | dotted {ps : List (List Token × Datum)} {us : List Token} {tail : Datum} (hne : ps ≠ [])
      (h : ∀ p ∈ ps, Derives p.1 p.2) (ht : Derives us tail) :
      Derives (.opening :: (phraseTokens ps ++ .dot :: (us ++ [.closing]))) (phraseData tail ps)
  | quote {ts : List Token} {d : Datum} (h : Derives ts d) :
      Derives (.quote :: ts) (.pair (.sym "quote") (.pair d .nil))

/-- The first tokens of a text, and the text behind the last of them. -/
inductive TokensOf : List Char → List Token → List Char → Prop
  | nil (cs : List Char) : TokensOf cs [] cs
  | cons {cs rest rest' : List Char} {t : Token} {ts : List Token}
      (h : Lexeme.next cs = (.token t, rest)) (hs : TokensOf rest ts rest') :
      TokensOf cs (t :: ts) rest'

/-- A text of blanks and comments, which go from a semicolon to the end of their line. -/
inductive OnlyBlanks : List Char → Prop
  | nil : OnlyBlanks []
  | blank {c : Char} {cs : List Char} (hc : Text.isBlank c = true) (h : OnlyBlanks cs) :
      OnlyBlanks (c :: cs)
  | comment {text cs : List Char} (ht : '\n' ∉ text) (h : OnlyBlanks cs) :
      OnlyBlanks (';' :: (text ++ '\n' :: cs))
  | lastComment {text : List Char} (ht : '\n' ∉ text) : OnlyBlanks (';' :: text)

/-- The token of a symbol is a phrase, also where it names a constant. -/
theorem Derives.ofSymbol (x : String) : Derives [.symbol x] (Datum.ofSymbol x) := by
  unfold Datum.ofSymbol
  split
  · next hn => exact hn ▸ .emptyList
  split
  · next ht => exact ht ▸ .isTrue
  split
  · next hf => exact hf ▸ .isFalse
  · next hn ht hf => exact .symbol hn ht hf

/-! ## Runs over tokens -/

/-- The tokens take the reader from one state to another. -/
inductive Takes : Progress → List Token → Progress → Prop
  | nil (p : Progress) : Takes p [] p
  | cons {stack : List OpenExpr} {t : Token} {ts : List Token} {p q : Progress}
      (h : Progress.feed t stack = .ok p) (hs : Takes p ts q) : Takes (.more stack) (t :: ts) q

namespace Takes

theorem append {p q r : Progress} {ts us : List Token} (h : Takes p ts q) (h' : Takes q us r) :
    Takes p (ts ++ us) r := by
  induction h with
  | nil => exact h'
  | cons hf _ ih => exact .cons hf (ih h')

theorem single {stack : List OpenExpr} {t : Token} {p : Progress}
    (h : Progress.feed t stack = .ok p) : Takes (.more stack) [t] p :=
  .cons h (.nil p)

/-- A run that has ended in a datum takes no more tokens. -/
theorem unique {p : Progress} {ts us : List Token} {d d' : Datum} (h : Takes p ts (.done d))
    (h' : Takes p (ts ++ us) (.done d')) : us = [] ∧ d = d' := by
  generalize hq : Progress.done d = q at h
  induction h with
  | nil p =>
    subst hq
    cases h'
    exact ⟨rfl, rfl⟩
  | cons hf _ ih =>
    cases h' with
    | cons hf' h' =>
      obtain rfl := Except.ok.inj (hf.symm.trans hf')
      exact ih h' hq

end Takes

/-- A run over the first tokens of a text takes the reading to where they end. -/
theorem TokensOf.resume_eq {cs rest : List Char} {ts : List Token} (h : TokensOf cs ts rest)
    {p q : Progress} (ht : Takes p ts q) : p.resume cs = q.resume rest := by
  induction h generalizing p with
  | nil cs =>
    cases ht
    rfl
  | cons hn _ ih =>
    cases ht with
    | cons hf ht =>
      rw [Progress.resume, Datum.readWithin_token hn hf]
      exact ih ht

theorem Datum.phraseData_eq_chain (tail : Datum) (ps : List (List Token × Datum)) :
    phraseData tail ps = chain tail (ps.map Prod.snd).reverse := by
  rw [phraseData, chain, List.foldl_reverse, List.foldr_map]

/-- Phrases in a row become elements of the innermost list. -/
theorem takes_phraseTokens {ps : List (List Token × Datum)}
    (h : ∀ p ∈ ps, ∀ stack, Awaits stack → Takes (.more stack) p.1 (.give p.2 stack))
    (read : List Datum) (outer : List OpenExpr) :
    Takes (.more (.list read :: outer)) (phraseTokens ps)
      (.more (.list ((ps.map Prod.snd).reverse ++ read) :: outer)) := by
  induction ps generalizing read with
  | nil => exact .nil _
  | cons p ps ih =>
    obtain ⟨hp, hps⟩ := List.forall_mem_cons.mp h
    have hfirst : Takes (.more (.list read :: outer)) p.1 (.more (.list (p.2 :: read) :: outer)) :=
      hp (.list read :: outer) (by simp [Awaits])
    have hrest := ih hps (p.2 :: read)
    simpa [phraseTokens] using hfirst.append hrest

/-- A phrase takes the reader to where it has been given the datum. -/
theorem Derives.takes {ts : List Token} {d : Datum} (h : Derives ts d) :
    ∀ stack, Awaits stack → Takes (.more stack) ts (.give d stack) := by
  have hfeed : ∀ {stack : List OpenExpr}, Awaits stack → ∀ {t : Token} {p : Progress},
      Progress.begin t stack = .ok p → Takes (.more stack) [t] p := fun hs _ _ hb =>
    .single ((Progress.feed_of_awaits hs _).trans hb)
  induction h with
  | number hd => exact fun stack hs => hfeed hs (by rw [Progress.begin, hd]; rfl)
  | string s => exact fun stack hs => hfeed hs rfl
  | boolean b => exact fun stack hs => hfeed hs rfl
  | emptyList => exact fun stack hs => hfeed hs rfl
  | isTrue => exact fun stack hs => hfeed hs rfl
  | isFalse => exact fun stack hs => hfeed hs rfl
  | @symbol x hn ht hf =>
    refine fun stack hs => hfeed hs ?_
    rw [Progress.begin, Datum.ofSymbol, if_neg hn, if_neg ht, if_neg hf]
  | @list ps _ ih =>
    intro stack hs
    have hopen : Takes (.more stack) [.opening] (.more (.list [] :: stack)) := hfeed hs rfl
    refine hopen.append ((takes_phraseTokens ih [] stack).append (.single ?_))
    rw [Datum.phraseData_eq_chain, List.append_nil]
    rfl
  | @dotted ps us tail hne _ _ ih iht =>
    intro stack hs
    have hopen : Takes (.more stack) [.opening] (.more (.list [] :: stack)) := hfeed hs rfl
    refine hopen.append ((takes_phraseTokens ih [] stack).append ?_)
    rw [List.append_nil]
    obtain ⟨d, read, hread⟩ : ∃ d read, (ps.map Prod.snd).reverse = d :: read := by
      cases hr : (ps.map Prod.snd).reverse with
      | nil => simp [hne] at hr
      | cons d read => exact ⟨d, read, rfl⟩
    rw [Datum.phraseData_eq_chain, hread]
    have hdot : Takes (.more (.list (d :: read) :: stack)) [.dot]
        (.more (.dotted (d :: read) :: stack)) := .single rfl
    have htail := iht (.dotted (d :: read) :: stack) (by simp [Awaits])
    exact hdot.append (htail.append (.single rfl))
  | quote _ ih =>
    intro stack hs
    have hquote : Takes (.more stack) [.quote] (.more (.quotation :: stack)) := hfeed hs rfl
    exact hquote.append (ih (.quotation :: stack) (by simp [Awaits]))

/-! ## What is read is a phrase -/

/-- The rest of a list behind the elements `read`, which are held last first, up to its closing
mark, and the list that it ends. -/
inductive ListRest : List Datum → List Token → Datum → Prop
  | close (read : List Datum) : ListRest read [.closing] (Datum.chain .nil read)
  | dot {read : List Datum} {us : List Token} {tail : Datum} (hne : read ≠ [])
      (ht : Derives us tail) : ListRest read (.dot :: (us ++ [.closing])) (Datum.chain tail read)
  | more {read : List Datum} {us ts : List Token} {v d : Datum} (hv : Derives us v)
      (h : ListRest (v :: read) ts d) : ListRest read (us ++ ts) d

/-- The rest of a list makes a phrase of what stands in front of it. -/
theorem ListRest.derives {read : List Datum} {ts : List Token} {d : Datum}
    (h : ListRest read ts d) (ps : List (List Token × Datum)) (hps : ∀ p ∈ ps, Derives p.1 p.2)
    (hread : ps.map Prod.snd = read.reverse) : Derives (.opening :: (phraseTokens ps ++ ts)) d := by
  have hdata : ∀ {ps : List (List Token × Datum)} {read : List Datum} (tail : Datum),
      ps.map Prod.snd = read.reverse → Datum.chain tail read = phraseData tail ps := by
    intro ps read tail hread
    rw [Datum.phraseData_eq_chain, hread, List.reverse_reverse]
  induction h generalizing ps with
  | close read =>
    rw [hdata .nil hread]
    exact .list hps
  | @dot read us tail hne ht =>
    rw [hdata tail hread]
    refine .dotted (fun hnil => hne ?_) hps ht
    rw [hnil] at hread
    exact List.reverse_eq_nil_iff.mp hread.symm
  | @more read us ts v d hv _ ih =>
    have hsnoc := ih (ps ++ [(us, v)])
      (List.forall_mem_append.mpr ⟨hps, List.forall_mem_singleton.mpr hv⟩) (by simp [hread])
    simpa [phraseTokens] using hsnoc

/-- What a stack that has been given the datum `v` still demands of the tokens, to end in `d`. -/
def Closes : List OpenExpr → (v : Datum) → List Token → (d : Datum) → Prop
  | [], v, ts, d => ts = [] ∧ d = v
  | .quotation :: outer, v, ts, d => Closes outer v.quoting ts d
  | .list read :: outer, v, ts, d =>
    ∃ us us' w, ts = us ++ us' ∧ ListRest (v :: read) us w ∧ Closes outer w us' d
  | .dotted read :: outer, v, ts, d =>
    ∃ us, ts = .closing :: us ∧ Closes outer (Datum.chain v read) us d
  | .tailed read tail :: outer, _, ts, d =>
    ∃ us, ts = .closing :: us ∧ Closes outer (Datum.chain tail read) us d

/-- What a stack demands of the tokens, to end in `d`. -/
def Awaited : List OpenExpr → List Token → (d : Datum) → Prop
  | .list read :: outer, ts, d =>
    ∃ us us' w, ts = us ++ us' ∧ ListRest read us w ∧ Closes outer w us' d
  | .tailed read tail :: outer, ts, d =>
    ∃ us, ts = .closing :: us ∧ Closes outer (Datum.chain tail read) us d
  | stack, ts, d => ∃ us us' v, ts = us ++ us' ∧ Derives us v ∧ Closes stack v us' d

/-- What a state of the reader demands of the tokens, to end in `d`. -/
def Progress.Awaited : Progress → List Token → (d : Datum) → Prop
  | .done v, ts, d => ts = [] ∧ d = v
  | .more stack, ts, d => Scheme.Awaited stack ts d

/-- What a datum that was just read leaves to be done is what the stack demands behind it. -/
theorem closes_of_give {stack : List OpenExpr} {v d : Datum} {ts : List Token}
    (h : (Progress.give v stack).Awaited ts d) : Closes stack v ts d := by
  induction stack generalizing v with
  | nil => exact h
  | cons o outer ih =>
    cases o with
    | quotation => exact ih h
    | list read => exact h
    | dotted read => exact h
    | tailed read tail => exact h

/-- Where a datum is awaited, a phrase and what is demanded behind it will do. -/
theorem awaited_of_derives {stack : List OpenExpr} (hs : Awaits stack) {us ts : List Token}
    {v d : Datum} (hv : Derives us v) (h : Closes stack v ts d) : Awaited stack (us ++ ts) d := by
  match stack, h with
  | [], h => exact ⟨us, ts, v, rfl, hv, h⟩
  | .quotation :: outer, h => exact ⟨us, ts, v, rfl, hv, h⟩
  | .dotted read :: outer, h => exact ⟨us, ts, v, rfl, hv, h⟩
  | .list read :: outer, ⟨us₁, us₂, w, hts, hrest, hclose⟩ =>
    exact ⟨us ++ us₁, us₂, w, by rw [hts, List.append_assoc], .more hv hrest, hclose⟩
  | .tailed read tail :: outer, _ => exact absurd rfl (hs read tail outer)

/-- One token where a datum may start. -/
theorem awaited_of_begin {stack : List OpenExpr} (hs : Awaits stack) {t : Token} {p : Progress}
    (hb : Progress.begin t stack = .ok p) {ts : List Token} {d : Datum} (h : p.Awaited ts d) :
    Awaited stack (t :: ts) d := by
  have hatom : ∀ {v : Datum}, Derives [t] v → (Progress.give v stack).Awaited ts d →
      Awaited stack (t :: ts) d := fun hv h => awaited_of_derives hs hv (closes_of_give h)
  cases t with
  | number text =>
    rw [Progress.begin] at hb
    cases hn : Datum.ofNumeral text with
    | error m => simp [hn, Except.map] at hb
    | ok v =>
      rw [hn] at hb
      obtain rfl := Except.ok.inj hb
      exact hatom (.number hn) h
  | string s =>
    obtain rfl := Except.ok.inj hb
    exact hatom (.string s) h
  | boolean b =>
    obtain rfl := Except.ok.inj hb
    exact hatom (.boolean b) h
  | symbol x =>
    obtain rfl := Except.ok.inj hb
    exact hatom (.ofSymbol x) h
  | opening =>
    obtain rfl := Except.ok.inj hb
    obtain ⟨us, us', w, rfl, hrest, hclose⟩ := h
    have hlist : Derives (.opening :: us) w := hrest.derives [] (by simp) rfl
    exact awaited_of_derives hs hlist hclose
  | quote =>
    obtain rfl := Except.ok.inj hb
    obtain ⟨us, us', v, rfl, hv, hclose⟩ := h
    exact awaited_of_derives hs (Derives.quote hv) hclose
  | closing =>
    simp only [Progress.begin] at hb
    split at hb
    · next read outer =>
      obtain rfl := Except.ok.inj hb
      exact ⟨[.closing], ts, _, rfl, .close read, closes_of_give h⟩
    · simp at hb
  | dot =>
    simp only [Progress.begin] at hb
    split at hb
    · simp at hb
    · next read outer hne =>
      obtain rfl := Except.ok.inj hb
      obtain ⟨us, us', v, rfl, hv, us₂, rfl, hclose⟩ := h
      refine ⟨.dot :: (us ++ [.closing]), us₂, _, by simp, .dot ?_ hv, hclose⟩
      rintro rfl
      exact hne rfl
    · simp at hb

/-- What the state behind a token demands, the token and the stack before it demand together. -/
theorem awaited_of_feed {stack : List OpenExpr} {t : Token} {p : Progress}
    (hf : Progress.feed t stack = .ok p) {ts : List Token} {d : Datum} (h : p.Awaited ts d) :
    Awaited stack (t :: ts) d := by
  by_cases hs : Awaits stack
  · rw [Progress.feed_of_awaits hs] at hf
    exact awaited_of_begin hs hf h
  · simp only [Awaits, ne_eq, not_forall, not_not] at hs
    obtain ⟨read, tail, outer, rfl⟩ := hs
    rw [Progress.feed] at hf
    split at hf
    · next ht =>
      obtain rfl := Except.ok.inj hf
      exact ⟨ts, by rw [ht], closes_of_give h⟩
    · simp at hf

/-- A run that ends in a datum has met the demands of the state that it started from. -/
theorem awaited_of_takes {p : Progress} {ts : List Token} {d : Datum}
    (h : Takes p ts (.done d)) : p.Awaited ts d := by
  generalize hq : Progress.done d = q at h
  induction h with
  | nil p => exact hq ▸ ⟨rfl, rfl⟩
  | cons hf _ ih => exact awaited_of_feed hf (ih hq)

/-- The reader takes exactly the phrases. -/
theorem takes_iff_derives {ts : List Token} {d : Datum} :
    Takes (.more []) ts (.done d) ↔ Derives ts d := by
  constructor
  · intro h
    obtain ⟨us, us', v, rfl, hv, rfl, rfl⟩ := awaited_of_takes h
    simpa using hv
  · intro h
    exact h.takes [] (by simp [Awaits])

/-! ## Blanks and comments -/

/-- A comment may have one more character at its start. -/
theorem OnlyBlanks.lengthen {c : Char} (hc : c ≠ '\n') {cs : List Char}
    (h : OnlyBlanks (';' :: cs)) : OnlyBlanks (';' :: c :: cs) := by
  have hcons : ∀ {text : List Char}, '\n' ∉ text → '\n' ∉ c :: text := fun ht hm =>
    (List.mem_cons.mp hm).elim (fun h => hc h.symm) ht
  cases h with
  | blank hblank => exact absurd hblank (by decide)
  | comment ht h => exact .comment (hcons ht) h
  | lastComment ht => exact .lastComment (hcons ht)

namespace Lexeme

theorem skip_comment {text : List Char} (ht : '\n' ∉ text) (cs : List Char) :
    skip true (text ++ cs) = skip true cs := by
  induction text with
  | nil => rfl
  | cons c text ih =>
    rw [List.mem_cons, not_or] at ht
    have hne : (c != '\n') = true := by simpa using fun h => ht.1 h.symm
    rw [List.cons_append, skip, hne, ih ht.2]

theorem skip_of_onlyBlanks {cs : List Char} (h : OnlyBlanks cs) : skip false cs = [] := by
  induction h with
  | nil => rfl
  | blank hc _ ih => rw [skip, if_pos hc, ih]
  | comment ht _ ih => rw [skip, if_neg (by decide), if_pos rfl, skip_comment ht]; exact ih
  | @lastComment text ht =>
    have hskip := skip_comment ht []
    rw [List.append_nil] at hskip
    rw [skip, if_neg (by decide), if_pos rfl, hskip]
    rfl

/-- What is passed over to the end is blank; inside a comment it is so behind its semicolon. -/
theorem onlyBlanks_of_skip {b : Bool} {cs : List Char} (h : skip b cs = []) :
    OnlyBlanks (if b then ';' :: cs else cs) := by
  induction cs generalizing b with
  | nil =>
    cases b with
    | true => exact .lastComment (by simp)
    | false => exact .nil
  | cons c cs ih =>
    cases b with
    | true =>
      rw [skip] at h
      by_cases hc : c = '\n'
      · subst hc
        exact @OnlyBlanks.comment [] _ (by simp) (ih h)
      · have hne : (c != '\n') = true := by simpa using hc
        rw [hne] at h
        exact (ih h).lengthen hc
    | false =>
      rw [skip] at h
      split at h
      · next hblank => exact .blank hblank (ih h)
      next hblank =>
      split at h
      · next hsemi => exact hsemi ▸ ih h
      · simp at h

/-- There is no lexeme left if and only if the text is blanks and comments. -/
theorem next_finished_iff {cs : List Char} : (next cs).1 = .finished ↔ OnlyBlanks cs := by
  rw [next]
  constructor
  · intro h
    split at h
    · next hskip => exact onlyBlanks_of_skip (b := false) hskip
    · next c cs' hskip =>
      obtain ⟨hblank, hsemi⟩ := skip_eq_cons hskip
      exact absurd h (start_ne_finished hblank hsemi cs')
  · intro h
    rw [skip_of_onlyBlanks h]

end Lexeme

/-- Only a text without any lexeme is found finished. -/
theorem Datum.read_finished_iff {cs : List Char} :
    (read cs).1 = .error .finished ↔ OnlyBlanks cs := by
  rw [← Lexeme.next_finished_iff, read, readWithin_eq]
  split
  · next hn => simp [hn]
  · next hn => simp [hn]
  · next hn => simp [hn]
  · next t rest hn =>
    cases hf : Progress.feed t [] with
    | error m => simp [hn]
    | ok p =>
      cases p with
      | done d => simp [hn, Progress.resume]
      | more stack =>
        have hs : stack ≠ [] := fun hnil => Progress.feed_ne_more_nil t [] (hnil ▸ hf)
        simp [hn, Progress.resume, readWithin_ne_finished hs]

/-- No phrase is a proper beginning of another, and none stands for two data. -/
theorem Derives.unique {ts us : List Token} {d d' : Datum} (h : Derives ts d)
    (h' : Derives (ts ++ us) d') : us = [] ∧ d = d' :=
  (takes_iff_derives.mpr h).unique (takes_iff_derives.mpr h')

end Scheme
