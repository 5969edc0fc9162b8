import Scheme.Proofs.Reading.Grammar

/-!
# Layout between lexemes

Lexemes are taken off a text one after the other, each from the position behind the last
(`Lexeme.nextFrom`, `callAt`). What is taken, and up to where, is settled by the characters that are
taken: the text behind them can be any other, as long as an atom ends in front of it
(`Lexeme.next_cut`, and `Lexeme.callAt_cut` for many calls).

Blanks and comments that are closed, `Layout`, are passed over wherever a lexeme may start. So they
can be put between any two lexemes. `layout_indifferent` says that the lexemes stay the same, and so
do their positions up to there, and that the positions behind are shifted by the length of what was
put in.

Data are cut out of a text in the same way (`Datum.readWithin_cut`): a text that starts with a datum
is some layout, the characters of the datum and the rest (`Datum.exists_text`).
-/

namespace Scheme

/-! ## Calls from position to position -/

/-- The answer to call number `n`, counted from 0, of a reader that is called again and again from
where it stopped; the first call is from position `k`. -/
def callAt {α : Type} (reader : Nat → α × Nat) (k : Nat) : Nat → α × Nat
  | 0 => reader k
  | n + 1 => reader (callAt reader k n).2

section

variable {α : Type} {reader : Nat → α × Nat} {k k' : Nat}

/-- Calls go on from where a call stopped. -/
theorem callAt_add (n m : Nat) :
    callAt reader k (n + 1 + m) = callAt reader (callAt reader k n).2 m := by
  induction m with
  | zero => rfl
  | succ m ih => rw [← Nat.add_assoc, callAt, ih, callAt]

theorem callAt_succ (n : Nat) : callAt reader k (n + 1) = callAt reader (reader k).2 n := by
  rw [Nat.add_comm n 1]
  exact callAt_add 0 n

theorem callAt_congr (h : reader k = reader k') (n : Nat) :
    callAt reader k n = callAt reader k' n := by
  cases n with
  | zero => exact h
  | succ n => rw [callAt_succ, callAt_succ, h]

end

/-! ## Lexemes by the characters that they take -/

/-- The text behind an atom may be exchanged for another in front of which atoms end. -/
theorem Delimited.replace {x y y' : List Char} (h : Delimited y → Delimited y')
    (hxy : Delimited (x ++ y)) : Delimited (x ++ y') := by
  cases x with
  | nil => exact h hxy
  | cons c x => exact .cons (hxy c rfl) _

namespace Lexeme

/-- What is skipped in front of a piece of text does not depend on what follows the piece. -/
theorem skip_cut {b : Bool} {piece x rest : List Char} {c : Char}
    (h : skip b (piece ++ rest) = c :: (x ++ rest)) : skip b piece = c :: x := by
  induction piece generalizing b with
  | nil =>
    have hle := skip_length_le b rest
    rw [← List.nil_append rest, h] at hle
    simp only [List.length_cons, List.length_append, List.length_nil] at hle
    omega
  | cons d piece ih =>
    cases b with
    | true => exact ih h
    | false =>
      simp only [List.cons_append, skip] at h ⊢
      split at h
      · next hblank =>
        rw [if_pos hblank]
        exact ih h
      next hblank =>
      split at h
      · next hsemi =>
        rw [if_neg hblank, if_pos hsemi]
        exact ih h
      · next hsemi =>
        obtain ⟨rfl, hx⟩ := List.cons.inj h
        rw [if_neg hblank, if_neg hsemi, List.append_cancel_right hx]

theorem stringBody_cut {read x rest body : List Char}
    (h : stringBody read (x ++ rest) = some (body, rest)) :
    stringBody read x = some (body, []) := by
  fun_induction stringBody read x with
  | case1 => exact absurd (stringBody_length_lt h) (Nat.lt_irrefl _)
  | case2 read x =>
    rw [List.cons_append, stringBody_quote, Option.some.injEq, Prod.mk.injEq] at h
    rw [h.1, List.append_left_eq_self.mp h.2]
  | case3 read =>
    -- The escaped character would be the first of the text behind the string.
    have hlt := stringBody_length_lt h
    cases rest with
    | nil => simp [stringBody] at h
    | cons c rest =>
      rw [List.cons_append, List.nil_append, stringBody_escape] at h
      have hlt := stringBody_length_lt h
      simp only [List.length_cons] at hlt
      omega
  | case4 read c x ih =>
    rw [List.cons_append, List.cons_append, stringBody_escape] at h
    exact ih h
  | case5 read c x hq hone hmore ih =>
    rw [List.cons_append, stringBody_plain hq (ne_backslash hone hmore)] at h
    exact ih h

/-- An atom is all that stands in front of what is left, and what is left ends it. -/
theorem atom_cut {x rest : List Char} (h : (x ++ rest).dropWhile (!Token.isDelimiter ·) = rest) :
    (∀ c ∈ x, Token.isDelimiter c = false) ∧ Delimited rest := by
  have htake : (x ++ rest).takeWhile (!Token.isDelimiter ·) = x := by
    have happend := List.takeWhile_append_dropWhile (p := (!Token.isDelimiter ·)) (l := x ++ rest)
    rw [h] at happend
    exact List.append_cancel_right happend
  refine ⟨fun c hc => ?_, fun c hc => ?_⟩
  · rw [← htake] at hc
    simpa using List.mem_takeWhile_imp hc
  · have hhead := List.head?_dropWhile_not (!Token.isDelimiter ·) (x ++ rest)
    rw [h, Option.mem_def.mp hc] at hhead
    simpa using hhead

/-- A lexeme that ends where a piece of text ends is the same whatever follows, as long as its end
is still one. -/
theorem start_cut {c : Char} {x rest rest' : List Char} {l : Lexeme}
    (hb : Text.isBlank c = false) (hs : c ≠ ';') (h : start c (x ++ rest) = (l, rest))
    (hl : l ≠ .unclosed) (hr : Delimited rest → Delimited rest') :
    start c (x ++ rest') = (l, rest') := by
  rcases start_cases hb hs with ⟨k, -, hstart⟩ | rfl | hc
  · rw [hstart, Prod.mk.injEq] at h
    rw [hstart, h.1, List.append_left_eq_self.mp h.2, List.nil_append]
  · rw [start_quote] at h ⊢
    split at h
    · next body r hbody =>
      obtain ⟨rfl, rfl⟩ := Prod.mk.inj h
      rw [stringBody_append (stringBody_cut hbody), List.nil_append]
    · exact absurd (Prod.mk.inj h).1.symm hl
  · rw [start_atom hc, Prod.mk.injEq] at h
    obtain ⟨hx, hrest⟩ := atom_cut h.2
    rw [start_atom hc, takeWhile_atom hx (hr hrest), dropWhile_atom hx (hr hrest), ← h.1,
      takeWhile_atom hx hrest]

/-- A lexeme that is no open string is taken off any text that starts with its characters, if it
ends where these do. -/
theorem next_cut {piece rest rest' : List Char} {l : Lexeme}
    (h : next (piece ++ rest) = (l, rest)) (hl : l ≠ .unclosed) (hf : l ≠ .finished)
    (hr : Delimited rest → Delimited rest') : next (piece ++ rest') = (l, rest') := by
  rw [next] at h
  split at h
  · exact absurd (Prod.mk.inj h).1.symm hf
  · next c body hskip =>
    obtain ⟨hblank, hsemi⟩ := skip_eq_cons hskip
    obtain ⟨x, rfl⟩ : rest <:+ body := by
      simpa [h] using @start_suffix c body hblank hsemi
    rw [next, skip_append_cons (skip_cut hskip)]
    exact start_cut hblank hsemi h hl hr

end Lexeme

/-- A datum is read from any text that starts with its characters, if the last lexeme ends where
these do. -/
theorem Datum.readWithin_cut {stack : List OpenExpr} {x rest rest' : List Char} {d : Datum}
    (h : readWithin stack (x ++ rest) = (.ok d, rest)) (hr : Delimited rest → Delimited rest') :
    readWithin stack (x ++ rest') = (.ok d, rest') := by
  generalize hcs : x ++ rest = cs at h
  fun_induction readWithin stack cs generalizing x with
  | case1 => simp at h
  | case2 => simp at h
  | case3 => simp at h
  | case4 => simp at h
  | case5 stack cs t rest₁ hn hlt d' hf =>
    obtain ⟨hd, rfl⟩ := Prod.mk.inj h
    obtain rfl := Except.ok.inj hd
    subst hcs
    exact readWithin_token (Lexeme.next_cut hn (by simp) (by simp) hr) hf
  | case6 stack cs t rest₁ hn hlt stack' hf ih =>
    obtain ⟨x', rfl⟩ : rest <:+ rest₁ := by simpa [h] using readWithin_suffix stack' rest₁
    obtain ⟨piece, hpiece⟩ : x' ++ rest <:+ cs := by simpa [hn] using Lexeme.next_suffix cs
    obtain rfl : x = piece ++ x' := by
      rw [← hcs, ← List.append_assoc] at hpiece
      exact (List.append_cancel_right hpiece).symm
    subst hcs
    rw [List.append_assoc] at hn ⊢
    rw [readWithin_token (Lexeme.next_cut hn (by simp) (by simp) (Delimited.replace hr)) hf]
    exact ih rfl h

namespace Lexeme

/-! ## Lexemes from position to position -/

/-- The next lexeme from a position of a text on. It comes with the position behind what was
taken. -/
def nextFrom (cs : List Char) (k : Nat) : Lexeme × Nat :=
  let taken := next (cs.drop k)
  (taken.1, cs.length - taken.2.length)

/-- Lexemes behind a piece of text are the same as without it, at shifted positions. -/
theorem nextFrom_append (front cs : List Char) (k : Nat) :
    nextFrom (front ++ cs) (front.length + k) =
      ((nextFrom cs k).1, front.length + (nextFrom cs k).2) := by
  have hle : (next (cs.drop k)).2.length ≤ cs.length :=
    (Datum.next_rest_le _).trans (List.drop_sublist k cs).length_le
  simp only [nextFrom, List.drop_length_add_append, List.length_append]
  congr 1
  omega

/-- The same holds of the lexemes taken one after the other. -/
theorem callAt_append (front cs : List Char) (k n : Nat) :
    callAt (nextFrom (front ++ cs)) (front.length + k) n =
      ((callAt (nextFrom cs) k n).1, front.length + (callAt (nextFrom cs) k n).2) := by
  induction n with
  | zero => exact nextFrom_append front cs k
  | succ n ih => rw [callAt, ih, callAt, nextFrom_append]

theorem callAt_nil (n : Nat) : callAt (nextFrom []) 0 n = (.finished, 0) := by
  induction n with
  | zero => rfl
  | succ n ih => rw [callAt, ih]; rfl

theorem callAt_le (cs : List Char) (k n : Nat) : (callAt (nextFrom cs) k n).2 ≤ cs.length := by
  cases n <;> exact Nat.sub_le _ _

/-- A lexeme that takes the first piece of a text leaves the position behind this piece. -/
theorem nextFrom_of_next {piece rest : List Char} {l : Lexeme}
    (h : next (piece ++ rest) = (l, rest)) : nextFrom (piece ++ rest) 0 = (l, piece.length) := by
  simp [nextFrom, h]

/-- The characters that the first lexeme of a text takes. -/
theorem exists_piece (cs : List Char) :
    ∃ piece rest l, cs = piece ++ rest ∧ next (piece ++ rest) = (l, rest) := by
  obtain ⟨piece, hpiece⟩ := next_suffix cs
  exact ⟨piece, (next cs).2, (next cs).1, hpiece.symm, by rw [hpiece]⟩

/-- Behind an open string, and behind the last lexeme, there is no text. -/
theorem rest_eq_nil {cs rest : List Char} {l : Lexeme} (h : next cs = (l, rest))
    (hl : l = .unclosed ∨ l = .finished) : rest = [] := by
  rcases hl with rfl | rfl
  · obtain ⟨body, hskip, hbody⟩ := next_unclosed (congrArg Prod.fst h)
    rw [next, hskip] at h
    simp only [start_quote, hbody] at h
    exact (Prod.mk.inj h).2.symm
  · have hskip := skip_of_onlyBlanks (next_finished_iff.mp (congrArg Prod.fst h))
    rw [next, hskip] at h
    exact (Prod.mk.inj h).2.symm

/-- The lexemes that take the characters `x` off a text take them off any other text that starts
with `x`, if the last of them ends where `x` does. -/
theorem callAt_cut {x y y' : List Char} {l : Lexeme} {j : Nat}
    (h : callAt (nextFrom (x ++ y)) 0 j = (l, x.length)) (hl : l ≠ .unclosed) (hf : l ≠ .finished)
    (hy : Delimited y → Delimited y') :
    ∀ n ≤ j, callAt (nextFrom (x ++ y')) 0 n = callAt (nextFrom (x ++ y)) 0 n := by
  induction j generalizing x with
  | zero =>
    intro n hn
    obtain rfl := Nat.le_zero.mp hn
    obtain ⟨piece, rest, l₀, hcut, hnext⟩ := exists_piece (x ++ y)
    have hfirst : nextFrom (x ++ y) 0 = (l₀, piece.length) := hcut ▸ nextFrom_of_next hnext
    obtain ⟨rfl, hlength⟩ := Prod.mk.inj (h.symm.trans hfirst)
    obtain ⟨rfl, rfl⟩ := List.append_inj hcut hlength
    exact (nextFrom_of_next (next_cut hnext hl hf hy)).trans h.symm
  | succ j ih =>
    obtain ⟨piece, rest, l₀, hcut, hnext⟩ := exists_piece (x ++ y)
    have hfirst : nextFrom (piece ++ rest) 0 = (l₀, piece.length) := nextFrom_of_next hnext
    have hbehind : callAt (nextFrom (x ++ y)) 0 (j + 1) = ((callAt (nextFrom rest) 0 j).1,
        piece.length + (callAt (nextFrom rest) 0 j).2) := by
      rw [hcut, callAt_succ, hfirst]
      exact callAt_append piece rest 0 j
    obtain ⟨hlast, hlength⟩ := Prod.mk.inj (h.symm.trans hbehind)
    -- The first lexeme ends inside `x`, and the others take the rest of `x`.
    obtain ⟨x', rfl⟩ : piece <+: x :=
      List.prefix_of_prefix_length_le ⟨rest, hcut.symm⟩ (List.prefix_append x y) (by omega)
    obtain rfl : rest = x' ++ y := by
      rw [List.append_assoc] at hcut
      exact (List.append_cancel_left hcut).symm
    have hsolid : ¬(l₀ = .unclosed ∨ l₀ = .finished) := by
      -- There would be no text behind it, and only the end could follow.
      intro hl₀
      rw [rest_eq_nil hnext hl₀, callAt_nil] at hlast
      exact hf hlast
    rw [not_or] at hsolid
    have hrest : callAt (nextFrom (x' ++ y)) 0 j = (l, x'.length) := by
      refine Prod.ext hlast.symm ?_
      rw [List.length_append] at hlength
      exact (Nat.add_left_cancel hlength).symm
    have hfirst' : nextFrom (piece ++ (x' ++ y')) 0 = (l₀, piece.length) :=
      nextFrom_of_next (next_cut hnext hsolid.1 hsolid.2 (Delimited.replace hy))
    intro n hn
    rw [List.append_assoc, List.append_assoc]
    cases n with
    | zero => exact hfirst'.trans hfirst.symm
    | succ n =>
      rw [callAt_succ, callAt_succ, hfirst, hfirst']
      calc callAt (nextFrom (piece ++ (x' ++ y'))) piece.length n
          = ((callAt (nextFrom (x' ++ y')) 0 n).1,
              piece.length + (callAt (nextFrom (x' ++ y')) 0 n).2) := callAt_append piece _ 0 n
        _ = ((callAt (nextFrom (x' ++ y)) 0 n).1,
              piece.length + (callAt (nextFrom (x' ++ y)) 0 n).2) := by
          rw [ih hrest n (Nat.le_of_succ_le_succ hn)]
        _ = callAt (nextFrom (piece ++ (x' ++ y))) piece.length n :=
          (callAt_append piece _ 0 n).symm

end Lexeme

/-! ## Layout -/

/-- Blanks and comments, each comment with the newline that ends it. -/
inductive Layout : List Char → Prop
  | nil : Layout []
  | blank {c : Char} {cs : List Char} (hc : Text.isBlank c = true) (h : Layout cs) :
      Layout (c :: cs)
  | comment {text cs : List Char} (ht : '\n' ∉ text) (h : Layout cs) :
      Layout (';' :: (text ++ '\n' :: cs))

namespace Layout

/-- Layout ends an atom. -/
theorem delimited {w : List Char} (hw : Layout w) {y : List Char} (hy : Delimited y) :
    Delimited (w ++ y) := by
  cases hw with
  | nil => exact hy
  | blank hc _ => exact .cons (by simp [Token.isDelimiter, hc]) _
  | comment _ _ => exact .cons (by decide) _

/-- Layout in front of a text is skipped. -/
theorem skip_append {w : List Char} (hw : Layout w) (cs : List Char) :
    Lexeme.skip false (w ++ cs) = Lexeme.skip false cs := by
  induction hw with
  | nil => rfl
  | blank hc _ ih => rw [List.cons_append, Lexeme.skip, if_pos hc, ih]
  | comment ht _ ih =>
    rw [List.cons_append, List.append_assoc, Lexeme.skip, if_neg (by decide), if_pos rfl,
      Lexeme.skip_comment ht]
    exact ih

theorem next_append {w : List Char} (hw : Layout w) (cs : List Char) :
    Lexeme.next (w ++ cs) = Lexeme.next cs := by
  rw [Lexeme.next, hw.skip_append, ← Lexeme.next]

theorem onlyBlanks {w : List Char} (hw : Layout w) : OnlyBlanks w := by
  induction hw with
  | nil => exact .nil
  | blank hc _ ih => exact .blank hc ih
  | comment ht _ ih => exact .comment ht ih

/-- A comment may have one more character at its start. -/
theorem lengthen {c : Char} (hc : c ≠ '\n') {cs : List Char} (h : Layout (';' :: cs)) :
    Layout (';' :: c :: cs) := by
  cases h with
  | blank hblank _ => exact absurd hblank (by decide)
  | @comment text cs ht h =>
    have hcons : '\n' ∉ c :: text := fun hm => (List.mem_cons.mp hm).elim (fun h => hc h.symm) ht
    exact .comment hcons h

/-- What is passed over in front of a lexeme is layout; inside a comment it is so behind its
semicolon. -/
theorem of_skip {b : Bool} {cs rest : List Char} {c : Char} (h : Lexeme.skip b cs = c :: rest) :
    ∃ w, cs = w ++ c :: rest ∧ Layout (if b then ';' :: w else w) := by
  induction cs generalizing b with
  | nil => simp [Lexeme.skip] at h
  | cons d cs ih =>
    cases b with
    | true =>
      rw [Lexeme.skip] at h
      obtain ⟨w, rfl, hw⟩ := ih h
      refine ⟨d :: w, rfl, ?_⟩
      by_cases hd : d = '\n'
      · subst hd
        exact @Layout.comment [] _ (by simp) hw
      · have hne : (d != '\n') = true := by simpa using hd
        rw [hne] at hw
        exact hw.lengthen hd
    | false =>
      rw [Lexeme.skip] at h
      split at h
      · next hblank =>
        obtain ⟨w, rfl, hw⟩ := ih h
        exact ⟨d :: w, rfl, .blank hblank hw⟩
      next hblank =>
      split at h
      · next hsemi =>
        obtain ⟨w, rfl, hw⟩ := ih h
        exact ⟨d :: w, rfl, hsemi ▸ hw⟩
      · exact ⟨[], h, .nil⟩

/-- Layout in front of a text does not change the datum. -/
theorem read_append {w : List Char} (hw : Layout w) (cs : List Char) :
    Datum.read (w ++ cs) = Datum.read cs := by
  rw [Datum.read, Datum.readWithin_eq, hw.next_append, ← Datum.readWithin_eq, ← Datum.read]

/-- What is read behind some layout is what was read without it, at shifted positions. -/
theorem callAt_shift {w : List Char} (hw : Layout w) (x y : List Char) (n : Nat) :
    callAt (Lexeme.nextFrom (x ++ w ++ y)) x.length n =
      ((callAt (Lexeme.nextFrom (x ++ y)) x.length n).1,
        (callAt (Lexeme.nextFrom (x ++ y)) x.length n).2 + w.length) := by
  have hskip : Lexeme.nextFrom (x ++ w ++ y) x.length =
      Lexeme.nextFrom (x ++ w ++ y) (x ++ w).length := by
    simp only [Lexeme.nextFrom, List.drop_left]
    rw [List.append_assoc, List.drop_left, hw.next_append]
  have hbehind := Lexeme.callAt_append (x ++ w) y 0 n
  have hwithout := Lexeme.callAt_append x y 0 n
  rw [Nat.add_zero] at hbehind hwithout
  rw [callAt_congr hskip, hbehind, hwithout, List.length_append]
  simp only [Prod.mk.injEq, true_and]
  omega

end Layout

/-- The characters of a datum, without layout in front of them and without anything behind. -/
structure Datum.IsText (text : List Char) (d : Datum) : Prop where
  read_eq : read text = (.ok d, [])
  skip_eq : Lexeme.skip false text = text

/-- A text that starts with a datum is some layout, the characters of the datum and the rest. -/
theorem Datum.exists_text {cs rest : List Char} {d : Datum} (h : read cs = (.ok d, rest)) :
    ∃ w text, cs = w ++ (text ++ rest) ∧ Layout w ∧ IsText text d := by
  obtain ⟨c, body, hskip⟩ : ∃ c body, Lexeme.skip false cs = c :: body := by
    cases hskip : Lexeme.skip false cs with
    | nil =>
      rw [read, readWithin_eq, Lexeme.next, hskip] at h
      simp at h
    | cons c body => exact ⟨c, body, rfl⟩
  obtain ⟨w, rfl, hw : Layout w⟩ := Layout.of_skip hskip
  rw [hw.read_append] at h
  obtain ⟨text, htext⟩ : rest <:+ c :: body := by
    have hsuffix : (read (c :: body)).2 <:+ c :: body := readWithin_suffix [] _
    rwa [h] at hsuffix
  have hlt := rest_lt_of_read h
  cases text with
  | nil =>
    rw [← htext] at hlt
    exact absurd hlt (Nat.lt_irrefl _)
  | cons c' text =>
    obtain ⟨rfl, rfl⟩ := List.cons.inj htext
    refine ⟨w, c' :: text, rfl, hw, ⟨?_, ?_⟩⟩
    · have hcut := @readWithin_cut [] (c' :: text) rest [] d h fun _ => .nil
      rwa [List.append_nil] at hcut
    · obtain ⟨hblank, hsemi⟩ := Lexeme.skip_eq_cons hskip
      simp [Lexeme.skip, hblank, hsemi]

/-- The position of a text behind its first `j` lexemes, the last of which is a token or an invalid
atom. In front of all of them it is 0. -/
def Boundary (s : List Char) : (j p : Nat) → Prop
  | 0, p => p = 0
  | j + 1, p => ∃ l, callAt (Lexeme.nextFrom s) 0 j = (l, p) ∧
      ((∃ t, l = .token t) ∨ ∃ text, l = .invalid text)

/-- Layout between lexemes does not matter. If it is put into a text behind its first `j` lexemes,
then the lexemes are the same as before, with errors and the end among them, each at the same
position if it is one of these and at a position shifted by the length of the layout if it is a
later one. -/
theorem layout_indifferent {s w : List Char} {j p : Nat} (hw : Layout w) (hp : Boundary s j p) :
    let s' := s.take p ++ w ++ s.drop p
    (∀ n < j, callAt (Lexeme.nextFrom s') 0 n = callAt (Lexeme.nextFrom s) 0 n) ∧
    ∀ n ≥ j, callAt (Lexeme.nextFrom s') 0 n =
      ((callAt (Lexeme.nextFrom s) 0 n).1, (callAt (Lexeme.nextFrom s) 0 n).2 + w.length) := by
  intro s'
  cases j with
  | zero =>
    obtain rfl : p = 0 := hp
    exact ⟨by simp, fun n _ => hw.callAt_shift [] s n⟩
  | succ j =>
    obtain ⟨l, hlast, hl⟩ := hp
    have hle : p ≤ s.length := by simpa [hlast] using Lexeme.callAt_le s 0 j
    have htake : (s.take p).length = p := List.length_take_of_le hle
    have hsolid : l ≠ .unclosed ∧ l ≠ .finished := by
      rcases hl with ⟨t, rfl⟩ | ⟨text, rfl⟩ <;> simp
    have hsame : ∀ n ≤ j, callAt (Lexeme.nextFrom s') 0 n = callAt (Lexeme.nextFrom s) 0 n := by
      have hcut := @Lexeme.callAt_cut (s.take p) (s.drop p) (w ++ s.drop p) l j
        (by rw [List.take_append_drop, htake, hlast]) hsolid.1 hsolid.2 hw.delimited
      rwa [List.take_append_drop, ← List.append_assoc] at hcut
    refine ⟨fun n hn => hsame n (Nat.le_of_lt_succ hn), fun n hn => ?_⟩
    obtain ⟨m, rfl⟩ := Nat.exists_eq_add_of_le hn
    rw [callAt_add, callAt_add, hsame j (Nat.le_refl j), hlast]
    have hshift := hw.callAt_shift (s.take p) (s.drop p) m
    rwa [List.take_append_drop, htake] at hshift

/-- A comment between an invalid atom and the string right behind it. -/
theorem layout_indifferent_comment :
    let s := "#a\"b".toList
    let s' := "#a ;(\n\"b".toList
    Boundary s 1 2 ∧
    callAt (Lexeme.nextFrom s') 0 0 = (.invalid "#a", 2) ∧
    callAt (Lexeme.nextFrom s) 0 1 = (.unclosed, 4) ∧
    callAt (Lexeme.nextFrom s') 0 1 = (.unclosed, 8) := by
  intro s s'
  have hp : Boundary s 1 2 := ⟨.invalid "#a", rfl, .inr ⟨"#a", rfl⟩⟩
  have hw : Layout " ;(\n".toList := .blank (by decide) (@Layout.comment ['('] _ (by decide) .nil)
  obtain ⟨hbefore, hbehind⟩ := layout_indifferent hw hp
  exact ⟨hp, hbefore 0 (by decide), rfl, hbehind 1 (by decide)⟩

end Scheme
