import Mathlib.Data.Finset.Card
import Mathlib.Data.List.Sort
import Mathlib.Data.String.Basic
import Mathlib.Logic.Relation
import Scheme.Proofs.Persistence
import Scheme.Proofs.Scoping
import Scheme.Proofs.Texts

/-!
# The text of a frame

A frame keeps its bindings in the order in which the names were first bound, and its text puts them
in another order: that of their own texts, `name: value`. A name is bound once in a frame
(`Store.Forest`), so the bindings are determined by the look-ups up to their order
(`Bindings.perm_of_lookup`), and sorting takes that away (`Store.sortedTexts_eq_of_perm`). The text
of a frame is therefore the same after any definitions that leave the same values.

The text of a frame has the text of its parent in it, and those of the frames among the values it
binds (`Store.Encloses`). If a frame came to show itself, its text would have to be longer than
itself. The texts of all other frames end (`Store.TextEnds`), and the nesting to which
`Store.frameText` writes them is no limit for them: along `Store.Encloses` the number of the frames
still to come gets smaller (`Store.TextEnds.card_lt`), so each text is made of the whole texts of
the frames that it shows (`Store.TextEnds.frameText_eq`).

Texts are sorted by their characters, which is the order of their bytes in UTF-8 (`utf8_le`).
-/

namespace Scheme

/-! ## The order of bytes -/

/-- The bytes of a text in UTF-8. -/
def utf8 (s : String) : List UInt8 := s.toByteArray.data.toList

/-- The bytes of a text are those of its characters, in order. -/
theorem utf8_eq (s : String) : utf8 s = s.toList.flatMap String.utf8EncodeChar := by
  rw [utf8, ← String.utf8Encode_toList, List.utf8Encode, List.data_toByteArray,
    List.toList_toArray]

/-- Byte sequences are compared by their first bytes, and by the rest if these are the same. -/
theorem byte_cons_lt_iff {m n : Nat} (hm : m < 256) (hn : n < 256) (l r : List UInt8) :
    UInt8.ofNat m :: l < UInt8.ofNat n :: r ↔ m < n ∨ m = n ∧ l < r := by
  rw [List.cons_lt_cons_iff, UInt8.lt_iff_toNat_lt, ← UInt8.toNat_inj, UInt8.toNat_ofNat',
    UInt8.toNat_ofNat', Nat.mod_eq_of_lt hm, Nat.mod_eq_of_lt hn]

/-- A smaller character is smaller in one of its bytes, the bytes before it being the same. -/
theorem utf8EncodeChar_lt {c d : Char} (h : c < d) (l r : List UInt8) :
    String.utf8EncodeChar c ++ l < String.utf8EncodeChar d ++ r := by
  have h : c.toNat < d.toNat := h
  have hd : d.toNat < 0x110000 := by
    rcases d.valid with hd | hd
    · exact hd.trans (by decide)
    · exact hd.2
  simp only [String.utf8EncodeChar, Char.toNat_val]
  generalize c.toNat = m at *
  generalize d.toNat = n at *
  -- Where both take as many bytes, all but the first are digits to the base 64.
  have hdigits (k : Nat) : k / 64 / 64 = k / 4096 ∧ k / 4096 / 64 = k / 262144 :=
    ⟨Nat.div_div_eq_div_mul k 64 64, Nat.div_div_eq_div_mul k 4096 64⟩
  have hm := hdigits m
  have hn := hdigits n
  split_ifs
  all_goals
    simp (disch := omega) only [List.cons_append, List.nil_append, byte_cons_lt_iff,
      Nat.mod_eq_of_lt]
    omega

/-- Encoding keeps the order of character sequences. -/
theorem flatMap_utf8EncodeChar_lt {cs ds : List Char} (h : cs < ds) :
    cs.flatMap String.utf8EncodeChar < ds.flatMap String.utf8EncodeChar := by
  induction h with
  | nil =>
    obtain ⟨b, bs, hb⟩ := List.exists_cons_of_ne_nil String.utf8EncodeChar_ne_nil
    rw [List.flatMap_cons, hb]
    exact List.nil_lt_cons b _
  | rel h => exact utf8EncodeChar_lt h _ _
  | cons _ ih => exact List.append_left_lt ih

/-- The order of texts by characters is their order by bytes. -/
theorem utf8_le {a b : String} (h : a ≤ b) : utf8 a ≤ utf8 b := by
  rcases h.lt_or_eq with h | rfl
  · rw [utf8_eq, utf8_eq]
    exact List.le_of_lt (flatMap_utf8EncodeChar_lt h)
  · exact List.le_refl _

/-! ## Bindings up to their order -/

namespace Bindings

theorem mem_iff_lookup {b : Bindings} (hn : b.names.Nodup) {x : String} {v : Value} :
    (x, v) ∈ b ↔ b.lookup x = some v := by
  refine ⟨lookup_of_mem hn, fun h => ?_⟩
  obtain ⟨l, r, rfl, -⟩ := List.lookup_eq_some_iff.mp h
  simp

/-- Bindings with the same value under every name are the same up to their order, if no name comes
twice. -/
theorem perm_of_lookup {b b' : Bindings} (hn : b.names.Nodup) (hn' : b'.names.Nodup)
    (h : ∀ x, b.lookup x = b'.lookup x) : b.Perm b' := by
  rw [List.perm_ext_iff_of_nodup (.of_map _ hn) (.of_map _ hn')]
  rintro ⟨x, v⟩
  rw [mem_iff_lookup hn, mem_iff_lookup hn', h x]

theorem nodup_names_put {b : Bindings} (h : b.names.Nodup) (x : String) (v : Value) :
    (b.put x v).names.Nodup := by
  rw [names_put]
  split
  · exact h
  · next hx => exact List.nodup_append_comm.mp (List.nodup_cons.mpr ⟨hx, h⟩)

end Bindings

namespace Store

theorem sortedTexts_pairwise (l : List String) : (sortedTexts l).Pairwise (· ≤ ·) :=
  List.sortedLE_mergeSort.pairwise

/-- A sorted list with the same texts is what sorting gives. -/
theorem sortedTexts_eq {l l' : List String} (h : l.Perm l') (hl' : l'.Pairwise (· ≤ ·)) :
    sortedTexts l = l' :=
  ((List.mergeSort_perm l _).trans h).eq_of_pairwise (fun _ _ _ _ => le_antisymm)
    (sortedTexts_pairwise l) hl'

/-- Sorting does not depend on the order in which the texts come. -/
theorem sortedTexts_eq_of_perm {l l' : List String} (h : l.Perm l') :
    sortedTexts l = sortedTexts l' :=
  sortedTexts_eq (h.trans (List.mergeSort_perm l' _).symm) (sortedTexts_pairwise l')

/-- The bindings of a frame. -/
def bindings (s : Store) (f : FrameId) : Bindings :=
  match s.frames[f]? with
  | some fr => fr.bindings
  | none => []

theorem lookup_bindings (s : Store) (f : FrameId) (x : String) :
    (s.bindings f).lookup x = s.local? f x := by
  rw [bindings, local?]
  cases s.frames[f]? with
  | none => rfl
  | some fr => rfl

/-! ## Forests and definitions -/

/-- Every frame was made after its parent, and no frame binds a name twice. -/
structure Forest (s : Store) : Prop where
  older {f p : FrameId} : s.parentOf f = some p → p < f
  distinct (f : FrameId) : (s.bindings f).names.Nodup

theorem forest_single : single.Forest where
  older {f p} h := by
    rcases f with - | f
    · simp [parentOf, single] at h
    · simp [parentOf, single] at h
  distinct f := by
    rcases f with - | f
    · simp [bindings, single, Bindings.names]
    · simp [bindings, single, Bindings.names]

theorem bindings_push (s : Store) (fr : Frame) (f : FrameId) :
    (s.push fr).bindings f = if f = s.size then fr.bindings else s.bindings f := by
  rw [bindings, frames_push]
  by_cases hf : f = s.size
  · rw [if_pos hf, if_pos hf]
  · rw [if_neg hf, if_neg hf, bindings]

/-- A frame with a parent that exists, and with no name twice, can be added to a forest. -/
theorem Forest.push {s : Store} (hs : s.Forest) {fr : Frame} (hp : ∀ p ∈ fr.parent, p < s.size)
    (hn : fr.bindings.names.Nodup) : (s.push fr).Forest where
  older {f p} h := by
    rw [parentOf_push] at h
    split at h
    · next hf => exact hf ▸ hp p h
    · exact hs.older h
  distinct f := by
    rw [bindings_push]
    split
    · exact hn
    · exact hs.distinct f

/-- Definitions keep a forest. -/
theorem Forest.define {s : Store} (hs : s.Forest) (f : FrameId) (x : String) (v : Value) :
    (s.define f x v).Forest where
  older h := hs.older (by rwa [parentOf_define] at h)
  distinct g := by
    have hn := hs.distinct g
    rw [bindings, frames_define]
    rw [bindings] at hn
    by_cases hf : f = g
    · rw [if_pos hf]
      cases hg : s.frames[g]? with
      | none => exact .nil
      | some fr =>
        rw [hg] at hn
        exact Bindings.nodup_names_put hn x v
    · rwa [if_neg hf]

/-- A name to be bound in a frame. -/
structure Definition where
  frame : FrameId
  name : String
  value : Value

/-- Carries out definitions, one after the other. -/
def defineAll (s : Store) (ds : List Definition) : Store :=
  ds.foldl (fun s d => s.define d.frame d.name d.value) s

/-- The value in the last of the definitions of a name in a frame. -/
def latest (ds : List Definition) (f : FrameId) (x : String) : Option Value :=
  (ds.reverse.find? fun d => d.frame = f ∧ d.name = x).map Definition.value

theorem defineAll_append (s : Store) (ds : List Definition) (d : Definition) :
    s.defineAll (ds ++ [d]) = (s.defineAll ds).define d.frame d.name d.value := by
  simp [defineAll]

/-- A further definition of a name in a frame hides the earlier ones of this name there, and nothing
else. -/
theorem latest_append (ds : List Definition) (d : Definition) (f : FrameId) (x : String) :
    latest (ds ++ [d]) f x = if d.frame = f ∧ d.name = x then some d.value else latest ds f x := by
  rw [latest, List.reverse_append, List.reverse_singleton, List.singleton_append, List.find?_cons]
  by_cases h : d.frame = f ∧ d.name = x
  · simp [h]
  · simp [h, latest]

section defineAll

variable (s : Store) (ds : List Definition)

theorem size_defineAll : (s.defineAll ds).size = s.size := by
  induction ds using List.reverseRecOn with
  | nil => rfl
  | append_singleton ds d ih => rw [defineAll_append, size_define, ih]

theorem parentOf_defineAll (f : FrameId) : (s.defineAll ds).parentOf f = s.parentOf f := by
  induction ds using List.reverseRecOn with
  | nil => rfl
  | append_singleton ds d ih => rw [defineAll_append, parentOf_define, ih]

/-- Behind some definitions a name has the value of the latest of them, or else the value it had. -/
theorem local?_defineAll {f : FrameId} (hf : f < s.size) (x : String) :
    (s.defineAll ds).local? f x = (latest ds f x).or (s.local? f x) := by
  induction ds using List.reverseRecOn with
  | nil => rfl
  | append_singleton ds d ih =>
    rw [defineAll_append, latest_append]
    by_cases hd : d.frame = f
    · subst hd
      rw [local?_define _ _ _ _ _ _ (by rwa [size_defineAll]), ih]
      by_cases hx : d.name = x
      · simp [hx]
      · simp [hx, Ne.symm hx]
    · rw [if_neg (fun h => hd h.1), ← ih, local?, local?, frames_define, if_neg hd]

/-- Any number of definitions keep a forest. -/
theorem Forest.defineAll {s : Store} (hs : s.Forest) : (s.defineAll ds).Forest := by
  induction ds using List.reverseRecOn with
  | nil => exact hs
  | append_singleton ds d ih =>
    rw [defineAll_append]
    exact ih.define d.frame d.name d.value

end defineAll

/-! ## The text to a given nesting -/

/-- The text of a binding, given those of frames. -/
def entry (t : FrameId → String) (e : String × Value) : String :=
  e.1 ++ ": " ++ e.2.written t

/-- The text of a frame with these texts of its bindings and its parent. -/
def nested (entries : List String) (parent : String) : String :=
  "<\x7b" ++ ", ".intercalate entries ++ "\x7d -> " ++ parent ++ ">"

/-- The text of the global frame names it. -/
theorem textWithin_global {s : Store} {f : FrameId} (h : s.parentOf f = none) (n : Nat) :
    s.textWithin (n + 1) f = "<Global Frame>" := by
  rw [parentOf] at h
  rw [textWithin]
  split
  · next p b hfr => simp [hfr] at h
  · rfl

/-- The text of any other frame is that of its bindings, sorted, and that of its parent. -/
theorem textWithin_nested {s : Store} {f p : FrameId} (h : s.parentOf f = some p) (n : Nat) :
    s.textWithin (n + 1) f =
      nested (sortedTexts ((s.bindings f).map (entry (s.textWithin n)))) (s.textWithin n p) := by
  obtain ⟨⟨parent, b⟩, hfr, rfl⟩ := Option.bind_eq_some_iff.mp h
  rw [textWithin, bindings, hfr]
  rfl

/-- The text is found from the parents and the look-ups. -/
theorem textWithin_eq_of_local? {s t : Store} (hs : s.Forest) (ht : t.Forest)
    (hparent : ∀ f, s.parentOf f = t.parentOf f) (hlocal : ∀ f x, s.local? f x = t.local? f x)
    (n : Nat) : s.textWithin n = t.textWithin n := by
  induction n with
  | zero => rfl
  | succ n ih =>
    funext f
    cases hp : s.parentOf f with
    | none => rw [textWithin_global hp, textWithin_global (hparent f ▸ hp)]
    | some p =>
      have hperm : (s.bindings f).Perm (t.bindings f) :=
        Bindings.perm_of_lookup (hs.distinct f) (ht.distinct f) fun x => by
          rw [lookup_bindings, lookup_bindings, hlocal f x]
      rw [textWithin_nested hp, textWithin_nested (hparent f ▸ hp), ih,
        sortedTexts_eq_of_perm (hperm.map _)]

/-! ## Texts that end -/

/-- The text of the second frame is part of that of the first: as the text of its parent, or in that
of a value it binds. -/
def Encloses (s : Store) (f g : FrameId) : Prop :=
  ∃ p, s.parentOf f = some p ∧ (g = p ∨ ∃ e ∈ s.bindings f, .env g ∈ e.2.parts)

/-- The text of the second frame is the first one's or inside it, at any depth. -/
def Within (s : Store) : FrameId → FrameId → Prop := Relation.ReflTransGen s.Encloses

/-- There are no frames without end, each of them shown in the text of the one before. -/
def TextEnds (s : Store) : FrameId → Prop := Acc fun g f => s.Encloses f g

open Classical in
/-- The frames of the store whose texts are inside that of the given one. -/
noncomputable def shown (s : Store) (f : FrameId) : Finset FrameId :=
  (Finset.range s.size).filter (s.Within f)

theorem mem_shown {s : Store} {f g : FrameId} : g ∈ s.shown f ↔ g < s.size ∧ s.Within f g := by
  simp [shown]

theorem card_shown_le (s : Store) (f : FrameId) : (s.shown f).card ≤ s.size := by
  classical
  exact (Finset.card_filter_le _ _).trans_eq (Finset.card_range s.size)

namespace TextEnds

variable {s : Store} {f : FrameId}

/-- If the text of a frame ends, so do the texts inside it. -/
theorem enclosed (h : s.TextEnds f) {g : FrameId} (hg : s.Encloses f g) : s.TextEnds g :=
  Acc.inv h hg

/-- If the text of a frame ends, so do those inside it at any depth. -/
theorem within (h : s.TextEnds f) {g : FrameId} (hg : s.Within f g) : s.TextEnds g := by
  induction hg with
  | refl => exact h
  | tail _ hg ih => exact ih.enclosed hg

/-- A text that ends is not inside any text that is inside it. -/
theorem not_within (h : s.TextEnds f) {g : FrameId} (hg : s.Encloses f g) : ¬s.Within g f := by
  induction h generalizing g with
  | intro f _ ih =>
    intro hback
    rcases hback.cases_head with rfl | ⟨k, hk, hkf⟩
    · exact ih _ hg hg .refl
    · exact ih g hg hk (hkf.tail hg)

/-- Fewer frames are still to come in a text inside a text that ends. -/
theorem card_lt (h : s.TextEnds f) {g : FrameId} (hg : s.Encloses f g) :
    (s.shown g).card < (s.shown f).card := by
  have hf : f ∈ s.shown f := by
    obtain ⟨p, hp, -⟩ := hg
    exact mem_shown.mpr ⟨lt_size_of_parentOf hp, .refl⟩
  refine Finset.card_lt_card (Finset.ssubset_iff_of_subset ?_ |>.mpr ⟨f, hf, ?_⟩)
  · intro k hk
    obtain ⟨hk, hgk⟩ := mem_shown.mp hk
    exact mem_shown.mpr ⟨hk, .head hg hgk⟩
  · exact fun hgf => h.not_within hg (mem_shown.mp hgf).2

end TextEnds

/-- The texts of bindings depend only on the texts of the frames that are shown. -/
theorem entries_congr {s : Store} {f p : FrameId} (hp : s.parentOf f = some p)
    {t t' : FrameId → String} (h : ∀ g, s.Encloses f g → t g = t' g) :
    (s.bindings f).map (entry t) = (s.bindings f).map (entry t') := by
  refine List.map_congr_left fun e he => ?_
  have hv : e.2.Throughout fun u => ∀ g, u = .env g → t g = t' g := by
    rintro u hu g rfl
    exact h g ⟨p, hp, .inr ⟨e, he, hu⟩⟩
  rw [entry, entry, Value.written, Value.written, Value.writeOnto_congr hv]

namespace TextEnds

variable {s : Store} {f : FrameId}

/-- More nestings than there are frames to come make no difference. -/
theorem textWithin_eq (h : s.TextEnds f) {m n : Nat} (hm : (s.shown f).card < m)
    (hn : (s.shown f).card < n) : s.textWithin m f = s.textWithin n f := by
  induction h generalizing m n with
  | intro f hf ih =>
    have hends : s.TextEnds f := ⟨f, hf⟩
    obtain ⟨m, rfl⟩ := Nat.exists_eq_add_of_lt hm
    obtain ⟨n, rfl⟩ := Nat.exists_eq_add_of_lt hn
    cases hp : s.parentOf f with
    | none => rw [textWithin_global hp, textWithin_global hp]
    | some p =>
      have hshown (g : FrameId) (hg : s.Encloses f g) :
          s.textWithin ((s.shown f).card + m) g = s.textWithin ((s.shown f).card + n) g :=
        ih g hg (by have := hends.card_lt hg; omega) (by have := hends.card_lt hg; omega)
      rw [textWithin_nested hp, textWithin_nested hp, entries_congr hp hshown,
        hshown p ⟨p, hp, .inl rfl⟩]

/-- The text of a frame is made of the whole texts of the frames that it shows. -/
theorem frameText_eq (h : s.TextEnds f) {p : FrameId} (hp : s.parentOf f = some p) :
    s.frameText f =
      nested (sortedTexts ((s.bindings f).map (entry s.frameText))) (s.frameText p) := by
  have hshown (g : FrameId) (hg : s.Encloses f g) : s.textWithin s.size g = s.frameText g := by
    have hcard := (h.card_lt hg).trans_le (s.card_shown_le f)
    exact (h.enclosed hg).textWithin_eq hcard (hcard.trans (Nat.lt_succ_self _))
  rw [frameText, textWithin_nested hp, entries_congr hp hshown, hshown p ⟨p, hp, .inl rfl⟩]

end TextEnds

/-- Where values hold only frames older than the one that binds them, everything shown is older. -/
theorem Forest.textEnds {s : Store} (hs : s.Forest)
    (hheld : ∀ f, ∀ e ∈ s.bindings f, ∀ g, .env g ∈ e.2.parts → g < f) (f : FrameId) :
    s.TextEnds f := by
  induction f using Nat.strongRecOn with
  | ind f ih =>
    refine ⟨f, ?_⟩
    rintro g ⟨p, hp, rfl | ⟨e, he, hg⟩⟩
    · exact ih g (hs.older hp)
    · exact ih g (hheld f e he g hg)

/-! ## What a text lists -/

/-- The text of a frame is as it should be: that of a global frame, or a list of all names that the
frame binds, each with its value, in the order of the bytes of these entries, and behind it the text
of the parent, which is as it should be. -/
inductive Listed (s : Store) : FrameId → Prop
  | global {f : FrameId} (hp : s.parentOf f = none) (ht : s.frameText f = "<Global Frame>") :
      Listed s f
  | nested {f p : FrameId} (es : List (String × Value)) (hp : s.parentOf f = some p)
      (once : (es.map Prod.fst).Nodup) (values : ∀ x v, (x, v) ∈ es ↔ s.local? f x = some v)
      (sorted : (es.map (entry s.frameText)).Pairwise fun a b => utf8 a ≤ utf8 b)
      (ht : s.frameText f = nested (es.map (entry s.frameText)) (s.frameText p))
      (above : Listed s p) : Listed s f

/-- A text that ends has each name once, frame by frame down to the global one. -/
theorem TextEnds.listed {s : Store} (hs : s.Forest) {f : FrameId} (h : s.TextEnds f) :
    s.Listed f := by
  induction h with
  | intro f hf ih =>
    have hends : s.TextEnds f := ⟨f, hf⟩
    cases hp : s.parentOf f with
    | none => exact .global hp (textWithin_global hp _)
    | some p =>
      -- Sorting the bindings by their texts is sorting the texts.
      let es := (s.bindings f).mergeSort fun d e => entry s.frameText d ≤ entry s.frameText e
      have hperm : es.Perm (s.bindings f) := List.mergeSort_perm _ _
      have htexts : es.map (entry s.frameText) =
          sortedTexts ((s.bindings f).map (entry s.frameText)) :=
        List.map_mergeSort fun _ _ _ _ => rfl
      refine .nested es hp ?_ ?_ ?_ ?_ (ih p ⟨p, hp, .inl rfl⟩)
      · exact (hperm.map Prod.fst).nodup_iff.mpr (hs.distinct f)
      · intro x v
        rw [hperm.mem_iff, Bindings.mem_iff_lookup (hs.distinct f), lookup_bindings]
      · rw [htexts]
        exact (sortedTexts_pairwise _).imp utf8_le
      · rw [htexts]
        exact hends.frameText_eq hp

end Store

/-! ## Where there are lists, texts end -/

theorem Place.length_le_start (acc : String) (place : Place) :
    acc.length ≤ (place.start acc).length := by
  cases place <;> simp [start]

theorem Place.length_le_finish (acc : String) (place : Place) :
    acc.length ≤ (place.finish acc).length := by
  cases place <;> simp [finish]

theorem Place.length_le_put (acc text : String) (place : Place) :
    acc.length + text.length ≤ (place.put acc text).length := by
  refine le_trans ?_ (length_le_finish _ place)
  rw [String.length_append]
  exact Nat.add_le_add_right (length_le_start acc place) _

/-- The text of a procedure is opened in front of its parameters. -/
theorem Place.length_le_open (acc keyword : String) (place : Place) :
    acc.length ≤ (place.start acc ++ "(" ++ keyword ++ " ").length := by
  have := length_le_start acc place
  simp only [String.length_append]
  omega

/-- It is closed behind its body. -/
theorem Place.length_le_close (acc : String) (place : Place) :
    acc.length ≤ (place.finish (acc ++ ")")).length := by
  refine le_trans ?_ (length_le_finish _ place)
  rw [String.length_append]
  exact Nat.le_add_right _ _

namespace Value

theorem env_mem_parts_pair {g : FrameId} {i : Label} {a d : Value} :
    .env g ∈ (pair i a d).parts ↔ .env g ∈ a.parts ∨ .env g ∈ d.parts := by
  simp [parts]

theorem env_mem_parts_closure {g : FrameId} {i : Label} {s : Scope} {formals body : Value} :
    .env g ∈ (closure i s formals body).parts ↔
      .env g ∈ formals.parts ∨ .env g ∈ body.parts := by
  simp [parts]

/-- A text is only ever added to. -/
theorem length_le_writeOnto (t : FrameId → String) (quoting : Bool) (place : Place)
    (acc : String) (v : Value) : acc.length ≤ (v.writeOnto t quoting place acc).length := by
  fun_induction writeOnto t quoting place acc v with
  | case6 => simp
  | case7 => simp
  | case8 quoting place acc i a d opened iha ihd =>
    have hopened : acc.length ≤ opened.length := by
      cases place <;> simp [opened]
    exact (hopened.trans iha).trans ihd
  | case10 quoting place acc i s formals j e opened named ihf ihe =>
    have hnamed : named.length ≤ (named ++ " ").length := by simp
    exact (((Place.length_le_open acc _ place).trans ihf).trans (hnamed.trans ihe)).trans
      (Place.length_le_close _ _)
  | case11 quoting place acc i s formals body hsingle opened named ihf ihb =>
    have hnamed : named.length ≤ (named ++ " (begin").length := by simp
    exact (((Place.length_le_open acc _ place).trans ihf).trans (hnamed.trans ihb)).trans
      (Place.length_le_close _ _)
  | _ => exact (Nat.le_add_right _ _).trans (Place.length_le_put _ _ _)

/-- The text of a value is at least as long as those of the frames in it. -/
theorem length_le_of_env_mem_parts {t : FrameId → String} {g : FrameId} {v : Value}
    (h : .env g ∈ v.parts) (quoting : Bool) (place : Place) (acc : String) :
    (t g).length ≤ (v.writeOnto t quoting place acc).length := by
  fun_induction writeOnto t quoting place acc v with
  | case8 quoting place acc i a d opened iha ihd =>
    rcases env_mem_parts_pair.mp h with h | h
    · exact (iha h).trans (length_le_writeOnto _ _ _ _ d)
    · exact ihd h
  | case10 quoting place acc i s formals j e opened named ihf ihe =>
    refine le_trans ?_ (Place.length_le_close _ _)
    rcases env_mem_parts_closure.mp h with h | h
    · have hnamed : named.length ≤ (named ++ " ").length := by simp
      exact ((ihf h).trans hnamed).trans (length_le_writeOnto _ _ _ _ e)
    · rcases env_mem_parts_pair.mp h with h | h
      · exact ihe h
      · simp [parts] at h
  | case11 quoting place acc i s formals body hsingle opened named ihf ihb =>
    refine le_trans ?_ (Place.length_le_close _ _)
    rcases env_mem_parts_closure.mp h with h | h
    · have hnamed : named.length ≤ (named ++ " (begin").length := by simp
      exact ((ihf h).trans hnamed).trans (length_le_writeOnto _ _ _ _ body)
    · exact ihb h
  | case12 quoting place acc f =>
    obtain rfl : g = f := by simpa [parts] using h
    exact (Nat.le_add_left _ _).trans (Place.length_le_put _ _ _)
  | _ => simp [parts] at h

end Value

theorem length_le_intercalate (sep : String) {a : String} {l : List String} (h : a ∈ l) :
    a.length ≤ (sep.intercalate l).length := by
  induction l with
  | nil => cases h
  | cons b l ih =>
    cases l with
    | nil =>
      obtain rfl := List.mem_singleton.mp h
      rw [String.intercalate_singleton]
    | cons c l =>
      rw [String.intercalate_cons_cons, String.length_append, String.length_append]
      rcases List.mem_cons.mp h with rfl | h
      · omega
      · exact (ih h).trans (Nat.le_add_left _ _)

namespace Store

/-- The text of a frame is longer than its parent's and than each of its entries. -/
theorem length_lt_nested {es : List String} {parent a : String} (h : a = parent ∨ a ∈ es) :
    a.length < (nested es parent).length := by
  have hclose : ">".length = 1 := rfl
  simp only [nested, String.length_append, hclose]
  rcases h with rfl | h
  · omega
  · have := length_le_intercalate ", " h
    omega

theorem length_le_entry {t : FrameId → String} {e : String × Value} {g : FrameId}
    (h : .env g ∈ e.2.parts) : (t g).length ≤ (entry t e).length := by
  rw [entry, String.length_append]
  exact (Value.length_le_of_env_mem_parts h true .alone "").trans (Nat.le_add_left _ _)

/-- A text is longer than every text inside it. -/
theorem Listed.length_lt {s : Store} (hs : s.Forest) {f g : FrameId} (h : s.Listed f)
    (hg : s.Encloses f g) : (s.frameText g).length < (s.frameText f).length := by
  obtain ⟨p, hp, hg⟩ := hg
  cases h with
  | global hnone => simp [hp] at hnone
  | nested es hp' _ values _ ht _ =>
    obtain rfl : p = _ := Option.some.inj (hp.symm.trans hp')
    rw [ht]
    rcases hg with rfl | ⟨⟨x, v⟩, he, hg⟩
    · exact length_lt_nested (.inl rfl)
    · have he : (x, v) ∈ es := by
        rwa [values, ← lookup_bindings, ← Bindings.mem_iff_lookup (hs.distinct f)]
      exact (length_le_entry hg).trans_lt (length_lt_nested (.inr (List.mem_map.mpr ⟨_, he, rfl⟩)))

/-- Texts get shorter as they are taken apart. -/
theorem Forest.textEnds_of_listed {s : Store} (hs : s.Forest) {f : FrameId}
    (h : ∀ g, s.Within f g → s.Listed g) : s.TextEnds f := by
  generalize hn : (s.frameText f).length = n
  induction n using Nat.strongRecOn generalizing f with
  | ind n ih =>
    refine ⟨f, fun g hg => ih _ ?_ (fun k hk => h k (.head hg hk)) rfl⟩
    exact hn ▸ (h f .refl).length_lt hs hg

end Store

open Store in
/-- Definitions that leave the same value for every name in every frame leave the same texts of all
frames. The value of a name is that of its latest definition. A text lists each name of the frame
once, with its value, in the order of the bytes of the entries, followed by the text of the parent
and so on up to a global frame. This is so for a frame and all frames inside its text exactly if
that text ends. It does wherever values hold no frames, or only frames older than the one that
binds them. -/
theorem frame_text_canonical {s : Store} (hs : s.Forest) (ds : List Definition) :
    (∀ es, (∀ f x, (s.defineAll ds).local? f x = (s.defineAll es).local? f x) →
      ∀ f, (s.defineAll ds).frameText f = (s.defineAll es).frameText f) ∧
    (∀ f < s.size, ∀ x, (s.defineAll ds).local? f x = (latest ds f x).or (s.local? f x)) ∧
    (∀ f, (s.defineAll ds).TextEnds f ↔
      ∀ g, (s.defineAll ds).Within f g → (s.defineAll ds).Listed g) ∧
    ((∀ f, ∀ e ∈ (s.defineAll ds).bindings f, ∀ g, .env g ∈ e.2.parts → g < f) →
      ∀ f, (s.defineAll ds).TextEnds f) := by
  have hd : (s.defineAll ds).Forest := hs.defineAll ds
  refine ⟨fun es hsame f => ?_, fun f hf x => s.local?_defineAll ds hf x, fun f => ?_, hd.textEnds⟩
  · have hparent (g : FrameId) : (s.defineAll ds).parentOf g = (s.defineAll es).parentOf g := by
      rw [parentOf_defineAll, parentOf_defineAll]
    rw [frameText, frameText, size_defineAll, size_defineAll,
      textWithin_eq_of_local? hd (hs.defineAll es) hparent hsame]
  · exact ⟨fun h g hg => (h.within hg).listed hd, hd.textEnds_of_listed⟩

open Store in
/-- A frame that shows its parent once more, as a value. The entries of `x!` and `x` stand in the
other order than the names. -/
theorem frame_text_canonical_repeated :
    let s := (single.push ⟨some 0, []⟩).push ⟨some 1, [("x", .int 1)]⟩
    let ds : List Definition := [⟨2, "x!", .int 2⟩, ⟨2, "x", .int 3⟩, ⟨1, "a", .int 5⟩,
      ⟨2, "e", .env 1⟩, ⟨2, "x", .int 4⟩]
    let es : List Definition := [⟨2, "e", .env 1⟩, ⟨2, "x", .int 4⟩, ⟨1, "a", .int 5⟩,
      ⟨2, "x!", .int 2⟩]
    let above := "<\x7ba: 5\x7d -> <Global Frame>>"
    s.Forest ∧ (∀ f x, (s.defineAll ds).local? f x = (s.defineAll es).local? f x) ∧
    (s.defineAll ds).TextEnds 2 ∧ (s.defineAll ds).Listed 2 ∧
    (s.defineAll ds).frameText 2 = (s.defineAll es).frameText 2 ∧
    (s.defineAll es).frameText 2 =
      "<\x7be: " ++ above ++ ", x!: 2, x: 4\x7d -> " ++ above ++ ">" := by
  intro s ds es above
  have hs : s.Forest := by
    refine (forest_single.push ?_ ?_).push ?_ ?_ <;> simp [single, size, push, Bindings.names]
  have hds : s.defineAll ds = ⟨#[⟨none, []⟩, ⟨some 0, [("a", .int 5)]⟩,
      ⟨some 1, [("x", .int 4), ("x!", .int 2), ("e", .env 1)]⟩]⟩ := rfl
  have hes : s.defineAll es = ⟨#[⟨none, []⟩, ⟨some 0, [("a", .int 5)]⟩,
      ⟨some 1, [("x", .int 4), ("e", .env 1), ("x!", .int 2)]⟩]⟩ := rfl
  have hsame : ∀ f x, (s.defineAll ds).local? f x = (s.defineAll es).local? f x := by
    rw [hds, hes]
    rintro (- | - | - | f) x
    · rfl
    · rfl
    · change List.lookup x [("x", Value.int 4), ("x!", .int 2), ("e", .env 1)] =
        List.lookup x [("x", .int 4), ("e", .env 1), ("x!", .int 2)]
      by_cases hx : x = "e"
      · subst hx
        rfl
      · simp only [List.lookup_cons, beq_eq_false_iff_ne.mpr hx]
    · rfl
  have holder : ∀ f, ∀ e ∈ (s.defineAll ds).bindings f, ∀ g, .env g ∈ e.2.parts → g < f := by
    rw [hds]
    rintro (- | - | - | f) e he g hg
    · cases he
    · obtain rfl := List.mem_singleton.mp he
      simp [Value.parts] at hg
    · have he : e ∈ [("x", .int 4), ("x!", .int 2), ("e", .env 1)] := he
      simp only [List.mem_cons, List.not_mem_nil, or_false] at he
      rcases he with rfl | rfl | rfl <;> simp_all [Value.parts]
    · cases he
  obtain ⟨hcanonical, -, hlisted, hends⟩ := frame_text_canonical hs ds
  refine ⟨hs, hsame, hends holder 2, (hlisted 2).mp (hends holder 2) 2 .refl,
    hcanonical es hsame 2, ?_⟩
  rw [hes]
  generalize ht : Store.mk _ = t
  have habove : t.textWithin 3 1 = above := by
    have hone : t.bindings 1 = [("a", .int 5)] := ht ▸ rfl
    rw [textWithin_nested (p := 0) (ht ▸ rfl), textWithin_global (ht ▸ rfl), hone,
      List.map_singleton, sortedTexts_eq (.refl _) (List.pairwise_singleton _ _)]
    rfl
  have hentries : (t.bindings 2).map (entry (t.textWithin 3)) =
      ["x: 4", "e: " ++ above, "x!: 2"] := by
    have htwo : t.bindings 2 = [("x", .int 4), ("e", .env 1), ("x!", .int 2)] := ht ▸ rfl
    rw [htwo, ← habove]
    rfl
  have hsorted : sortedTexts ["x: 4", "e: " ++ above, "x!: 2"] =
      ["e: " ++ above, "x!: 2", "x: 4"] :=
    sortedTexts_eq (by decide) (by decide)
  have hsize : t.size = 3 := ht ▸ rfl
  rw [frameText, hsize, textWithin_nested (p := 1) (ht ▸ rfl), hentries, hsorted, habove]
  decide

end Scheme
