import Scheme.Frame
import Scheme.Value.Writer

/-!
# The store of frames

All frames of a session, numbered in the order in which they were made. Frames are never
removed, and only their bindings change. A frame is made after its parent, so walking up the
parents goes to ever smaller numbers and ends; the walks stop at a parent that breaks this order.
-/

namespace Scheme

/-- The frames made so far. -/
structure Store where
  frames : Array Frame

namespace Store

/-- A store with one global frame that binds nothing. -/
def single : Store := ⟨#[⟨none, []⟩]⟩

/-- The parent of a frame, if it was made before the frame. -/
def parent? (s : Store) (f : FrameId) : Option FrameId :=
  match s.frames[f]? with
  | some fr =>
    match fr.parent with
    | some p => if p < f then some p else none
    | none => none
  | none => none

/-- The way up leads to older frames only. -/
theorem lt_of_parent? {s : Store} {f p : FrameId} (h : s.parent? f = some p) : p < f := by
  unfold parent? at h
  split at h
  · split at h
    · split at h
      · next hlt =>
        cases h
        exact hlt
      · simp at h
    · simp at h
  · simp at h

/-- The value that the frame itself gives a name. -/
def local? (s : Store) (f : FrameId) (x : String) : Option Value :=
  match s.frames[f]? with
  | some fr => fr.get x
  | none => none

/-- The value of a name in the nearest frame that binds it, from `f` upwards. -/
def get? (s : Store) (f : FrameId) (x : String) : Option Value :=
  match s.local? f x with
  | some v => some v
  | none =>
    match h : s.parent? f with
    | some p =>
      have : p < f := lt_of_parent? h
      s.get? p x
    | none => none
termination_by f

/-- The last frame on the way up from `f`. -/
def root (s : Store) (f : FrameId) : FrameId :=
  match h : s.parent? f with
  | some p =>
    have : p < f := lt_of_parent? h
    s.root p
  | none => f
termination_by f

/-- Binds a name in a frame. -/
def define (s : Store) (f : FrameId) (x : String) (v : Value) : Store :=
  ⟨s.frames.modify f (·.define x v)⟩

/-- The number of the next frame. -/
def size (s : Store) : FrameId := s.frames.size

/-- Makes a frame; its number is the size of the store before. -/
def push (s : Store) (fr : Frame) : Store := ⟨s.frames.push fr⟩

/-! ## The text of a frame -/

/-- Sorted upwards by code points. -/
def sortedTexts (texts : List String) : List String := texts.mergeSort (fun a b => a ≤ b)

/-- The text of a frame, written to the given nesting: its bindings in the order of their texts
and the text of its parent. A global frame does not list its bindings. -/
def textWithin (s : Store) : (nesting : Nat) → FrameId → String
  | 0, _ => ""
  | n + 1, f =>
    match s.frames[f]? with
    | some ⟨some p, bindings⟩ =>
      let entries := bindings.map fun e => e.1 ++ ": " ++ e.2.written (s.textWithin n)
      "<\x7b" ++ ", ".intercalate (sortedTexts entries) ++ "\x7d -> " ++ s.textWithin n p ++ ">"
    | _ => "<Global Frame>"

/-- The text of a frame. No text that comes to an end meets one frame twice inside itself, so as
many nestings as there are frames are enough. -/
def frameText (s : Store) (f : FrameId) : String := s.textWithin (s.size + 1) f

/-! ## What operations do to look-ups -/

theorem size_define (s : Store) (f : FrameId) (x : String) (v : Value) :
    (s.define f x v).size = s.size := by
  simp [define, size]

theorem size_push (s : Store) (fr : Frame) : (s.push fr).size = s.size + 1 := by
  simp [push, size]

/-- A definition changes one frame and no other. -/
theorem frames_define (s : Store) (f g : FrameId) (x : String) (v : Value) :
    (s.define f x v).frames[g]? =
      if f = g then s.frames[g]?.map (·.define x v) else s.frames[g]? := by
  simp [define, Array.getElem?_modify]

theorem parent?_define (s : Store) (f g : FrameId) (x : String) (v : Value) :
    (s.define f x v).parent? g = s.parent? g := by
  simp only [parent?, frames_define]
  by_cases h : f = g
  · subst h
    cases hs : s.frames[f]? with
    | none => simp
    | some fr => simp [Frame.parent_define]
  · simp [h]

/-- A definition is seen in its own frame under its own name, and hides nothing else. -/
theorem local?_define (s : Store) (f g : FrameId) (x y : String) (v : Value) (hf : f < s.size) :
    (s.define f x v).local? g y = if g = f ∧ y = x then some v else s.local? g y := by
  simp only [local?, frames_define]
  by_cases h : f = g
  · subst h
    have : s.frames[f]? = some s.frames[f] := Array.getElem?_eq_getElem hf
    simp [this, Frame.get_define]
  · have h' : ¬g = f := fun e => h e.symm
    simp [h, h']

end Store

end Scheme
