/-!
# `ArrayScript.Text.Position`: places in a program text

Every place is a byte offset into the UTF-8 text, never a character index. This module fixes the
three notions that the rest of the library shares: the byte width of a run of characters, the span
of a piece of text, and the position that an error carries, which also names the file.
-/

set_option autoImplicit false

namespace ArrayScript

/-- The number of bytes that a run of characters takes in UTF-8. -/
def Text.width (cs : List Char) : Nat :=
  cs.foldr (fun c n => c.utf8Size + n) 0

@[simp] theorem Text.width_nil : Text.width [] = 0 := rfl

@[simp] theorem Text.width_cons (c : Char) (cs : List Char) :
    Text.width (c :: cs) = c.utf8Size + Text.width cs := rfl

@[simp] theorem Text.width_append (cs ds : List Char) :
    Text.width (cs ++ ds) = Text.width cs + Text.width ds := by
  induction cs with
  | nil => simp
  | cons c cs ih => simp [ih, Nat.add_assoc]

/-- Characters have a width. -/
theorem Text.width_pos {cs : List Char} (h : cs ≠ []) : 0 < Text.width cs := by
  cases cs with
  | nil => exact absurd rfl h
  | cons c cs =>
    have := c.utf8Size_pos
    rw [Text.width_cons]
    omega

/-- What is left of a text behind its first `count` bytes. A count that ends inside a character takes
all of that character. -/
def Text.skip : (count : Nat) → (text : List Char) → List Char
  | 0, text => text
  | _ + 1, [] => []
  | count + 1, c :: cs => Text.skip (count + 1 - c.utf8Size) cs

/-- Skipping the width of some characters skips these characters. -/
theorem Text.skip_width_append (piece rest : List Char) :
    Text.skip (Text.width piece) (piece ++ rest) = rest := by
  induction piece with
  | nil => rw [Text.width_nil, List.nil_append, Text.skip]
  | cons c cs ih =>
    have hpos := c.utf8Size_pos
    obtain ⟨count, hcount⟩ : ∃ count, Text.width (c :: cs) = count + 1 :=
      ⟨Text.width (c :: cs) - 1, by rw [Text.width_cons]; omega⟩
    have hrest : count + 1 - c.utf8Size = Text.width cs := by
      rw [Text.width_cons] at hcount
      omega
    rw [hcount, List.cons_append, Text.skip, hrest, ih]

/-- Skipping the width of the first characters of a text drops these characters. -/
theorem Text.skip_width_take (count : Nat) (text : List Char) :
    Text.skip (Text.width (text.take count)) text = text.drop count := by
  have hskip := Text.skip_width_append (text.take count) (text.drop count)
  rwa [List.take_append_drop] at hskip

/-- Skipping makes no text longer. -/
theorem Text.length_skip_le (count : Nat) (text : List Char) :
    (Text.skip count text).length ≤ text.length := by
  fun_induction Text.skip count text with
  | case1 => exact Nat.le_refl _
  | case2 => exact Nat.le_refl _
  | case3 count c cs ih => exact Nat.le_succ_of_le ih

/-- Skipping something makes a text shorter, unless nothing is left of it. -/
theorem Text.length_skip_lt {count : Nat} {c : Char} {cs : List Char} (h : 0 < count) :
    (Text.skip count (c :: cs)).length < (c :: cs).length := by
  obtain ⟨count, rfl⟩ := Nat.exists_eq_add_one.mpr h
  rw [Text.skip]
  exact Nat.lt_succ_of_le (Text.length_skip_le _ cs)

/-- The bytes from `start` up to, and not including, `stop`. Offsets are of any size: they are not cut
to 32 bits, so what is said about them is meant for texts of less than 2 ^ 32 bytes. -/
structure Span where
  start : Nat
  stop : Nat
deriving DecidableEq, Repr, Inhabited

/-- A byte offset into a named file. -/
structure Position where
  file : String
  offset : Nat
deriving DecidableEq, Repr, Inhabited

/-- Errors that arise outside any program text, when a host calls in, have no place in a file. -/
def Position.host : Position :=
  ⟨"<null>", 0⟩

end ArrayScript
