/-!
# `ArrayScript.Text.Blank`: white space

The characters with the Unicode property White_Space: twenty-five code points in ten ranges.
Between tokens they are skipped, and at the end of an excerpt's line they are dropped.
-/

set_option autoImplicit false

namespace ArrayScript.Text

/-- The ranges of White_Space, in ascending order, both ends included. -/
def blankRanges : List (Nat × Nat) :=
  [ (0x0009, 0x000D), (0x0020, 0x0020), (0x0085, 0x0085), (0x00A0, 0x00A0), (0x1680, 0x1680),
    (0x2000, 0x200A), (0x2028, 0x2029), (0x202F, 0x202F), (0x205F, 0x205F), (0x3000, 0x3000) ]

/-- Whether a character is white space. -/
def isBlank (c : Char) : Bool :=
  blankRanges.any fun (low, high) => low ≤ c.toNat && c.toNat ≤ high

example : (blankRanges.map fun (low, high) => high - low + 1).sum = 25 := by decide

end ArrayScript.Text
