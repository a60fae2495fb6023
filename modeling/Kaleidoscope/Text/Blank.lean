/-!
# Blank characters

The characters with the Unicode property White_Space (version 15.1), as closed ranges of code
points.
-/

namespace Kaleidoscope.Text

/-- The ranges, ascending. -/
def blankRanges : List (Nat × Nat) :=
  [(0x09, 0x0D), (0x20, 0x20), (0x85, 0x85), (0xA0, 0xA0), (0x1680, 0x1680), (0x2000, 0x200A),
   (0x2028, 0x2029), (0x202F, 0x202F), (0x205F, 0x205F), (0x3000, 0x3000)]

/-- Does the character leave no mark on paper? -/
def isBlank (c : Char) : Bool :=
  blankRanges.any fun range => range.1 ≤ c.toNat && c.toNat ≤ range.2

/-- Is there nothing but blanks? -/
def allBlank (cs : List Char) : Bool := cs.all isBlank

/-- The last character that is not blank. -/
def lastVisible? (cs : List Char) : Option Char := cs.reverse.find? (!isBlank ·)

example : (blankRanges.map fun range => range.2 + 1 - range.1).sum = 25 := by decide

end Kaleidoscope.Text
