/-! Blank characters, which separate the words of a command and may stand around them. -/
namespace TypedCommands.Text

/-- The code points of Unicode's `White_Space` property, as inclusive ranges. -/
def blankRanges : List (Nat × Nat) :=
  [(0x0009,0x000D), (0x0020,0x0020), (0x0085,0x0085), (0x00A0,0x00A0), (0x1680,0x1680),
   (0x2000,0x200A), (0x2028,0x2029), (0x202F,0x202F), (0x205F,0x205F), (0x3000,0x3000)]

def isBlank (c : Char) : Bool :=
  blankRanges.any fun r => decide (r.1 ≤ c.toNat) && decide (c.toNat ≤ r.2)

/-- A text without a visible character. -/
def allBlank (s : String) : Bool := s.toList.all isBlank

theorem isBlank_newline : isBlank '\n' = true := by decide

example : (blankRanges.map fun r => r.2 + 1 - r.1).sum = 25 := by decide

end TypedCommands.Text
