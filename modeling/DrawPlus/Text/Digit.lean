import DrawPlus.Text.Basic

/-!
# Digits

Three nested classes. A *decimal digit* stands for one of the values 0 to 9 in positional
notation, in any script. A *digit* may also be a raised, lowered or circled figure, which has no
place in positional notation. A *numeral* is any other character with a numeric value, such as a
vulgar fraction or a Roman numeral; it can continue a word but not a number.
-/

namespace DrawPlus.Text

/-- Runs of decimal digits above ASCII. Each run is made of whole decades, zero first. -/
def decimalRanges : List (Nat × Nat) :=
  rangesFrom 128 [
    1504, 10, 134, 10, 198, 10, 412, 10, 118, 10, 118, 10, 118, 10, 118, 10, 118, 10, 118, 10, 118,
    10, 118, 10, 118, 10, 96, 10, 118, 10, 70, 10, 278, 10, 70, 10, 1862, 10, 38, 10, 300, 10, 128,
    10, 166, 10, 6, 10, 182, 10, 86, 10, 134, 10, 6, 10, 35270, 10, 678, 10, 38, 10, 198, 10, 22,
    10, 86, 10, 406, 10, 21270, 10, 1414, 10, 2182, 10, 812, 10, 128, 10, 60, 10, 144, 10, 278, 10,
    342, 10, 118, 10, 374, 10, 102, 10, 102, 10, 422, 10, 102, 10, 758, 10, 246, 10, 70, 10, 422,
    10, 19206, 10, 86, 10, 134, 10, 27764, 50, 2368, 10, 422, 10, 502, 10, 1110, 10, 4758, 10
  ]

/-- Digits that no positional notation uses: raised, lowered, circled and the like. -/
def figureRanges : List (Nat × Nat) :=
  rangesFrom 128 [
    50, 2, 5, 1, 4783, 9, 1640, 1, 1685, 1, 3, 6, 6, 10, 982, 9, 11, 9, 11, 9, 89, 1, 10, 9, 1, 1,
    630, 9, 1, 9, 1, 9, 58029, 4, 1052, 9, 489, 9, 57509, 11
  ]

/-- Characters with a numeric value that are neither digits nor letters. -/
def numeralRanges : List (Nat × Nat) :=
  rangesFrom 128 [
    60, 3, 2357, 6, 376, 6, 120, 3, 133, 7, 217, 7, 17, 9, 433, 10, 1086, 11, 881, 3, 255, 10, 2390,
    51, 2, 5, 735, 11, 9, 11, 9, 11, 79, 10, 9, 1, 640, 1, 9, 1, 9, 1, 1385, 1, 777, 1, 25, 9, 14,
    3, 343, 4, 138, 10, 30, 8, 1, 15, 32, 10, 39, 15, 29734, 10, 320, 6, 22737, 45, 12, 57, 17, 2,
    341, 27, 36, 4, 29, 1, 8, 1, 134, 5, 1154, 8, 25, 7, 39, 9, 75, 5, 22, 6, 160, 2, 2, 16, 2, 46,
    68, 5, 52, 2, 30, 3, 75, 5, 104, 8, 24, 8, 41, 7, 330, 6, 361, 22, 158, 10, 42, 4, 112, 7, 143,
    11, 379, 20, 1349, 2, 430, 9, 871, 19, 851, 21, 1067, 111, 18156, 7, 798, 23, 25641, 20, 12, 20,
    108, 25, 5454, 9, 929, 59, 1, 3, 1, 4, 76, 45, 1, 15, 973, 2
  ]

/-- The value of a decimal digit of any script. -/
def decimalValue? (c : Char) : Option Nat :=
  if c.isDigit then some (c.toNat - 48)
  else (rangeOf? decimalRanges c.toNat).map fun r => (c.toNat - r.1) % 10

/-- A digit of any script, raised and circled figures included. -/
def isDigit (c : Char) : Bool :=
  c.isDigit || inRanges decimalRanges c.toNat || inRanges figureRanges c.toNat

/-- A character with a numeric value that is no digit. -/
def isNumeral (c : Char) : Bool :=
  inRanges numeralRanges c.toNat

end DrawPlus.Text
