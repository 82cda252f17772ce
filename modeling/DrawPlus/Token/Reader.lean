import DrawPlus.Text.Digit
import DrawPlus.Text.Letter

/-!
# Reading a text character by character

A reader holds the character it stands on, the characters still ahead, how many characters it has
passed (the current one included), and the line and column of the current character. At the end of
the text it stands on nothing and stays there.
-/

namespace DrawPlus

structure Reader where
  current : Option Char
  ahead : List Char
  position : Nat
  line : Nat
  column : Nat
deriving DecidableEq

namespace Reader

/-- Step onto the next character. A line feed counts as column 0 of the line it opens. -/
def advance (r : Reader) : Reader :=
  match r.ahead with
  | [] => { r with current := none }
  | c :: rest =>
    if c = '\n' then ⟨some c, rest, r.position + 1, r.line + 1, 0⟩
    else ⟨some c, rest, r.position + 1, r.line, r.column + 1⟩

/-- A reader on the first character of a text. -/
def ofText (source : List Char) : Reader :=
  advance ⟨none, source, 0, 1, 0⟩

def peek (r : Reader) : Option Char :=
  r.ahead.head?

/-- How many characters are still to be passed, the current one included. -/
def remaining (r : Reader) : Nat :=
  r.current.toList.length + r.ahead.length

/-- Stepping off a character leaves one fewer. -/
theorem remaining_advance {r : Reader} {c : Char} (h : r.current = some c) :
    r.advance.remaining + 1 = r.remaining := by
  unfold advance remaining
  split
  · simp_all
  · split <;> simp_all <;> omega

/-- Stepping never adds to what remains once the reader stands on a character or at the end. -/
theorem remaining_advance_le (r : Reader) : r.advance.remaining ≤ r.remaining := by
  unfold advance remaining
  split
  · simp
  · split <;> simp_all <;> omega

/-- The longest run of characters with the property `p`, and the reader after it. -/
def takeWhile (p : Char → Bool) (r : Reader) : List Char × Reader :=
  match _h : r.current with
  | none => ([], r)
  | some c =>
    if p c then
      let run := r.advance.takeWhile p
      (c :: run.1, run.2)
    else ([], r)
termination_by r.remaining
decreasing_by
  have := remaining_advance _h
  omega

/-- The reader after the longest run of characters with the property `p`. -/
def dropWhile (p : Char → Bool) (r : Reader) : Reader :=
  (r.takeWhile p).2

theorem remaining_takeWhile_le (p : Char → Bool) (r : Reader) :
    (r.takeWhile p).2.remaining ≤ r.remaining := by
  fun_induction takeWhile p r with
  | case1 => simp
  | case2 r c h hp run ih =>
    have hs := remaining_advance h
    have hr : run.2.remaining ≤ r.advance.remaining := ih
    simp only
    omega
  | case3 => simp

/-- A run that is not empty brings the reader forward. -/
theorem remaining_takeWhile_lt {p : Char → Bool} {r : Reader} {c : Char}
    (h : r.current = some c) (hp : p c = true) :
    (r.takeWhile p).2.remaining < r.remaining := by
  have hs := remaining_advance h
  have hr := remaining_takeWhile_le p r.advance
  rw [takeWhile]
  split
  case h_1 hnone => exact absurd (h.symm.trans hnone) (Option.some_ne_none c)
  case h_2 d hd =>
    obtain rfl := Option.some.inj (h.symm.trans hd)
    simp only [if_pos hp]
    omega

end Reader

end DrawPlus
