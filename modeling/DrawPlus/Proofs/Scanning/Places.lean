import Mathlib
import DrawPlus.Text.Basic
import DrawPlus.Token.Reader

/-!
# Places in a text

The place after a text is the number of its lines and the length of the last one. A reader that has
passed `before` and has `rest` to come is `Reader.between before rest`, and stepping moves a
character from the one to the other. What the reader holds is thereby a function of the two parts of
the text, and no count is carried along.

A reader shows the place of its current character, so it is one character ahead of what it has
passed. At the end of the text it shows the place of the last character.
-/

namespace DrawPlus

variable {c : Char} {cs ds : List Char}

namespace Text

/-! ## Lines -/

def firstLine (cs : List Char) : List Char := (lines cs).headD []

def lastLine (cs : List Char) : List Char := (lines cs).getLastD []

theorem lines_ne_nil (cs : List Char) : lines cs ≠ [] := by
  cases cs with
  | nil => simp [lines, pieces]
  | cons c cs =>
    simp only [lines, pieces]
    split
    · simp
    · split <;> simp

theorem lines_eq_cons (cs : List Char) : lines cs = firstLine cs :: (lines cs).tail := by
  unfold firstLine
  cases h : lines cs with
  | nil => exact absurd h (lines_ne_nil cs)
  | cons l ls => rfl

theorem lines_feed (cs : List Char) : lines ('\n' :: cs) = [] :: lines cs := by
  simp [lines, pieces]

theorem lines_cons (h : c ≠ '\n') (cs : List Char) :
    lines (c :: cs) = (c :: firstLine cs) :: (lines cs).tail := by
  have hcs := lines_eq_cons cs
  simp only [lines] at hcs ⊢
  rw [pieces, if_neg h, hcs]
  rfl

theorem lines_of_notMem (h : '\n' ∉ cs) : lines cs = [cs] := by
  induction cs with
  | nil => rfl
  | cons c cs ih =>
    rw [List.mem_cons, not_or] at h
    rw [lines_cons (Ne.symm h.1), firstLine, ih h.2]
    rfl

/-- The last line of one text and the first line of the next become one line. -/
theorem lines_append (cs ds : List Char) : lines (cs ++ ds) =
    (lines cs).dropLast ++ (lastLine cs ++ firstLine ds) :: (lines ds).tail := by
  induction cs with
  | nil => exact lines_eq_cons ds
  | cons c cs ih =>
    obtain ⟨l, ls, hl⟩ := List.exists_cons_of_ne_nil (lines_ne_nil cs)
    by_cases hc : c = '\n'
    · subst hc
      simp only [List.cons_append, lines_feed, ih, lastLine, hl]
      simp
    · simp only [List.cons_append, lines_cons hc, firstLine, ih, lastLine, hl]
      cases ls <;> simp

/-! ## The place after a text -/

def endLine (cs : List Char) : ℕ := (lines cs).length

def endColumn (cs : List Char) : ℕ := (lastLine cs).length

theorem endLine_append (cs ds : List Char) :
    endLine (cs ++ ds) = endLine cs + (lines ds).tail.length := by
  have hpos := List.length_pos_of_ne_nil (lines_ne_nil cs)
  rw [endLine, lines_append, endLine]
  simp only [List.length_append, List.length_dropLast, List.length_cons]
  omega

theorem lastLine_append_of_notMem (h : '\n' ∉ ds) (cs : List Char) :
    lastLine (cs ++ ds) = lastLine cs ++ ds := by
  rw [lastLine, lines_append, firstLine, lines_of_notMem h]
  simp

theorem endLine_append_of_notMem (h : '\n' ∉ ds) (cs : List Char) :
    endLine (cs ++ ds) = endLine cs := by
  rw [endLine_append, lines_of_notMem h]
  rfl

theorem endColumn_append_of_notMem (h : '\n' ∉ ds) (cs : List Char) :
    endColumn (cs ++ ds) = endColumn cs + ds.length := by
  rw [endColumn, lastLine_append_of_notMem h, List.length_append, endColumn]

theorem endLine_feed (cs : List Char) : endLine (cs ++ ['\n']) = endLine cs + 1 :=
  endLine_append cs ['\n']

theorem endColumn_feed (cs : List Char) : endColumn (cs ++ ['\n']) = 0 := by
  have hlines : lines ['\n'] = [[], []] := rfl
  rw [endColumn, lastLine, lines_append, hlines]
  simp

theorem endLine_eq_count (cs : List Char) : endLine cs = cs.count '\n' + 1 := by
  induction cs with
  | nil => rfl
  | cons c cs ih =>
    by_cases hc : c = '\n'
    · subst hc
      rw [List.count_cons_self, ← ih, endLine, lines_feed, List.length_cons, endLine]
    · rw [List.count_cons_of_ne hc, ← ih, endLine, lines_cons hc, endLine, lines_eq_cons cs]
      simp

theorem endLine_append_eq_iff (cs ds : List Char) :
    endLine (cs ++ ds) = endLine cs ↔ '\n' ∉ ds := by
  rw [endLine_eq_count, endLine_eq_count, List.count_append, ← List.count_eq_zero]
  omega

/-- A longer text ends in a later line, or in the same line and not further left. -/
theorem place_append (cs ds : List Char) : endLine cs < endLine (cs ++ ds) ∨
    endLine cs = endLine (cs ++ ds) ∧ endColumn cs ≤ endColumn (cs ++ ds) := by
  by_cases h : '\n' ∈ ds
  · left
    obtain ⟨before, after, rfl⟩ := List.append_of_mem h
    have hpos := List.length_pos_of_ne_nil (lines_ne_nil after)
    rw [endLine_append, lines_append, lines_feed]
    cases hl : (lines before).dropLast <;> simp [hpos]
  · right
    rw [endLine_append_of_notMem h, endColumn_append_of_notMem h]
    exact ⟨rfl, Nat.le_add_right _ _⟩

/-! ## A word in its line -/

theorem firstLine_append_of_notMem (h : '\n' ∉ cs) (ds : List Char) :
    firstLine (cs ++ ds) = cs ++ firstLine ds := by
  rw [firstLine, lines_append, lastLine, lines_of_notMem h]
  simp

/-- A word without line feeds stands in one line, between what precedes and what follows it
there. -/
theorem line_of_word (before after : List Char) {word : List Char} (h : '\n' ∉ word) :
    (lines (before ++ (word ++ after)))[endLine before - 1]? =
      some (lastLine before ++ word ++ firstLine after) := by
  rw [lines_append, firstLine_append_of_notMem h, endLine,
    List.getElem?_append_right (by simp), List.length_dropLast]
  simp

theorem head?_firstLine (h : (firstLine cs).head? = some c) : cs.head? = some c := by
  cases cs with
  | nil => simp [firstLine, lines, pieces] at h
  | cons d cs =>
    by_cases hd : d = '\n'
    · subst hd
      simp [firstLine, lines_feed] at h
    · simpa [firstLine, lines_cons hd] using h

theorem getLast?_lastLine (h : (lastLine cs).getLast? = some c) : cs.getLast? = some c := by
  cases cs using List.reverseRecOn with
  | nil => simp [lastLine, lines, pieces] at h
  | append_singleton cs d =>
    by_cases hd : d = '\n'
    · subst hd
      have hlast : lastLine (cs ++ ['\n']) = [] := List.eq_nil_of_length_eq_zero (endColumn_feed cs)
      simp [hlast] at h
    · rw [lastLine_append_of_notMem (by simpa using Ne.symm hd)] at h
      simpa using h

end Text

namespace Reader

/-! ## Readers by the two parts of a text -/

/-- The reader that has passed `before` and stands on the first character of `rest`. -/
def between (before rest : List Char) : Reader :=
  let passed := before ++ rest.take 1
  ⟨rest.head?, rest.tail, passed.length, Text.endLine passed, Text.endColumn passed⟩

@[simp] theorem current_between (before rest : List Char) :
    (between before rest).current = rest.head? := rfl

@[simp] theorem peek_between (before rest : List Char) :
    (between before rest).peek = rest.tail.head? := rfl

theorem line_between (h : c ≠ '\n') (before rest : List Char) :
    (between before (c :: rest)).line = Text.endLine before :=
  Text.endLine_append_of_notMem (by simpa using Ne.symm h) before

theorem column_between (h : c ≠ '\n') (before rest : List Char) :
    (between before (c :: rest)).column = Text.endColumn before + 1 :=
  Text.endColumn_append_of_notMem (by simpa using Ne.symm h) before

@[simp] theorem advance_between (before rest : List Char) (c : Char) :
    (between before (c :: rest)).advance = between (before ++ [c]) rest := by
  cases rest with
  | nil => simp [advance, between]
  | cons d rest =>
    by_cases hd : d = '\n'
    · subst hd
      have hline := Text.endLine_feed (before ++ [c])
      have hcolumn := Text.endColumn_feed (before ++ [c])
      simp [advance, between] at hline hcolumn ⊢
      omega
    · have hd' : '\n' ∉ [d] := by simpa using Ne.symm hd
      have hline := Text.endLine_append_of_notMem hd' (before ++ [c])
      have hcolumn := Text.endColumn_append_of_notMem hd' (before ++ [c])
      simp [advance, between, hd] at hline hcolumn ⊢
      omega

theorem ofText_eq_between (source : List Char) : ofText source = between [] source := by
  cases source with
  | nil => rfl
  | cons c rest =>
    by_cases hc : c = '\n'
    · subst hc
      rfl
    · have hc' : '\n' ∉ [c] := by simpa using Ne.symm hc
      simp [ofText, advance, between, hc, Text.endLine, Text.endColumn, Text.lastLine,
        Text.lines_of_notMem hc']

@[simp] theorem takeWhile_between (p : Char → Bool) (before rest : List Char) :
    (between before rest).takeWhile p =
      (rest.takeWhile p, between (before ++ rest.takeWhile p) (rest.dropWhile p)) := by
  induction rest generalizing before with
  | nil =>
    unfold takeWhile
    simp
  | cons c rest ih =>
    unfold takeWhile
    cases hp : p c with
    | true => simp [hp, ih]
    | false => simp [hp]

end Reader

end DrawPlus
