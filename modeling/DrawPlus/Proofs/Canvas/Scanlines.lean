import Mathlib
import DrawPlus.Canvas.Shape

/-!
# The rows of a filled triangle

A filled triangle is drawn row by row, from the points where its edges meet the row. A row parts the
corners into those that are on it or above and those below, and an edge meets it if it joins one
part to the other (`crosses_eq`). So a row that has corners in both parts is met by two edges, and
any other row by none.

All of this is done in 32 bits. The loop over the rows goes on while the row is not below the lowest
corner, and ends there unless that corner is as low as 32 bits can say: the row after it is then the
least number (`ends_iff`).

`scan?` finds the meeting points of a row as a machine does that has room for two of them and cannot
divide by zero. It has no result where that would go wrong, and does not look at how many points
there are before it stores one. `scan?_eq` says that it always has a result, and the right one.
-/

namespace DrawPlus.Shape

variable {x1 y1 x2 y2 x3 y3 y : ℤ}

/-! ## Words -/

/-- The number can be held in 32 bits. -/
def Fits (n : ℤ) : Prop := -2147483648 ≤ n ∧ n ≤ 2147483647

theorem fits_word (n : ℤ) : Fits (word n) := by
  have hlow := Int.le_bmod (x := n) (m := 4294967296) (by norm_num)
  have hhigh := Int.bmod_lt (x := n) (m := 4294967296) (by norm_num)
  unfold Fits word
  omega

theorem Fits.word_eq {n : ℤ} (h : Fits n) : word n = n := by
  obtain ⟨hlow, hhigh⟩ := h
  exact Int.bmod_eq_of_le (by omega) (by omega)

/-- Different words have a difference other than zero, though it may not be a word. -/
theorem word_sub_ne_zero {m n : ℤ} (hm : Fits m) (hn : Fits n) (h : m ≠ n) : word (m - n) ≠ 0 := by
  obtain ⟨hm, hm'⟩ := hm
  obtain ⟨hn, hn'⟩ := hn
  unfold word
  rw [Int.bmod_def]
  split_ifs <;> omega

/-! ## Edges -/

/-- An edge crosses a row if its ends are on different sides of it. -/
theorem crosses_eq (y1 y2 y : ℤ) : crosses y1 y2 y = (decide (y1 ≤ y) ^^ decide (y2 ≤ y)) := by
  unfold crosses
  by_cases h1 : y1 ≤ y <;> by_cases h2 : y2 ≤ y <;> simp [h1, h2] <;> omega

theorem ne_of_crosses (h : crosses y1 y2 y = true) : y1 ≠ y2 := by
  rintro rfl
  simp [crosses_eq] at h

/-- The corners of a triangle are on both sides of a row. -/
def Parted (y1 y2 y3 y : ℤ) : Prop :=
  min y1 (min y2 y3) ≤ y ∧ y < max y1 (max y2 y3)

instance : Decidable (Parted y1 y2 y3 y) := inferInstanceAs (Decidable (_ ∧ _))

theorem parted_iff : Parted y1 y2 y3 y ↔ crosses y1 y2 y = true ∨ crosses y2 y3 y = true := by
  simp only [Parted, crosses_eq]
  by_cases h1 : y1 ≤ y <;> by_cases h2 : y2 ≤ y <;> by_cases h3 : y3 ≤ y <;> simp [h1, h2, h3] <;>
    omega

/-- The last edge leads back to where the first two started. -/
theorem crosses_last (y1 y2 y3 y : ℤ) : crosses y3 y1 y = (crosses y1 y2 y ^^ crosses y2 y3 y) := by
  simp only [crosses_eq]
  cases decide (y1 ≤ y) <;> cases decide (y2 ≤ y) <;> cases decide (y3 ≤ y) <;> rfl

/-! ## Meeting points -/

/-- Where the edge between two points meets a row; nowhere if that takes a division by zero. -/
def crossing? (x1 y1 x2 y2 y : ℤ) : Option Float32 :=
  if word (y2 - y1) = 0 then none else some (crossing x1 y1 x2 y2 y)

/-- Store one more meeting point, if there is room for it. -/
def store? (found : List Float32) (x : Float32) : Option (List Float32) :=
  if found.length < 2 then some (found ++ [x]) else none

/-- Store where an edge meets a row, if it does. -/
def meet? (x1 y1 x2 y2 y : ℤ) (found : List Float32) : Option (List Float32) :=
  if crosses y1 y2 y then crossing? x1 y1 x2 y2 y >>= store? found else some found

/-- Store where the edges of a triangle meet a row. -/
def scan? (x1 y1 x2 y2 x3 y3 y : ℤ) : Option (List Float32) :=
  meet? x1 y1 x2 y2 y [] >>= meet? x2 y2 x3 y3 y >>= meet? x3 y3 x1 y1 y

theorem meet?_eq (h1 : Fits y1) (h2 : Fits y2) {found : List Float32}
    (h : crosses y1 y2 y = true → found.length < 2) :
    meet? x1 y1 x2 y2 y found =
      some (if crosses y1 y2 y then found ++ [crossing x1 y1 x2 y2 y] else found) := by
  unfold meet?
  split_ifs with hcrosses
  · have hdivisor : word (y2 - y1) ≠ 0 := word_sub_ne_zero h2 h1 (ne_of_crosses hcrosses).symm
    rw [crossing?, if_neg hdivisor, Option.bind_eq_bind, Option.bind_some, store?,
      if_pos (h hcrosses)]
  · rfl

/-- There is always room, as the third edge meets no row that both others meet. -/
theorem scan?_eq (h1 : Fits y1) (h2 : Fits y2) (h3 : Fits y3) (x1 x2 x3 y : ℤ) :
    scan? x1 y1 x2 y2 x3 y3 y = some (crossings x1 y1 x2 y2 x3 y3 y) := by
  have hlast := crosses_last y1 y2 y3 y
  cases h12 : crosses y1 y2 y <;> cases h23 : crosses y2 y3 y <;> simp only [h12, h23] at hlast <;>
    simp [scan?, crossings, meet?_eq, h1, h2, h3, h12, h23, hlast]

theorem length_crossings (x1 y1 x2 y2 x3 y3 y : ℤ) :
    (crossings x1 y1 x2 y2 x3 y3 y).length = if Parted y1 y2 y3 y then 2 else 0 := by
  simp only [crossings, parted_iff, crosses_last y1 y2 y3 y]
  cases crosses y1 y2 y <;> cases crosses y2 y3 y <;> rfl

/-! ## Rows -/

theorem mem_span {first last : ℤ} : y ∈ span first last ↔ first ≤ y ∧ y ≤ last := by
  simp only [span, List.mem_map, List.mem_range]
  constructor
  · rintro ⟨k, hk, rfl⟩
    omega
  · intro h
    exact ⟨(y - first).toNat, by omega, by omega⟩

theorem pairwise_span (first last : ℤ) : (span first last).Pairwise (· < ·) := by
  rw [span, List.pairwise_map]
  exact List.pairwise_lt_range.imp fun h => by omega

/-- A row that parts the corners has one line, and any other row has none. -/
theorem exists_triangleRow_eq (x1 y1 x2 y2 x3 y3 y : ℤ) : ∃ left right : ℤ,
    triangleRow x1 y1 x2 y2 x3 y3 y =
      if Parted y1 y2 y3 y then [Event.line left y right y] else [] := by
  have hlength := length_crossings x1 y1 x2 y2 x3 y3 y
  unfold triangleRow
  split_ifs at hlength ⊢ with hparted
  · obtain ⟨a, b, hcrossings⟩ := List.length_eq_two.mp hlength
    rw [hcrossings]
    exact ⟨_, _, rfl⟩
  · rw [List.length_eq_zero_iff.mp hlength]
    exact ⟨0, 0, rfl⟩

/-- Rows that have one line or none are drawn as the list of the lines there are. -/
theorem flatMap_rows {row : ℤ → List Event} {p : ℤ → Prop} [DecidablePred p] {line : ℤ → Event}
    (h : ∀ y, row y = if p y then [line y] else []) (ys : List ℤ) :
    ys.flatMap row = (ys.filter (p ·)).map line := by
  induction ys with
  | nil => rfl
  | cons y ys ih =>
    by_cases hy : p y <;> simp [List.flatMap_cons, h, hy, ih]

theorem span_eq_cons {first last : ℤ} (h : first ≤ last) :
    span first last = first :: span (first + 1) last := by
  have hcount : (last - first + 1).toNat = (last - (first + 1) + 1).toNat + 1 := by omega
  rw [span, span, hcount, List.range_succ_eq_map, List.map_cons, List.map_map]
  refine List.cons_eq_cons.mpr ⟨by simp, List.map_congr_left fun k _ => ?_⟩
  simp only [Function.comp_apply, Nat.cast_succ]
  omega

theorem span_self (n : ℤ) : span n n = [n] := by
  simp [span]

/-- The loop over the rows down to `last`, with the rows it has been through. -/
def Goes (last : ℤ) : ℤ × Array ℤ → ℤ × Array ℤ → Prop :=
  Loops (fun state => state.1 ≤ last) nextRow

/-- The loop over the rows of a triangle comes to an end. -/
def Ends (y1 y2 y3 : ℤ) : Prop :=
  ∃ state, Goes (max y1 (max y2 y3)) (min y1 (min y2 y3), #[]) state

/-- In as many rounds as there are rows, the loop goes through all of them. The row after the last
one need not be below it. -/
theorem repeatWhile_nextRow {last : ℤ} (hlast : Fits last) (count : ℕ) {y : ℤ} (hy : Fits y)
    (h : y + count = last) (seen : Array ℤ) :
    repeatWhile (fun state => state.1 ≤ last) nextRow (count + 1) (y, seen) =
      (word (last + 1), seen ++ (span y last).toArray) := by
  induction count generalizing y seen with
  | zero =>
    obtain rfl : y = last := by simpa using h
    simp [repeatWhile, nextRow, span_self]
  | succ count ih =>
    have hbefore : y < last := by omega
    have hnext : Fits (y + 1) := ⟨by linarith [hy.1], by linarith [hlast.2]⟩
    rw [repeatWhile, if_pos (by simpa using hbefore.le), nextRow, hnext.word_eq,
      ih hnext (by push_cast at h; omega), span_eq_cons hbefore.le]
    simp

theorem repeatWhile_rows {first last : ℤ} (hfirst : Fits first) (hlast : Fits last)
    (h : first ≤ last) :
    repeatWhile (fun state => state.1 ≤ last) nextRow (last - first + 1).toNat (first, #[]) =
      (word (last + 1), (span first last).toArray) := by
  have hcount : (last - first + 1).toNat = (last - first).toNat + 1 := by omega
  rw [hcount, repeatWhile_nextRow hlast _ hfirst (by omega)]
  simp

theorem rows_eq_span {first last : ℤ} (hfirst : Fits first) (hlast : Fits last)
    (h : first ≤ last) : rows first last = span first last := by
  rw [rows, repeatWhile_rows hfirst hlast h]

/-- If the row after the last one is below it, the loop ends there. -/
theorem goes_of_lt {first last : ℤ} (hfirst : Fits first) (hlast : Fits last) (h : first ≤ last)
    (hlt : last < 2147483647) :
    Goes last (first, #[]) (last + 1, (span first last).toArray) := by
  have hnext : Fits (last + 1) := ⟨by linarith [hlast.1], by omega⟩
  have hrounds := repeatWhile_rows hfirst hlast h
  rw [hnext.word_eq] at hrounds
  rw [← hrounds]
  apply loops_repeatWhile
  rw [hrounds]
  simp

/-- No row that 32 bits can hold is below the greatest number. -/
theorem not_goes {first : ℤ} (hfirst : Fits first) {state : ℤ × Array ℤ} :
    ¬Goes 2147483647 (first, #[]) state :=
  not_loops (fun state => Fits state.1) (fun _ h => by simpa using h.2)
    (fun state _ => fits_word (state.1 + 1)) hfirst

section

variable (h1 : Fits y1) (h2 : Fits y2) (h3 : Fits y3)

include h1 h2 h3

theorem fits_ends : Fits (min y1 (min y2 y3)) ∧ Fits (max y1 (max y2 y3)) ∧
    min y1 (min y2 y3) ≤ max y1 (max y2 y3) := by
  unfold Fits at *
  omega

theorem ends_iff : Ends y1 y2 y3 ↔ max y1 (max y2 y3) < 2147483647 := by
  obtain ⟨hfirst, hlast, hle⟩ := fits_ends h1 h2 h3
  constructor
  · rintro ⟨state, hgoes⟩
    refine lt_of_le_of_ne hlast.2 fun heq => ?_
    rw [heq] at hgoes
    exact not_goes hfirst hgoes
  · intro hlt
    exact ⟨_, goes_of_lt hfirst hlast hle hlt⟩

/-- The rows of a triangle that have a line are those that part the corners. -/
theorem exists_scanned_eq (x1 x2 x3 : ℤ) : ∃ (rows : List ℤ) (left right : ℤ → ℤ),
    scanned x1 y1 x2 y2 x3 y3 = rows.map (fun y => .line (left y) y (right y) y) ∧
    rows.Pairwise (· < ·) ∧ ∀ y, y ∈ rows ↔ Parted y1 y2 y3 y := by
  obtain ⟨hfirst, hlast, hle⟩ := fits_ends h1 h2 h3
  choose left right hrow using exists_triangleRow_eq x1 y1 x2 y2 x3 y3
  refine ⟨(span (min y1 (min y2 y3)) (max y1 (max y2 y3))).filter (Parted y1 y2 y3 ·), left, right,
    ?_, (pairwise_span _ _).filter _, fun y => ?_⟩
  · rw [scanned, rows_eq_span hfirst hlast hle]
    exact flatMap_rows hrow _
  · rw [List.mem_filter, mem_span, decide_eq_true_eq]
    exact ⟨fun h => h.2, fun h => ⟨⟨h.1, h.2.le⟩, h⟩⟩

end

/-- A filled triangle is drawn from the words that its corners are cut to, which for corners in 32
bits are the corners themselves. In every row the divisors are not zero, and there is room for each
meeting point, so that looking at the room before the third edge never holds one back. The loop over
the rows ends exactly if the lowest corner is above the greatest number in 32 bits. It has then been
through all rows from the uppermost corner to the lowest one, and there is exactly one line for
every row from the uppermost corner on that is above the lowest one. It is horizontal, and the lines
come in the order of the rows. -/
theorem triangle_filled (x1 y1 x2 y2 x3 y3 : ℤ) (color : Color) (thickness : ℤ) :
    (∀ n, word n = n ↔ -2147483648 ≤ n ∧ n ≤ 2147483647) ∧
    (∀ y, scan? (word x1) (word y1) (word x2) (word y2) (word x3) (word y3) y =
        some (crossings (word x1) (word y1) (word x2) (word y2) (word x3) (word y3) y) ∧
      (crossings (word x1) (word y1) (word x2) (word y2) (word x3) (word y3) y).length ≤ 2) ∧
    let first := min (word y1) (min (word y2) (word y3))
    let last := max (word y1) (max (word y2) (word y3))
    (Ends (word y1) (word y2) (word y3) ↔ last < 2147483647) ∧
    (last < 2147483647 →
      Goes last (first, #[]) (last + 1, (rows first last).toArray) ∧
      ∃ (drawn : List ℤ) (left right : ℤ → ℤ),
        triangle x1 y1 x2 y2 x3 y3 true color thickness =
          .setColor color :: drawn.map (fun y => .line (left y) y (right y) y) ∧
        drawn.Pairwise (· < ·) ∧ ∀ y, y ∈ drawn ↔ first ≤ y ∧ y < last) := by
  have h1 := fits_word y1
  have h2 := fits_word y2
  have h3 := fits_word y3
  obtain ⟨hfirst, hlast, hle⟩ := fits_ends h1 h2 h3
  refine ⟨fun n => ?_, fun y => ⟨scan?_eq h1 h2 h3 _ _ _ y, ?_⟩, ends_iff h1 h2 h3, fun hlt => ?_⟩
  · exact ⟨fun h => h ▸ fits_word n, Fits.word_eq⟩
  · rw [length_crossings]
    split_ifs <;> omega
  · rw [rows_eq_span hfirst hlast hle]
    refine ⟨goes_of_lt hfirst hlast hle hlt, ?_⟩
    obtain ⟨drawn, left, right, hdrawn, hrows⟩ :=
      exists_scanned_eq h1 h2 h3 (word x1) (word x2) (word x3)
    exact ⟨drawn, left, right, congrArg _ hdrawn, hrows⟩

/-- With a corner as low as 32 bits can say the loop over the rows does not end, and a triangle
beyond 32 bits is not drawn where its corners are. -/
theorem triangle_not_scanned : ¬Ends 2147483645 2147483645 2147483647 ∧
    ∀ left right : ℤ, Event.line left 4294967296 right 4294967296 ∉
      triangle 0 4294967296 4 4294967296 2 4294967298 true .black 1 := by
  constructor
  · rw [ends_iff (by unfold Fits; omega) (by unfold Fits; omega) (by unfold Fits; omega)]
    omega
  · intro left right hmem
    obtain ⟨drawn, left', right', hdrawn, -, hrows⟩ := exists_scanned_eq (fits_word 4294967296)
      (fits_word 4294967296) (fits_word 4294967298) (word 0) (word 4) (word 2)
    have htriangle : triangle 0 4294967296 4 4294967296 2 4294967298 true .black 1 = _ :=
      congrArg (Event.setColor .black :: ·) hdrawn
    simp only [htriangle, List.mem_cons, reduceCtorEq, List.mem_map, Event.line.injEq,
      false_or] at hmem
    obtain ⟨y, hy, -, rfl, -⟩ := hmem
    exact absurd ((hrows 4294967296).mp hy) (by decide)

end DrawPlus.Shape
