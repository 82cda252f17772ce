import DrawPlus.Proofs.Canvas.Scanlines

/-!
# The columns of a filled circle

A filled circle is made of vertical lines, one in each column, that go up and down from the middle
by the integer part of a root. `Covered` are the lattice points on the lines that events draw, and
those of a filled circle are the points of the disc (`covered_discColumns_iff`).

Lengths are integers of 32 bits, and a root is taken only of what is not negative. `word?` and
`root?` have no result otherwise, and `discHeight?` computes the height of a column with them.
`discHeight?_eq_some` says when nothing goes wrong.
-/

namespace DrawPlus.Shape

variable {x y dx radius : ℤ}

/-! ## Columns -/

theorem length_span (first last : ℤ) : (span first last).length = (last - first + 1).toNat := by
  rw [span, List.length_map, List.length_range]

theorem map_add_span (center first last : ℤ) :
    (span first last).map (center + ·) = span (center + first) (center + last) := by
  have hwidth : center + last - (center + first) + 1 = last - first + 1 := by ring
  rw [span, span, hwidth, List.map_map]
  exact List.map_congr_left fun k _ => (add_assoc center first k).symm

/-- Vertical lines, one in each column from `first` to `last`, from left to right. -/
def FillsColumns (first last : ℤ) (lines : List Event) : Prop :=
  ∃ (columns : List ℤ) (top bottom : ℤ → ℤ),
    lines = columns.map (fun x => .line x (top x) x (bottom x)) ∧
    columns.Pairwise (· < ·) ∧ ∀ x, x ∈ columns ↔ first ≤ x ∧ x ≤ last

/-- What a loop over the distances of the columns from their middle draws. -/
theorem fillsColumns_span (center reach : ℤ) (top bottom : ℤ → ℤ) :
    FillsColumns (center - reach) (center + reach) ((span (-reach) reach).map fun dx =>
      .line (center + dx) (top dx) (center + dx) (bottom dx)) := by
  refine ⟨(span (-reach) reach).map (center + ·), fun x => top (x - center),
    fun x => bottom (x - center), ?_, ?_, fun x => ?_⟩
  · simp only [List.map_map, Function.comp_def, add_sub_cancel_left]
  · rw [map_add_span]
    exact pairwise_span _ _
  · rw [map_add_span, mem_span, ← sub_eq_add_neg]

/-! ## Points of lines -/

/-- A lattice point lies on the segment between two others. -/
def OnSegment (x1 y1 x2 y2 x y : ℤ) : Prop :=
  (x - x1) * (y2 - y1) = (y - y1) * (x2 - x1) ∧
    (min x1 x2 ≤ x ∧ x ≤ max x1 x2) ∧ min y1 y2 ≤ y ∧ y ≤ max y1 y2

/-- A lattice point lies on a line that events draw. -/
def Covered (events : List Event) (x y : ℤ) : Prop :=
  ∃ x1 y1 x2 y2, .line x1 y1 x2 y2 ∈ events ∧ OnSegment x1 y1 x2 y2 x y

theorem onSegment_column_iff {column center height : ℤ} (h : 0 ≤ height) :
    OnSegment column (center - height) column (center + height) x y ↔
      x = column ∧ |y - center| ≤ height := by
  have hends : center - height ≤ center + height := by omega
  rw [OnSegment, min_self, max_self, min_eq_left hends, max_eq_right hends, abs_le]
  constructor
  · rintro ⟨-, hx, hy⟩
    exact ⟨by omega, by omega⟩
  · rintro ⟨rfl, hy⟩
    refine ⟨?_, ⟨le_refl x, le_refl x⟩, by omega⟩
    rw [sub_self, zero_mul, mul_zero]

theorem covered_columns_iff (centerX centerY reach : ℤ) {height : ℤ → ℤ} (h : ∀ dx, 0 ≤ height dx) :
    Covered ((span (-reach) reach).map fun dx =>
      .line (centerX + dx) (centerY - height dx) (centerX + dx) (centerY + height dx)) x y ↔
      |x - centerX| ≤ reach ∧ |y - centerY| ≤ height (x - centerX) := by
  constructor
  · rintro ⟨x1, y1, x2, y2, hline, hon⟩
    obtain ⟨dx, hdx, heq⟩ := List.mem_map.mp hline
    cases heq
    obtain ⟨rfl, hy⟩ := (onSegment_column_iff (h dx)).mp hon
    rw [add_sub_cancel_left]
    exact ⟨abs_le.mpr (mem_span.mp hdx), hy⟩
  · rintro ⟨hx, hy⟩
    refine ⟨_, _, _, _, List.mem_map_of_mem (mem_span.mpr (abs_le.mp hx)), ?_⟩
    rw [onSegment_column_iff (h _), add_sub_cancel]
    exact ⟨rfl, hy⟩

/-! ## Heights -/

theorem integerRoot_eq_sqrt (n : ℕ) : integerRoot n = n.sqrt := by
  induction n using Nat.strong_induction_on with
  | _ n ih =>
    rw [integerRoot]
    split_ifs with hn
    · rw [hn, Nat.sqrt_zero]
    · -- twice the root of a quarter is the root or one less
      have hquarter := ih (n / 4) (Nat.div_lt_self (Nat.pos_of_ne_zero hn) (by decide))
      have hle := Nat.sqrt_le (n / 4)
      have hlt := Nat.lt_succ_sqrt (n / 4)
      dsimp only
      rw [hquarter]
      generalize (n / 4).sqrt = root at hle hlt
      split_ifs with hnext
      · exact Nat.eq_sqrt.mpr ⟨hnext, by grind⟩
      · exact Nat.eq_sqrt.mpr ⟨by grind, by omega⟩

/-- A column goes as far up and down as the disc does. -/
theorem abs_le_discHeight_iff (h : dx * dx ≤ radius * radius) :
    |y| ≤ discHeight radius dx ↔ dx ^ 2 + y ^ 2 ≤ radius ^ 2 := by
  rw [discHeight, integerRoot_eq_sqrt, Int.abs_eq_natAbs, Nat.cast_le, Nat.le_sqrt]
  zify
  rw [Int.toNat_of_nonneg (by omega), abs_mul_abs_self]
  constructor <;> intro hy <;> linarith

theorem mul_self_le_of_abs_le (h : |dx| ≤ radius) : dx * dx ≤ radius * radius := by
  rw [← abs_mul_abs_self]
  exact mul_self_le_mul_self (abs_nonneg dx) h

def discColumns (centerX centerY radius : ℤ) : List Event :=
  (span (-radius) radius).map fun dx =>
    .line (centerX + dx) (centerY - discHeight radius dx) (centerX + dx)
      (centerY + discHeight radius dx)

theorem covered_discColumns_iff (centerX centerY : ℤ) (hradius : 0 ≤ radius) :
    Covered (discColumns centerX centerY radius) x y ↔
      (x - centerX) ^ 2 + (y - centerY) ^ 2 ≤ radius ^ 2 := by
  have hheight (dx : ℤ) : 0 ≤ discHeight radius dx := Int.natCast_nonneg _
  rw [discColumns, covered_columns_iff centerX centerY radius hheight]
  constructor
  · rintro ⟨hx, hy⟩
    exact (abs_le_discHeight_iff (mul_self_le_of_abs_le hx)).mp hy
  · intro hinside
    have hx : |x - centerX| ≤ radius :=
      abs_le_of_sq_le_sq (le_of_add_le_of_nonneg_left hinside (sq_nonneg _)) hradius
    exact ⟨hx, (abs_le_discHeight_iff (mul_self_le_of_abs_le hx)).mpr hinside⟩

/-! ## Arithmetic that can go wrong -/

/-- An integer of 32 bits; nothing if it takes more. -/
def word? (n : ℤ) : Option ℤ :=
  if leastWord ≤ n ∧ n < -leastWord then some n else none

/-- The integer part of a root; nothing for a negative number. -/
def root? (n : ℤ) : Option ℤ :=
  if n < 0 then none else some (integerRoot n.toNat)

/-- The vertical half-extent of a disc at a horizontal distance from its centre, if nothing goes
wrong when it is computed. -/
def discHeight? (radius dx : ℤ) : Option ℤ := do
  let square ← word? (radius * radius)
  let part ← word? (dx * dx)
  word? (square - part) >>= root?

/-- Nothing goes wrong inside the disc if the square of the radius has 32 bits. -/
theorem discHeight?_eq_some (h : dx * dx ≤ radius * radius) (hfits : radius * radius < -leastWord) :
    discHeight? radius dx = some (discHeight radius dx) := by
  have hsquare : 0 ≤ dx * dx := mul_self_nonneg dx
  have hword {n : ℤ} (h0 : 0 ≤ n) (hn : n ≤ radius * radius) : word? n = some n := by
    rw [word?, if_pos]
    exact ⟨by unfold leastWord; omega, by omega⟩
  have hrest : 0 ≤ radius * radius - dx * dx := by omega
  simp only [discHeight?, hword (hsquare.trans h) le_rfl, hword hsquare h, hword hrest (by omega),
    Option.bind_eq_bind, Option.bind_some]
  rw [root?, if_neg (not_lt.mpr hrest)]
  rfl

theorem square_fits (h0 : 0 ≤ radius) (h : radius ≤ 46340) : radius * radius < -leastWord := by
  have := mul_self_le_mul_self h0 h
  unfold leastWord
  omega

/-- A filled circle is the disc. If the square of the radius has 32 bits, the heights of all columns
are computed without a step that could go wrong, and no root of a negative number is taken. There is
exactly one vertical line in each column from the leftmost to the rightmost, in this order, and the
lattice points on these lines are those of the disc. -/
theorem circle_filled (centerX centerY : ℤ) {radius : ℤ} (color : Color) (thickness : ℤ)
    (hradius : 0 ≤ radius) (hfits : radius ≤ 46340) :
    (∀ dx, -radius ≤ dx → dx ≤ radius → 0 ≤ radius * radius - dx * dx ∧
      discHeight? radius dx = some (discHeight radius dx)) ∧
    ∃ lines, circle centerX centerY radius true color thickness = .setColor color :: lines ∧
      (lines.length : ℤ) = 2 * radius + 1 ∧
      FillsColumns (centerX - radius) (centerX + radius) lines ∧
      ∀ x y, Covered lines x y ↔ (x - centerX) ^ 2 + (y - centerY) ^ 2 ≤ radius ^ 2 := by
  constructor
  · intro dx hleft hright
    have hinside := mul_self_le_of_abs_le (abs_le.mpr ⟨hleft, hright⟩)
    exact ⟨by omega, discHeight?_eq_some hinside (square_fits hradius hfits)⟩
  · refine ⟨discColumns centerX centerY radius, rfl, ?_, fillsColumns_span centerX radius _ _,
      fun x y => covered_discColumns_iff centerX centerY hradius⟩
    rw [discColumns, List.length_map, length_span]
    omega

/-- The largest circle, with a point on its edge and the point to the right of that one. -/
theorem circle_filled_largest :
    (0 : ℤ) ≤ 46340 ∧ ∃ lines, circle 3 (-4) 46340 true .black 1 = .setColor .black :: lines ∧
      lines.length = 92681 ∧ Covered lines 3 46336 ∧ ¬Covered lines 4 46336 := by
  obtain ⟨-, lines, hcircle, hlength, -, hcovered⟩ :=
    circle_filled 3 (-4) .black 1 (show (0 : ℤ) ≤ 46340 by decide) le_rfl
  refine ⟨by decide, lines, hcircle, by omega, (hcovered 3 46336).mpr (by decide), fun h => ?_⟩
  exact absurd ((hcovered 4 46336).mp h) (by decide)

end DrawPlus.Shape
