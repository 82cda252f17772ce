import DrawPlus.Proofs.Canvas.Discs
import DrawPlus.Proofs.Numbers.Magnitude

/-!
# The columns of a filled ellipse

The half-height of a column of a filled ellipse is computed from a root of one less a quotient of
squares. `HeightDefined` says that no step of this is undefined: there is no division by zero and no
root of a negative number, neither exactly nor after rounding. In an ellipse with a width it is so
for every column, since rounding cannot take a quotient of at most one beyond one
(`heightDefined_iff`).

An ellipse without a width has one column, and its half-height comes from zero divided by zero. That
is not a number, and neither is anything that is computed from it, until both ends of the line
become the least integer of 32 bits (`ellipse_flat`).
-/

namespace DrawPlus.Shape

open Float.Model Precision

variable {radiusX radiusY dx : ℤ}

/-! ## Ellipses with a width -/

/-- The half-height of a column is computed without a step that is undefined. The squares have 32
bits, the divisor is not zero, what the root is taken of is not negative, exactly and in single
precision, and the result is a number. -/
structure HeightDefined (radiusX radiusY dx : ℤ) : Prop where
  square : radiusX * radiusX < -leastWord
  part : dx * dx < -leastWord
  divisor : radiusX * radiusX ≠ 0
  radicand : 0 ≤ ellipsePart (Int.cast : ℤ → ℚ) radiusX dx
  rounded : single 0 ≤ ellipsePart single radiusX dx
  height : single 0 ≤ ellipseHeight radiusX radiusY dx

theorem zero_le_ellipsePart (hwidth : 0 < radiusX * radiusX) (h : dx * dx ≤ radiusX * radiusX) :
    0 ≤ ellipsePart (Int.cast : ℤ → ℚ) radiusX dx := by
  have hdivisor : (0 : ℚ) < (radiusX * radiusX : ℤ) := Int.cast_pos.mpr hwidth
  rw [ellipsePart, Int.cast_one, sub_nonneg, div_le_one hdivisor]
  exact Int.cast_le.mpr h

theorem moderate_ellipsePart (hwidth : 0 < radiusX * radiusX) (h : dx * dx ≤ radiusX * radiusX)
    (hfits : radiusX * radiusX < -leastWord) :
    Moderate 23 60 (ellipsePart single radiusX dx).toModel.unpack := by
  obtain ⟨a, ha⟩ := Int.eq_ofNat_of_zero_le (mul_self_nonneg dx)
  obtain ⟨b, hb⟩ := Int.eq_ofNat_of_zero_le (mul_self_nonneg radiusX)
  unfold leastWord at hfits
  rw [ellipsePart, ha, hb]
  exact moderate_one_sub_div (by omega) (by omega) (by omega)

theorem single_zero_le_ellipseHeight (hy : 0 ≤ radiusY ∧ radiusY < -leastWord)
    (hpart : Moderate 23 60 (ellipsePart single radiusX dx).toModel.unpack) :
    single 0 ≤ ellipseHeight radiusX radiusY dx := by
  obtain ⟨n, rfl⟩ := Int.eq_ofNat_of_zero_le hy.1
  unfold leastWord at hy
  exact zero_le_mul_sqrt (moderate_single (by omega)) hpart (by decide) (by decide)

/-- In an ellipse with a width, and only there, all columns have a height. -/
theorem heightDefined_iff (hdx : |dx| ≤ radiusX) (hfits : radiusX * radiusX < -leastWord)
    (hy : 0 ≤ radiusY ∧ radiusY < -leastWord) : HeightDefined radiusX radiusY dx ↔ radiusX ≠ 0 := by
  constructor
  · intro hdefined
    exact left_ne_zero_of_mul hdefined.divisor
  · intro hradius
    have hwidth : 0 < radiusX * radiusX := mul_self_pos.mpr hradius
    have hinside := mul_self_le_of_abs_le hdx
    have hpart := moderate_ellipsePart hwidth hinside hfits
    exact ⟨hfits, hinside.trans_lt hfits, hwidth.ne', zero_le_ellipsePart hwidth hinside,
      hpart.notNegative.zero_le, single_zero_le_ellipseHeight hy hpart⟩

/-! ## Ellipses without a width -/

theorem unpack_mul_notANumber {y : Float} (h : y.toModel.unpack = .notANumber) (x : Float) :
    (x * y).toModel.unpack = .notANumber := by
  have hmul : UnpackedFloat.mul .binary64 x.toModel.unpack .notANumber = .notANumber := by
    cases x.toModel.unpack <;> rfl
  rw [unpack_mul, h, hmul]
  exact UnpackedFloat.unpack_packedNaN

theorem unpack_narrow_notANumber {x : Float} (h : x.toModel.unpack = .notANumber) :
    (narrow x).toModel.unpack = .notANumber := by
  rw [unpack_narrow, h]
  exact UnpackedFloat.unpack_packedNaN

theorem unpack_sub_notANumber {y : Float32} (h : y.toModel.unpack = .notANumber) (x : Float32) :
    (x - y).toModel.unpack = .notANumber := by
  have hsub : UnpackedFloat.sub .binary32 x.toModel.unpack .notANumber = .notANumber := by
    cases x.toModel.unpack <;> rfl
  rw [unpack_sub, h, hsub]
  exact UnpackedFloat.unpack_packedNaN

theorem unpack_add_notANumber {y : Float32} (h : y.toModel.unpack = .notANumber) (x : Float32) :
    (x + y).toModel.unpack = .notANumber := by
  have hadd : UnpackedFloat.add .binary32 x.toModel.unpack .notANumber = .notANumber := by
    cases x.toModel.unpack <;> rfl
  rw [unpack_add, h, hadd]
  exact UnpackedFloat.unpack_packedNaN

theorem truncateSingle_notANumber {x : Float32} (h : x.toModel.unpack = .notANumber) :
    truncateSingle x = leastWord := by
  have hwide : (widen x).isNaN = true := by
    rw [widen, h]
    rfl
  rw [truncateSingle, truncate, if_pos hwide]

theorem unpack_ellipseHeight_zero (radiusY : ℤ) :
    (ellipseHeight 0 radiusY 0).toModel.unpack = .notANumber := by
  have hroot : (widen (ellipsePart single 0 0)).sqrt.toModel.unpack = .notANumber := rfl
  exact unpack_narrow_notANumber (unpack_mul_notANumber hroot _)

/-- The line of an ellipse without a width is not where the ellipse is. -/
theorem ellipse_flat (centerX centerY radiusY : ℤ) (color : Color) (thickness : ℤ) :
    ellipse centerX centerY 0 radiusY true color thickness =
      [.setColor color, .line centerX leastWord centerX leastWord] := by
  have hheight := unpack_ellipseHeight_zero radiusY
  have htop := truncateSingle_notANumber (unpack_sub_notANumber hheight (single centerY))
  have hbottom := truncateSingle_notANumber (unpack_add_notANumber hheight (single centerY))
  have hspan : span (-0) 0 = [0] := rfl
  rw [ellipse, if_pos rfl, hspan, List.map_singleton]
  dsimp only
  rw [htop, hbottom, add_zero]

/-- A filled ellipse has exactly one vertical line in each column from the leftmost to the
rightmost, in this order. In every column the half-height is computed without an undefined step if
and only if the ellipse has a width. Without one, the only line is a point in the row of the least
integer, whatever the centre and the height of the ellipse are. -/
theorem ellipse_filled_defined_iff (centerX centerY : ℤ) {radiusX radiusY : ℤ} (color : Color)
    (thickness : ℤ) (hradius : 0 ≤ radiusX) (hfits : radiusX * radiusX < -leastWord)
    (hy : 0 ≤ radiusY ∧ radiusY < -leastWord) :
    (∀ dx, -radiusX ≤ dx → dx ≤ radiusX → (HeightDefined radiusX radiusY dx ↔ radiusX ≠ 0)) ∧
    ∃ lines, ellipse centerX centerY radiusX radiusY true color thickness =
        .setColor color :: lines ∧
      (lines.length : ℤ) = 2 * radiusX + 1 ∧
      FillsColumns (centerX - radiusX) (centerX + radiusX) lines ∧
      (radiusX = 0 → lines = [.line centerX leastWord centerX leastWord]) := by
  refine ⟨fun dx hleft hright => heightDefined_iff (abs_le.mpr ⟨hleft, hright⟩) hfits hy, _, rfl,
    ?_, fillsColumns_span centerX radiusX _ _, ?_⟩
  · rw [if_pos rfl, List.length_map, length_span]
    omega
  · rintro rfl
    exact (List.cons.inj (ellipse_flat centerX centerY radiusY color thickness)).2

/-- The widest ellipse, at its right end. -/
theorem ellipse_filled_defined_widest : (46340 : ℤ) * 46340 < -leastWord ∧
    HeightDefined 46340 9 46340 ∧ ∃ lines, ellipse 10 20 46340 9 true .black 1 =
      .setColor .black :: lines ∧ lines.length = 92681 := by
  have hfits : (46340 : ℤ) * 46340 < -leastWord := by decide
  obtain ⟨hdefined, lines, hlines, hlength, -⟩ :=
    ellipse_filled_defined_iff 10 20 .black 1 (show (0 : ℤ) ≤ 46340 by decide) hfits
      (show (0 : ℤ) ≤ 9 ∧ 9 < -leastWord by decide)
  exact ⟨hfits, (hdefined 46340 (by decide) le_rfl).mpr (by decide), lines, hlines, by omega⟩

/-- A point at row 20 is drawn somewhere else, after a division by zero. -/
theorem ellipse_flat_undefined : ¬HeightDefined 0 0 0 ∧
    ellipse 10 20 0 0 true Hue.red.color 1 =
      [.setColor Hue.red.color, .line 10 (-2147483648) 10 (-2147483648)] :=
  ⟨fun h => h.divisor rfl, ellipse_flat 10 20 0 Hue.red.color 1⟩

end DrawPlus.Shape
