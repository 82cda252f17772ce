import DrawPlus.Proofs.Numbers.Precision

/-!
# Numbers of moderate size

A `Moderate` number is so far from being too small or too large for a format that roots, differences
and conversions of it are `Moderate` as well. Integers of 32 bits are (`moderate_single`), and so is
one less a quotient of at most one, since rounding does not take the quotient beyond one
(`moderate_one_sub_div`). A product of such a number and a root of another one is a number, and not
negative (`zero_le_mul_sqrt`).
-/

namespace DrawPlus.Precision

open Float.Model Float.Model.UnpackedFloat

variable {format : Format} {x : ℚ} {m n p b : ℕ} {e k : ℤ} {u v : UnpackedFloat}

/-! ## Rounding and roots -/

/-- Zero, or a positive number with a full mantissa that is at most about `b` doublings away from
one. -/
inductive Moderate (p b : ℕ) : UnpackedFloat → Prop
  | zero : Moderate p b (.zero .positive)
  | finite {m : ℕ} {e : ℤ} (full : 2 ^ p ≤ m ∧ m < 2 ^ (p + 1)) (range : -b ≤ e + p ∧ e + p ≤ b)
      (h : 0 < m) : Moderate p b (.finite .positive m e h)

theorem Moderate.notNegative (h : Moderate p b u) : NotNegative u := by
  cases h with
  | zero => exact .zero
  | finite full range h => exact .finite ..

theorem Moderate.unpack_pack (h : Moderate p b u) (hp : format.mantissaBitsWithoutImplicit = p)
    (hb : b < format.exponentBias) :
    UnpackedFloat.unpack format (UnpackedFloat.pack format u) = u := by
  cases h with
  | zero => exact unpack_packedZero
  | finite full range h => exact unpack_pack_full hp full (by omega) h

theorem Rounds.moderate (h : Rounds p x k m e) (hk : -b ≤ k ∧ k < b) (hm : 0 < m) :
    Moderate p b (.finite .positive m e hm) := by
  have hexponent := h.exponent
  exact .finite h.full (by omega) hm

theorem moderate_round (hp : format.mantissaBitsWithoutImplicit = p) (hb : b < format.exponentBias)
    (hpos : 0 < n) (hrange : -b ≤ n.log2 + e ∧ n.log2 + e < b) :
    Moderate p b (.round format .positive n e) := by
  obtain ⟨m, e', h, heq, hrounds⟩ := exists_round_eq (e := e) hp hpos (by omega) .positive
  rw [heq]
  exact hrounds.moderate hrange h

theorem Moderate.refit {q : ℕ} (h : Moderate q b u) (hp : format.mantissaBitsWithoutImplicit = p)
    (hb : b + 1 < format.exponentBias) : Moderate p (b + 1) (Shape.refit format u) := by
  cases h with
  | zero => exact .zero
  | finite full range h =>
    have hlog := log2_of_bounds full.1 full.2
    exact moderate_round hp hb h (by omega)

theorem exists_represents (em : ExtendedMantissa) : ∃ x, Represents em x := by
  rcases em with ⟨m, _ | _, _ | _⟩
  · exact ⟨m, rfl⟩
  · exact ⟨m + 1 / 4, by linarith, by linarith⟩
  · exact ⟨m + 1 / 2, rfl⟩
  · exact ⟨m + 3 / 4, by linarith, by linarith⟩

theorem moderate_roundWithAccuracy (hp : format.mantissaBitsWithoutImplicit = p)
    (hb : b < format.exponentBias) (hm : 2 ^ p ≤ m ∧ m < 2 ^ (p + 1))
    (hrange : -b ≤ e + p ∧ e + p < b) (accuracy : Accuracy) :
    Moderate p b (roundWithAccuracy format .positive m e accuracy) := by
  -- any number that the bits may stand for is rounded to the same
  obtain ⟨x, hx⟩ := exists_represents (.ofMantissaAndAccuracy m accuracy)
  have hbounds := hx.bounds
  rw [mantissa_ofMantissaAndAccuracy] at hbounds
  have hunit : (0 : ℚ) < 2 ^ e := by positivity
  have hlow : ((2 ^ p : ℕ) : ℚ) ≤ x := (Nat.cast_le.mpr hm.1).trans hbounds.1
  have hhigh : x < (2 ^ (p + 1) : ℕ) :=
    hbounds.2.trans_le (by exact_mod_cast Nat.succ_le_of_lt hm.2)
  have hpower : ((2 ^ p : ℕ) : ℚ) * 2 ^ e = 2 ^ (e + p) := two_pow_mul_zpow (by omega)
  have hnext : ((2 ^ (p + 1) : ℕ) : ℚ) * 2 ^ e = 2 ^ (e + p + 1) :=
    two_pow_mul_zpow (by push_cast; omega)
  have hbinade : 2 ^ (e + p) ≤ x * 2 ^ e ∧ x * 2 ^ e < 2 ^ (e + p + 1) := by
    rw [← hpower, ← hnext]
    exact ⟨mul_le_mul_of_nonneg_right hlow hunit.le, mul_lt_mul_of_pos_right hhigh hunit⟩
  rw [← mul_div_cancel_right₀ x hunit.ne'] at hx
  obtain ⟨m', e', h, heq, hrounds⟩ :=
    exists_roundWithAccuracy_eq hp hx hbinade (by omega) (by omega) .positive
  rw [heq]
  exact hrounds.moderate hrange h

theorem sqrt_bounds {j : ℕ} (hm : 2 ^ p ≤ m ∧ m < 2 ^ (p + 1)) (hj : j = p ∨ j = p + 1) :
    2 ^ p ≤ (m <<< j).sqrt ∧ (m <<< j).sqrt < 2 ^ (p + 1) := by
  rw [Nat.le_sqrt, Nat.sqrt_lt, Nat.shiftLeft_eq]
  constructor
  · exact Nat.mul_le_mul hm.1 (Nat.pow_le_pow_right two_pos (by omega))
  · exact Nat.mul_lt_mul_of_lt_of_le hm.2 (Nat.pow_le_pow_right two_pos (by omega)) (by positivity)

theorem Moderate.sqrt (h : Moderate p b u) (hp : format.mantissaBitsWithoutImplicit = p)
    (hb : b + 1 < format.exponentBias) : Moderate p (b + 1) (.sqrt format u) := by
  cases h with
  | zero => exact .zero
  | @finite m e full range h =>
    -- the mantissa is shifted so far that its root is a full mantissa again
    have htarget : min (e.ediv 2) (format.targetExponent ((totalExponent m e + 1).ediv 2)) =
        (e - p) / 2 := by
      rw [Format.targetExponent, totalExponent, log2_of_bounds full.1 full.2, minExponent_eq,
        Format.mantissaBits, hp]
      change min (e / 2) (max ((p + 1 + e + 1) / 2 - (1 + p : ℕ)) _) = _
      push_cast
      omega
    have hsqrt : UnpackedFloat.sqrt format (.finite .positive m e h) =
      roundWithAccuracy format .positive (sqrtCore format m e).1 (sqrtCore format m e).2.1
        (sqrtCore format m e).2.2 := rfl
    rw [hsqrt, sqrtCore, htarget]
    dsimp only
    exact moderate_roundWithAccuracy hp hb (sqrt_bounds full (by omega)) (by omega) _

theorem notNegative_roundWithAccuracy (format : Format) (m : ℕ) (e : ℤ) (accuracy : Accuracy) :
    NotNegative (roundWithAccuracy format .positive m e accuracy) := by
  unfold roundWithAccuracy
  dsimp only
  split_ifs
  · exact .zero
  · exact .finite ..

theorem Moderate.mul {q c : ℕ} (hu : Moderate p b u) (hv : Moderate q c v) (format : Format) :
    NotNegative (.mul format u v) := by
  cases hu with
  | zero => cases hv <;> exact .zero
  | finite _ _ h =>
    cases hv with
    | zero => exact .zero
    | finite _ _ h' => exact notNegative_roundWithAccuracy ..

theorem NotNegative.refit (h : NotNegative u) (format : Format) :
    NotNegative (Shape.refit format u) := by
  cases h with
  | zero => exact .zero
  | finite m e h => exact notNegative_roundWithAccuracy ..
  | infinity => exact .infinity

/-! ## Quotients and differences -/

/-- A quotient with the remainder that is left is rounded as the exact quotient. -/
theorem represents_div (n : ℕ) {d : ℕ} (hd : 0 < d) :
    Represents (.ofMantissaAndAccuracy (n / d) (accuracyOfFraction (n % d) d)) ((n : ℚ) / d) := by
  have hd' : (0 : ℚ) < d := Nat.cast_pos.mpr hd
  have hx : (n : ℚ) / d = (n / d : ℕ) + (n % d : ℕ) / d := by
    rw [add_div' _ _ _ hd'.ne', mul_comm]
    congr 1
    exact_mod_cast (Nat.div_add_mod n d).symm
  have hlt : n % d < d := Nat.mod_lt n hd
  rw [hx]
  generalize n % d = r at hlt
  unfold accuracyOfFraction
  split_ifs with hzero
  · rw [hzero, Nat.cast_zero, zero_div, add_zero]
    rfl
  · have hpos : (0 : ℚ) < r / d := div_pos (Nat.cast_pos.mpr (Nat.pos_of_ne_zero hzero)) hd'
    have hone : (r : ℚ) / d < 1 := (div_lt_one hd').mpr (Nat.cast_lt.mpr hlt)
    rcases lt_trichotomy (2 * r) d with hhalf | hhalf | hhalf
    · have hbelow : (r : ℚ) / d < 1 / 2 := by
        rw [div_lt_div_iff₀ hd' two_pos]
        exact_mod_cast (by omega : r * 2 < 1 * d)
      rw [Nat.compare_eq_lt.mpr hhalf]
      exact ⟨by linarith, by linarith⟩
    · have hequal : (r : ℚ) / d = 1 / 2 := by
        rw [div_eq_div_iff hd'.ne' two_ne_zero]
        exact_mod_cast (by omega : r * 2 = 1 * d)
      rw [Nat.compare_eq_eq.mpr hhalf, hequal]
      rfl
    · have habove : (1 : ℚ) / 2 < r / d := by
        rw [div_lt_div_iff₀ two_pos hd']
        exact_mod_cast (by omega : 1 * d < r * 2)
      rw [Nat.compare_eq_gt.mpr hhalf]
      exact ⟨by linarith, by linarith⟩

theorem divCore_full {m₁ m₂ : ℕ} {e₁ e₂ : ℤ} (h₁ : 2 ^ 23 ≤ m₁ ∧ m₁ < 2 ^ 24)
    (h₂ : 2 ^ 23 ≤ m₂ ∧ m₂ < 2 ^ 24) (he : -100 ≤ e₁ - e₂) (hn : m₁ <<< 24 = n) :
    divCore .binary32 m₁ e₁ m₂ e₂ =
      (n / m₂, e₁ - e₂ - 24, accuracyOfFraction (n % m₂) m₂) := by
  have hleast : Format.binary32.minExponent = -149 := by decide
  have hbits : Format.binary32.mantissaBits = 24 := by decide
  have htarget : min (e₁ - e₂) (Format.binary32.targetExponent
      (totalExponent m₁ e₁ - totalExponent m₂ e₂)) = e₁ - e₂ - 24 := by
    rw [Format.targetExponent, totalExponent, totalExponent, log2_of_bounds h₁.1 h₁.2,
      log2_of_bounds h₂.1 h₂.2, hleast, hbits]
    push_cast
    omega
  have hshift : (e₁ - e₂ - (e₁ - e₂ - 24)).toNat = 24 := by omega
  rw [divCore, htarget, hshift, hn]

/-- The powers of two around a quotient of full mantissas. -/
theorem exists_binade_div {m₁ m₂ : ℕ} (h₁ : 2 ^ 23 ≤ m₁ ∧ m₁ < 2 ^ 24)
    (h₂ : 2 ^ 23 ≤ m₂ ∧ m₂ < 2 ^ 24) (d : ℤ) : ∃ k, (d - 1 ≤ k ∧ k ≤ d) ∧
      (2 ^ k ≤ (m₁ / m₂ : ℚ) * 2 ^ d ∧ (m₁ / m₂ : ℚ) * 2 ^ d < 2 ^ (k + 1)) := by
  have hm₂ : (0 : ℚ) < m₂ := Nat.cast_pos.mpr (by omega)
  have hunit : (0 : ℚ) < 2 ^ d := by positivity
  rcases le_or_gt m₂ m₁ with hle | hlt
  · have hone : 1 ≤ (m₁ / m₂ : ℚ) := (one_le_div hm₂).mpr (Nat.cast_le.mpr hle)
    have htwo : (m₁ / m₂ : ℚ) < 2 := by
      rw [div_lt_iff₀ hm₂]
      exact_mod_cast (by omega : m₁ < 2 * m₂)
    refine ⟨d, ⟨by omega, le_rfl⟩, le_mul_of_one_le_left hunit.le hone, ?_⟩
    rw [zpow_add_one₀ two_ne_zero, mul_comm]
    exact mul_lt_mul_of_pos_left htwo hunit
  · have hone : (m₁ / m₂ : ℚ) < 1 := (div_lt_one hm₂).mpr (Nat.cast_lt.mpr hlt)
    have hhalf : 2⁻¹ ≤ (m₁ / m₂ : ℚ) := by
      rw [le_div_iff₀ hm₂, inv_mul_le_iff₀ two_pos]
      exact_mod_cast (by omega : m₂ ≤ 2 * m₁)
    refine ⟨d - 1, ⟨le_rfl, by omega⟩, ?_, ?_⟩
    · rw [zpow_sub_one₀ two_ne_zero, mul_comm]
      exact mul_le_mul_of_nonneg_right hhalf hunit.le
    · rw [sub_add_cancel]
      exact mul_lt_of_lt_one_left hunit hone

/-- The quotient of numbers with full mantissas. -/
theorem exists_div_eq {m₁ m₂ : ℕ} {e₁ e₂ : ℤ} (h₁ : 2 ^ 23 ≤ m₁ ∧ m₁ < 2 ^ 24)
    (h₂ : 2 ^ 23 ≤ m₂ ∧ m₂ < 2 ^ 24) (he : -100 ≤ e₁ - e₂) (hm₁ : 0 < m₁) (hm₂ : 0 < m₂) :
    ∃ k m e h, UnpackedFloat.div .binary32 (.finite .positive m₁ e₁ hm₁)
      (.finite .positive m₂ e₂ hm₂) = .finite .positive m e h ∧
      Rounds 23 (m₁ * 2 ^ e₁ / (m₂ * 2 ^ e₂)) k m e ∧ e₁ - e₂ - 1 ≤ k ∧ k ≤ e₁ - e₂ := by
  have hx : (m₁ * 2 ^ e₁ / (m₂ * 2 ^ e₂) : ℚ) = m₁ / m₂ * 2 ^ (e₁ - e₂) := by
    rw [zpow_sub₀ two_ne_zero, mul_div_mul_comm]
  obtain ⟨k, hk, hbinade⟩ := exists_binade_div h₁ h₂ (e₁ - e₂)
  obtain ⟨n, hn⟩ : ∃ n, m₁ <<< 24 = n := ⟨_, rfl⟩
  have hunits : (m₁ / m₂ * 2 ^ (e₁ - e₂) / 2 ^ (e₁ - e₂ - 24) : ℚ) = n / m₂ := by
    rw [← hn, Nat.shiftLeft_eq, mul_div_assoc, ← zpow_sub₀ two_ne_zero, sub_sub_cancel,
      div_mul_eq_mul_div]
    push_cast
    rfl
  have hrep : Represents (.ofMantissaAndAccuracy (n / m₂) (accuracyOfFraction (n % m₂) m₂))
      (m₁ / m₂ * 2 ^ (e₁ - e₂) / 2 ^ (e₁ - e₂ - 24)) := by
    rw [hunits]
    exact represents_div n hm₂
  have hmin : -(Format.binary32.exponentBias : ℤ) < k := by
    have : Format.binary32.exponentBias = 127 := rfl
    omega
  obtain ⟨m, e, h, heq, hrounds⟩ :=
    exists_roundWithAccuracy_eq (p := 23) rfl hrep hbinade (by omega) hmin .positive
  have hdiv : UnpackedFloat.div .binary32 (.finite .positive m₁ e₁ hm₁)
      (.finite .positive m₂ e₂ hm₂) =
    roundWithAccuracy .binary32 .positive (divCore .binary32 m₁ e₁ m₂ e₂).1
      (divCore .binary32 m₁ e₁ m₂ e₂).2.1 (divCore .binary32 m₁ e₁ m₂ e₂).2.2 := rfl
  rw [hdiv, divCore_full h₁ h₂ he hn, hx]
  exact ⟨k, m, e, h, heq, hrounds, hk⟩

theorem shiftLeft_mul_zpow {m : ℕ} {c : ℤ} (h : c ≤ e) :
    ((m <<< (e - c).toNat : ℕ) : ℚ) * 2 ^ c = m * 2 ^ e := by
  have hsum : ((e - c).toNat : ℤ) + c = e := by omega
  rw [Nat.shiftLeft_eq, Nat.cast_mul, mul_assoc, two_pow_mul_zpow hsum]

theorem moderate_sub {m₁ m₂ : ℕ} {e₁ e₂ : ℤ} (hp : format.mantissaBitsWithoutImplicit = p)
    (hb : b < format.exponentBias) (h : (m₂ : ℚ) * 2 ^ e₂ ≤ m₁ * 2 ^ e₁) (hlow : -b ≤ min e₁ e₂)
    (hhigh : (m₁ : ℚ) * 2 ^ e₁ < 2 ^ b) (hm₁ : 0 < m₁) (hm₂ : 0 < m₂) :
    Moderate p b (.sub format (.finite .positive m₁ e₁ hm₁) (.finite .positive m₂ e₂ hm₂)) := by
  -- both mantissas are taken to the smaller exponent, and are integers there
  rw [← shiftLeft_mul_zpow (min_le_left e₁ e₂)] at h hhigh
  rw [← shiftLeft_mul_zpow (min_le_right e₁ e₂)] at h
  rw [UnpackedFloat.sub]
  dsimp only [decreaseExponent, Sign.apply]
  generalize m₁ <<< (e₁ - min e₁ e₂).toNat = n₁ at h hhigh ⊢
  generalize m₂ <<< (e₂ - min e₁ e₂).toNat = n₂ at h ⊢
  generalize min e₁ e₂ = c at h hlow hhigh ⊢
  have hle : n₂ ≤ n₁ := Nat.cast_le.mp (le_of_mul_le_mul_right h (by positivity))
  rw [UnpackedFloat.normalize]
  rcases hle.lt_or_eq with hlt | rfl
  · have hcast : ((n₁ : ℤ) - n₂).toNat = n₁ - n₂ := by omega
    rw [Int.compare_eq_gt.mpr (by omega), hcast]
    have hupper : ((n₁ - n₂).log2 : ℤ) + c < b := by
      have hpower : (2 : ℚ) ^ ((n₁ - n₂).log2 + c) < 2 ^ (b : ℤ) :=
        calc (2 : ℚ) ^ ((n₁ - n₂).log2 + c) ≤ (n₁ - n₂ : ℕ) * 2 ^ c :=
              (two_zpow_log2_le (Nat.sub_pos_of_lt hlt) c).1
          _ ≤ n₁ * 2 ^ c := by gcongr; exact Nat.sub_le n₁ n₂
          _ < 2 ^ (b : ℤ) := by exact_mod_cast hhigh
      exact (zpow_lt_zpow_iff_right₀ one_lt_two).mp hpower
    exact moderate_round hp hb (Nat.sub_pos_of_lt hlt) ⟨by omega, hupper⟩
  · rw [sub_self]
    exact .zero

/-! ## Operations in single and double precision -/

theorem unpack_single_zero : (Shape.single 0).toModel.unpack = .zero .positive := rfl

theorem unpack_div (a b : Float32) : (a / b).toModel.unpack = UnpackedFloat.unpack .binary32
    (UnpackedFloat.pack .binary32 (.div .binary32 a.toModel.unpack b.toModel.unpack)) := rfl

theorem unpack_sub (a b : Float32) : (a - b).toModel.unpack = UnpackedFloat.unpack .binary32
    (UnpackedFloat.pack .binary32 (.sub .binary32 a.toModel.unpack b.toModel.unpack)) := rfl

theorem unpack_add (a b : Float32) : (a + b).toModel.unpack = UnpackedFloat.unpack .binary32
    (UnpackedFloat.pack .binary32 (.add .binary32 a.toModel.unpack b.toModel.unpack)) := rfl

theorem unpack_widen (x : Float32) : (Shape.widen x).toModel.unpack =
    UnpackedFloat.unpack .binary64
      (UnpackedFloat.pack .binary64 (Shape.refit .binary64 x.toModel.unpack)) := rfl

theorem unpack_narrow (x : Float) : (Shape.narrow x).toModel.unpack =
    UnpackedFloat.unpack .binary32
      (UnpackedFloat.pack .binary32 (Shape.refit .binary32 x.toModel.unpack)) := rfl

theorem unpack_sqrt (x : Float) : x.sqrt.toModel.unpack = UnpackedFloat.unpack .binary64
    (UnpackedFloat.pack .binary64 (.sqrt .binary64 x.toModel.unpack)) := rfl

theorem unpack_mul (a b : Float) : (a * b).toModel.unpack = UnpackedFloat.unpack .binary64
    (UnpackedFloat.pack .binary64 (.mul .binary64 a.toModel.unpack b.toModel.unpack)) := rfl

theorem NotNegative.zero_le {x : Float32} (h : NotNegative x.toModel.unpack) :
    Shape.single 0 ≤ x := by
  have hle : UnpackedFloat.le (.zero .positive) x.toModel.unpack = true := by
    generalize x.toModel.unpack = u at h
    cases h <;> rfl
  rw [← unpack_single_zero] at hle
  exact decide_eq_true hle

theorem exists_unpack_single (hpos : 0 < n) (hn : n < 2 ^ 31) :
    ∃ k m e h, (Shape.single n).toModel.unpack = .finite .positive m e h ∧ Rounds 23 n k m e ∧
      0 ≤ k ∧ k ≤ 30 := by
  have hlog : n.log2 < 31 := (Nat.log2_lt hpos.ne').mpr hn
  have hbias : Format.binary32.exponentBias = 127 := rfl
  have hmin : -(Format.binary32.exponentBias : ℤ) < n.log2 + 0 := by omega
  obtain ⟨m, e, h, heq, hrounds⟩ := exists_round_eq (p := 23) rfl hpos hmin .positive
  rw [add_zero, zpow_zero, mul_one] at hrounds
  have hexponent := hrounds.exponent
  have hofInt : UnpackedFloat.ofInt .binary32 n = .finite .positive m e h := by
    rw [UnpackedFloat.ofInt, UnpackedFloat.normalize, Int.compare_eq_gt.mpr (by omega)]
    exact heq
  refine ⟨n.log2, m, e, h, ?_, hrounds, by omega, by omega⟩
  change UnpackedFloat.unpack .binary32
    (UnpackedFloat.pack .binary32 (UnpackedFloat.ofInt .binary32 n)) = _
  rw [hofInt, unpack_pack_full (p := 23) rfl hrounds.full (by omega)]

theorem moderate_single (hn : n < 2 ^ 31) : Moderate 23 31 (Shape.single n).toModel.unpack := by
  rcases Nat.eq_zero_or_pos n with rfl | hpos
  · exact .zero
  · obtain ⟨k, m, e, h, hunpack, hrounds, hk⟩ := exists_unpack_single hpos hn
    rw [hunpack]
    exact hrounds.moderate (by omega) h

/-- A quotient of at most one is zero or has a full mantissa. -/
theorem unpack_single_div {a b : ℕ} (hb : 0 < b) (hab : a ≤ b) (hfits : b < 2 ^ 31) :
    (Shape.single a / Shape.single b).toModel.unpack = .zero .positive ∨
      ∃ x ≤ 1, ∃ k m e h, Rounds 23 x k m e ∧ -60 ≤ e ∧
        (Shape.single a / Shape.single b).toModel.unpack = .finite .positive m e h := by
  obtain ⟨kb, mb, eb, hmb, hunpackb, hroundsb, hkb⟩ := exists_unpack_single hb hfits
  rw [unpack_div, hunpackb]
  rcases Nat.eq_zero_or_pos a with rfl | ha
  · left
    rw [Nat.cast_zero, unpack_single_zero]
    exact unpack_packedZero
  · right
    obtain ⟨ka, ma, ea, hma, hunpacka, hroundsa, hka⟩ :=
      exists_unpack_single ha (hab.trans_lt hfits)
    -- the exponents are those of integers, and so not far apart
    have hexponents := And.intro hroundsa.exponent hroundsb.exponent
    have hgap : -100 ≤ ea - eb := by omega
    obtain ⟨k, m, e, h, hdiv, hrounds, hk⟩ :=
      exists_div_eq hroundsa.full hroundsb.full hgap hma hmb
    have hexponent := hrounds.exponent
    have hbias : Format.binary32.exponentBias = 127 := rfl
    rw [hunpacka, hdiv, unpack_pack_full (p := 23) rfl hrounds.full (by omega)]
    refine ⟨_, ?_, k, m, e, h, hrounds, by omega, rfl⟩
    have hmb' : (0 : ℚ) < mb := Nat.cast_pos.mpr hmb
    rw [div_le_one (by positivity)]
    exact hroundsa.mono hroundsb (Nat.cast_le.mpr hab)

theorem moderate_one_sub_div {a b : ℕ} (hb : 0 < b) (hab : a ≤ b) (hfits : b < 2 ^ 31) :
    Moderate 23 60 (Shape.single 1 - Shape.single a / Shape.single b).toModel.unpack := by
  obtain ⟨k₁, m₁, e₁, hm₁, hone, hrounds₁, hk₁⟩ := exists_unpack_single Nat.one_pos (by decide)
  rw [Nat.cast_one] at hone hrounds₁
  have hexponent := hrounds₁.exponent
  have hbias : 60 < Format.binary32.exponentBias := by decide
  have hsub : Moderate 23 60 (.sub .binary32 (.finite .positive m₁ e₁ hm₁)
      (Shape.single a / Shape.single b).toModel.unpack) := by
    rcases unpack_single_div hb hab hfits with hzero | ⟨x, hx, k, m, e, hm, hrounds, he, hunpack⟩
    · rw [hzero]
      exact hrounds₁.moderate (by omega) hm₁
    · rw [hunpack]
      have hsmall : (m₁ : ℚ) * 2 ^ e₁ < 2 ^ 60 := hrounds₁.le_two_zpow.trans_lt
        (zpow_lt_zpow_right₀ one_lt_two (show k₁ + 1 < (60 : ℕ) by omega))
      exact moderate_sub rfl hbias (hrounds.mono hrounds₁ hx) (by omega) hsmall hm₁ hm
  rw [unpack_sub, hone, hsub.unpack_pack rfl hbias]
  exact hsub

theorem moderate_widen {x : Float32} (h : Moderate 23 b x.toModel.unpack) (hb : b < 1000) :
    Moderate 52 (b + 1) (Shape.widen x).toModel.unpack := by
  have hbias : b + 1 < Format.binary64.exponentBias := (show b + 1 < 1023 by omega)
  have hrefit := h.refit (p := 52) rfl hbias
  rw [unpack_widen, hrefit.unpack_pack rfl hbias]
  exact hrefit

theorem moderate_sqrt {x : Float} (h : Moderate 52 b x.toModel.unpack) (hb : b ≤ 1000) :
    Moderate 52 (b + 1) x.sqrt.toModel.unpack := by
  have hbias : b + 1 < Format.binary64.exponentBias := (show b + 1 < 1023 by omega)
  have hroot := h.sqrt rfl hbias
  rw [unpack_sqrt, hroot.unpack_pack rfl hbias]
  exact hroot

/-- A product with a root of something that is not negative is a number, and not negative. -/
theorem zero_le_mul_sqrt {x y : Float32} {a : ℕ} (hx : Moderate 23 a x.toModel.unpack)
    (hy : Moderate 23 b y.toModel.unpack) (ha : a < 1000) (hb : b < 1000) :
    Shape.single 0 ≤ Shape.narrow (Shape.widen x * (Shape.widen y).sqrt) := by
  have hroot := moderate_sqrt (moderate_widen hy hb) (by omega)
  have hproduct := (moderate_widen hx ha).mul hroot .binary64
  apply NotNegative.zero_le
  rw [unpack_narrow, unpack_mul]
  exact ((hproduct.unpack_pack .binary64).refit .binary32).unpack_pack .binary32

end DrawPlus.Precision
