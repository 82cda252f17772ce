import Mathlib
import DrawPlus.Canvas.Shape

/-!
# Rounding to a format

Operations on floating-point numbers compute a mantissa together with two bits that say where the
exact result lies above it, and round from these. `Represents` gives the bits their meaning as a
rational number, and `Rounds` says what a rational number is rounded to. Rounding keeps the order
(`Rounds.mono`), which is why a quotient of at most one is not rounded to more than one.

Numbers that are too small for a full mantissa do not occur here. The others can be packed into bits
and unpacked again (`unpack_pack_full`), and a number that is not negative stays so even if it is
too large for that (`NotNegative.unpack_pack`).
-/

namespace DrawPlus.Precision

open Float.Model Float.Model.UnpackedFloat

variable {format : Format} {em em' : ExtendedMantissa} {x y : ℚ} {m n p : ℕ} {e k : ℤ} {s : Sign}
  {u : UnpackedFloat}

/-! ## Mantissas with two more bits -/

/-- The number that a mantissa and the two bits after it are computed from. The first bit says if it
reaches half a unit, the second if it is more than the mantissa and the first bit say. -/
def Represents : ExtendedMantissa → ℚ → Prop
  | ⟨m, false, false⟩, x => x = m
  | ⟨m, false, true⟩, x => m < x ∧ x < m + 1 / 2
  | ⟨m, true, false⟩, x => x = m + 1 / 2
  | ⟨m, true, true⟩, x => m + 1 / 2 < x ∧ x < m + 1

theorem Represents.bounds (h : Represents em x) : em.mantissa ≤ x ∧ x < em.mantissa + 1 := by
  rcases em with ⟨m, _ | _, _ | _⟩ <;> simp only [Represents] at h ⊢ <;> constructor <;> linarith

theorem roundedMantissa_bounds (em : ExtendedMantissa) :
    em.mantissa ≤ em.roundedMantissa ∧ em.roundedMantissa ≤ em.mantissa + 1 := by
  rcases em with ⟨m, _ | _, _ | _⟩ <;>
    simp only [ExtendedMantissa.roundedMantissa, ExtendedMantissa.accuracy,
      Accuracy.roundToNearestEven] <;> omega

theorem Represents.mono (hx : Represents em x) (hy : Represents em' y) (h : x ≤ y) :
    em.roundedMantissa ≤ em'.roundedMantissa := by
  have hle : em.mantissa ≤ em'.mantissa := by
    have : (em.mantissa : ℚ) < em'.mantissa + 1 := by linarith [hx.bounds.1, hy.bounds.2]
    exact Nat.lt_succ_iff.mp (by exact_mod_cast this)
  rcases hle.lt_or_eq with hlt | heq
  · have := roundedMantissa_bounds em
    have := roundedMantissa_bounds em'
    omega
  · -- the mantissas are the same, so the bits are in the order of the numbers
    rcases em with ⟨m, _ | _, _ | _⟩ <;> rcases em' with ⟨m', _ | _, _ | _⟩ <;>
      simp only [Represents] at hx hy heq ⊢ <;> subst heq <;>
      simp only [ExtendedMantissa.roundedMantissa, ExtendedMantissa.accuracy,
        Accuracy.roundToNearestEven] <;> grind

theorem Represents.roundedMantissa_le (h : Represents em x) (hx : x ≤ n) :
    em.roundedMantissa ≤ n :=
  h.mono (show Represents ⟨n, false, false⟩ n from rfl) hx

theorem Represents.le_roundedMantissa (h : Represents em x) (hx : n ≤ x) :
    n ≤ em.roundedMantissa :=
  Represents.mono (show Represents ⟨n, false, false⟩ n from rfl) h hx

theorem Represents.shiftRightOne (h : Represents em x) : Represents em.shiftRightOne (x / 2) := by
  rcases em with ⟨m, r, s⟩
  have hm : (m : ℚ) = 2 * (m / 2 : ℕ) + (m % 2 : ℕ) := by exact_mod_cast (Nat.div_add_mod m 2).symm
  rcases Nat.mod_two_eq_zero_or_one m with hbit | hbit <;> rw [hbit] at hm <;> push_cast at hm <;>
    cases r <;> cases s <;>
    simp only [Represents, ExtendedMantissa.shiftRightOne, hbit, bne_self_eq_false, Bool.or_self,
      Bool.or_true, Bool.or_false, show (1 != 0) = true from rfl] at h ⊢ <;>
    grind

theorem Represents.shiftRight (h : Represents em x) (n : ℕ) :
    Represents (em >>> n) (x / 2 ^ n) := by
  change Represents (n.repeat ExtendedMantissa.shiftRightOne em) _
  induction n with
  | zero => simpa [Nat.repeat] using h
  | succ n ih =>
    rw [pow_succ, ← div_div]
    exact ih.shiftRightOne

/-! ## Rounding -/

/-- A number between `2 ^ k` and `2 ^ (k + 1)` is rounded to a full mantissa, which has `p` bits
after its first one, and an exponent. -/
structure Rounds (p : ℕ) (x : ℚ) (k : ℤ) (m : ℕ) (e : ℤ) : Prop where
  binade : 2 ^ k ≤ x ∧ x < 2 ^ (k + 1)
  full : 2 ^ p ≤ m ∧ m < 2 ^ (p + 1)
  exponent : k - p ≤ e ∧ e ≤ k - p + 1
  nearest : ∃ em, Represents em (x / 2 ^ (k - p)) ∧
    (m : ℚ) * 2 ^ e = em.roundedMantissa * 2 ^ (k - p)

theorem mantissa_ofMantissaAndAccuracy (m : ℕ) (accuracy : Accuracy) :
    (ExtendedMantissa.ofMantissaAndAccuracy m accuracy).mantissa = m := by
  rcases accuracy with _ | (_ | _ | _) <;> rfl

theorem two_pow_mul_zpow {j : ℤ} (h : n + j = k) : ((2 ^ n : ℕ) : ℚ) * 2 ^ j = 2 ^ k := by
  rw [Nat.cast_pow, Nat.cast_ofNat, ← zpow_natCast, ← zpow_add₀ two_ne_zero, h]

/-- The powers of two around a number, in units of a smaller one. -/
theorem binade_div (h : n + e = k) (hk : 2 ^ k ≤ x ∧ x < 2 ^ (k + 1)) :
    ((2 ^ n : ℕ) : ℚ) ≤ x / 2 ^ e ∧ x / 2 ^ e < ((2 ^ (n + 1) : ℕ) : ℚ) := by
  have hunit : (0 : ℚ) < 2 ^ e := by positivity
  have hnext : ((n + 1 : ℕ) : ℤ) + e = k + 1 := by push_cast; omega
  rw [le_div_iff₀ hunit, div_lt_iff₀ hunit, two_pow_mul_zpow h, two_pow_mul_zpow hnext]
  exact hk

theorem log2_of_bounds (hlow : 2 ^ n ≤ m) (hhigh : m < 2 ^ (n + 1)) : m.log2 = n := by
  have hm : m ≠ 0 := by
    have := Nat.two_pow_pos n
    omega
  exact (Nat.log2_eq_iff hm).mpr ⟨hlow, hhigh⟩

theorem minExponent_eq (format : Format) : format.minExponent =
    1 - format.exponentBias - format.mantissaBitsWithoutImplicit := by
  have hpos : 1 ≤ 2 ^ (format.exponentBits - 1) := Nat.one_le_two_pow
  unfold Format.minExponent Format.exponentBias Format.mantissaBits
  push_cast [Nat.cast_sub hpos]
  ring

theorem targetExponent_of_log2 (hp : format.mantissaBitsWithoutImplicit = p) (hlog : m.log2 = n)
    (h : n + e = k) (hmin : -format.exponentBias < k) :
    format.targetExponent (totalExponent m e) = k - p := by
  rw [Format.targetExponent, totalExponent, hlog, minExponent_eq, Format.mantissaBits, hp]
  push_cast
  omega

/-- The shift after rounding takes in a carry out of the mantissa. -/
theorem shift_rounded {r : ℕ} {t : ℤ} (hp : format.mantissaBitsWithoutImplicit = p)
    (hlow : 2 ^ p ≤ r) (hhigh : r ≤ 2 ^ (p + 1)) (ht : -format.exponentBias < t + p) :
    shiftToTargetExponent format r t .exact =
      if r < 2 ^ (p + 1) then (⟨r, false, false⟩, t) else (⟨2 ^ p, false, false⟩, t + 1) := by
  split_ifs with hcarry
  · have htarget : format.targetExponent (totalExponent r t) = t + p - p :=
      targetExponent_of_log2 hp (log2_of_bounds hlow hcarry) (by omega) ht
    rw [shiftToTargetExponent, htarget, shiftToExponent]
    simp [HShiftRight.hShiftRight, Nat.repeat, ExtendedMantissa.ofMantissaAndAccuracy]
  · obtain rfl : r = 2 ^ (p + 1) := by omega
    have htarget : format.targetExponent (totalExponent (2 ^ (p + 1)) t) = t + (p + 1) - p :=
      targetExponent_of_log2 hp Nat.log2_two_pow (by push_cast; omega) (by omega)
    have hone : (t + (p + 1) - p - t).toNat = 1 := by omega
    have hhalf : (2 ^ (p + 1) : ℕ) / 2 = 2 ^ p := by rw [pow_succ, Nat.mul_div_cancel _ two_pos]
    have heven : (2 ^ (p + 1) : ℕ) % 2 = 0 := by rw [pow_succ, Nat.mul_mod_left]
    rw [shiftToTargetExponent, htarget, shiftToExponent, hone]
    simp [HShiftRight.hShiftRight, Nat.repeat, ExtendedMantissa.ofMantissaAndAccuracy,
      ExtendedMantissa.shiftRightOne, hhalf, heven]

theorem exists_roundWithAccuracy_eq {accuracy : Accuracy}
    (hp : format.mantissaBitsWithoutImplicit = p)
    (hrep : Represents (.ofMantissaAndAccuracy m accuracy) (x / 2 ^ e))
    (hk : 2 ^ k ≤ x ∧ x < 2 ^ (k + 1)) (he : e ≤ k - p) (hmin : -format.exponentBias < k)
    (s : Sign) : ∃ m' e' h,
      roundWithAccuracy format s m e accuracy = .finite s m' e' h ∧ Rounds p x k m' e' := by
  -- the exact number decides how far the mantissa is shifted
  obtain ⟨d, hd⟩ := Int.eq_ofNat_of_zero_le (show 0 ≤ k - e by omega)
  have hlog : m.log2 = d := by
    have hbounds := hrep.bounds
    rw [mantissa_ofMantissaAndAccuracy] at hbounds
    have hbinade := binade_div (n := d) (e := e) (by omega) hk
    have hlow : ((2 ^ d : ℕ) : ℚ) < (m + 1 : ℕ) := by
      rw [Nat.cast_succ]
      exact hbinade.1.trans_lt hbounds.2
    exact log2_of_bounds (Nat.lt_succ_iff.mp (Nat.cast_lt.mp hlow))
      (Nat.cast_lt.mp (hbounds.1.trans_lt hbinade.2))
  obtain ⟨n, hn⟩ := Int.eq_ofNat_of_zero_le (show 0 ≤ k - p - e by omega)
  have hshifted := hrep.shiftRight n
  have hunits : x / 2 ^ e / 2 ^ n = x / 2 ^ (k - p) := by
    rw [div_div, ← zpow_natCast, ← zpow_add₀ two_ne_zero, ← hn, add_sub_cancel]
  rw [hunits] at hshifted
  have hfirst : shiftToTargetExponent format m e accuracy =
      (ExtendedMantissa.ofMantissaAndAccuracy m accuracy >>> n, k - p) := by
    rw [shiftToTargetExponent, targetExponent_of_log2 hp hlog (by omega) hmin, shiftToExponent, hn]
    simp only [Int.toNat_natCast, Prod.mk.injEq, true_and]
    omega
  generalize ExtendedMantissa.ofMantissaAndAccuracy m accuracy >>> n = em at hshifted hfirst
  -- the shifted mantissa is full, and rounding it can at most carry
  obtain ⟨hlow, hhigh⟩ := binade_div (n := p) (show p + (k - p) = k by omega) hk
  have hfull := hshifted.le_roundedMantissa hlow
  have hcarry := hshifted.roundedMantissa_le hhigh.le
  have hpower := Nat.two_pow_pos p
  have hpos : em.roundedMantissa ≠ 0 := by omega
  rw [roundWithAccuracy, hfirst]
  dsimp only
  rw [shift_rounded hp hfull hcarry (by omega)]
  by_cases hroom : em.roundedMantissa < 2 ^ (p + 1)
  · rw [if_pos hroom, dif_neg hpos]
    exact ⟨_, _, _, rfl, hk, ⟨hfull, hroom⟩, ⟨by omega, by omega⟩, em, hshifted, rfl⟩
  · rw [if_neg hroom, dif_neg hpower.ne']
    refine ⟨_, _, _, rfl, hk, ⟨le_rfl, Nat.pow_lt_pow_succ one_lt_two⟩, ⟨by omega, by omega⟩, em,
      hshifted, ?_⟩
    have hcarried : em.roundedMantissa = 2 ^ (p + 1) := by omega
    rw [hcarried, zpow_add₀ two_ne_zero]
    push_cast
    ring

theorem Rounds.le_two_zpow (h : Rounds p x k m e) : (m : ℚ) * 2 ^ e ≤ 2 ^ (k + 1) := by
  obtain ⟨em, hem, hvalue⟩ := h.nearest
  have hcarry := hem.roundedMantissa_le (binade_div (n := p) (by omega) h.binade).2.le
  have hpower : ((2 ^ (p + 1) : ℕ) : ℚ) * 2 ^ (k - p) = 2 ^ (k + 1) :=
    two_pow_mul_zpow (by push_cast; omega)
  rw [hvalue, ← hpower]
  exact mul_le_mul_of_nonneg_right (Nat.cast_le.mpr hcarry) (by positivity)

theorem Rounds.two_zpow_le (h : Rounds p x k m e) : 2 ^ k ≤ (m : ℚ) * 2 ^ e := by
  obtain ⟨em, hem, hvalue⟩ := h.nearest
  have hfull := hem.le_roundedMantissa (binade_div (n := p) (by omega) h.binade).1
  have hpower : ((2 ^ p : ℕ) : ℚ) * 2 ^ (k - p) = 2 ^ k := two_pow_mul_zpow (by omega)
  rw [hvalue, ← hpower]
  exact mul_le_mul_of_nonneg_right (Nat.cast_le.mpr hfull) (by positivity)

theorem Rounds.mono {k' : ℤ} {m' : ℕ} {e' : ℤ} (hx : Rounds p x k m e) (hy : Rounds p y k' m' e')
    (h : x ≤ y) : (m : ℚ) * 2 ^ e ≤ m' * 2 ^ e' := by
  have hk : k < k' + 1 := by
    have hpowers : (2 : ℚ) ^ k < 2 ^ (k' + 1) := (hx.binade.1.trans h).trans_lt hy.binade.2
    exact (zpow_lt_zpow_iff_right₀ one_lt_two).mp hpowers
  rcases (Int.lt_add_one_iff.mp hk).lt_or_eq with hlt | rfl
  · -- there is a power of two between the numbers, and neither goes past it
    calc (m : ℚ) * 2 ^ e ≤ 2 ^ (k + 1) := hx.le_two_zpow
      _ ≤ 2 ^ k' := zpow_le_zpow_right₀ one_le_two hlt
      _ ≤ m' * 2 ^ e' := hy.two_zpow_le
  · obtain ⟨em, hem, hvalue⟩ := hx.nearest
    obtain ⟨em', hem', hvalue'⟩ := hy.nearest
    have hle : em.roundedMantissa ≤ em'.roundedMantissa := hem.mono hem' (by gcongr)
    rw [hvalue, hvalue']
    gcongr

theorem two_zpow_log2_le (hpos : 0 < n) (e : ℤ) : (2 : ℚ) ^ (n.log2 + e) ≤ n * 2 ^ e ∧
    (n : ℚ) * 2 ^ e < 2 ^ (n.log2 + e + 1) := by
  have hunit : (0 : ℚ) < 2 ^ e := by positivity
  have hlow : ((2 ^ n.log2 : ℕ) : ℚ) ≤ n := Nat.cast_le.mpr (Nat.log2_self_le hpos.ne')
  have hhigh : (n : ℚ) < (2 ^ (n.log2 + 1) : ℕ) := Nat.cast_lt.mpr Nat.lt_log2_self
  have hpower : ((2 ^ n.log2 : ℕ) : ℚ) * 2 ^ e = 2 ^ (n.log2 + e) := two_pow_mul_zpow rfl
  have hnext : ((2 ^ (n.log2 + 1) : ℕ) : ℚ) * 2 ^ e = 2 ^ (n.log2 + e + 1) :=
    two_pow_mul_zpow (by push_cast; ring)
  rw [← hpower, ← hnext]
  exact ⟨mul_le_mul_of_nonneg_right hlow hunit.le, mul_lt_mul_of_pos_right hhigh hunit⟩

theorem represents_shiftLeft (n j : ℕ) (e : ℤ) :
    Represents (.ofMantissaAndAccuracy (n <<< j) .exact) ((n : ℚ) * 2 ^ e / 2 ^ (e - j)) := by
  change (n : ℚ) * 2 ^ e / 2 ^ (e - j) = (n <<< j : ℕ)
  rw [Nat.shiftLeft_eq, mul_div_assoc, ← zpow_sub₀ two_ne_zero, sub_sub_cancel, zpow_natCast,
    Nat.cast_mul, Nat.cast_pow, Nat.cast_ofNat]

theorem exists_round_eq (hp : format.mantissaBitsWithoutImplicit = p) (hpos : 0 < n)
    (hmin : -format.exponentBias < n.log2 + e) (s : Sign) :
    ∃ m e' h, UnpackedFloat.round format s n e = .finite s m e' h ∧
      Rounds p (n * 2 ^ e) (n.log2 + e) m e' := by
  rw [UnpackedFloat.round, targetExponent_of_log2 hp rfl rfl hmin]
  exact exists_roundWithAccuracy_eq hp (represents_shiftLeft n _ e) (two_zpow_log2_le hpos e)
    (by omega) hmin s

/-! ## Packing -/

theorem two_pow_exponentBits (format : Format) :
    2 ^ format.exponentBits = 2 * (format.exponentBias + 1) := by
  have hpos : 1 ≤ 2 ^ (format.exponentBits - 1) := Nat.one_le_two_pow
  rw [Format.exponentBias, Nat.sub_add_cancel hpos, ← pow_succ', Nat.sub_add_cancel format.he]

theorem toNat_neg_one (w : ℕ) : (-1#w).toNat = 2 ^ w - 1 := by
  rw [BitVec.neg_one_eq_allOnes, BitVec.toNat_allOnes]

theorem toNat_append_one {w : ℕ} (mantissa : BitVec w) :
    (1#1 ++ mantissa).toNat = 2 ^ w + mantissa.toNat := by
  rw [BitVec.toNat_append, ← Nat.shiftLeft_add_eq_or_of_lt mantissa.isLt, Nat.shiftLeft_eq,
    BitVec.toNat_ofNat, Nat.mod_eq_of_lt (by decide), one_mul]

/-- What the bits of a number with a full mantissa stand for. -/
theorem unpack_packComponents {b f : ℕ} (hp : format.mantissaBitsWithoutImplicit = p)
    (hb : 1 ≤ b ∧ b + 1 < 2 ^ format.exponentBits) (hf : f < 2 ^ p) (s : Sign)
    (h : 0 < 2 ^ p + f) :
    UnpackedFloat.unpack format (packComponents format s (BitVec.ofNat _ b) (BitVec.ofNat _ f)) =
      .finite s (2 ^ p + f) (b - (format.exponentBias + p)) h := by
  subst hp
  have hexponent : (BitVec.ofNat format.exponentBits b).toNat = b := by
    rw [BitVec.toNat_ofNat, Nat.mod_eq_of_lt (by omega)]
  have hinfinite : BitVec.ofNat format.exponentBits b ≠ -1#_ := by
    intro h
    have := congrArg BitVec.toNat h
    rw [hexponent, toNat_neg_one] at this
    omega
  have hzero : BitVec.ofNat format.exponentBits b ≠ 0#_ := by
    intro h
    have : b = 0 := hexponent.symm.trans (congrArg BitVec.toNat h)
    omega
  have hmantissa : (1#1 ++ BitVec.ofNat format.mantissaBitsWithoutImplicit f).toNat =
      2 ^ format.mantissaBitsWithoutImplicit + f := by
    rw [toNat_append_one, BitVec.toNat_ofNat, Nat.mod_eq_of_lt hf]
  unfold UnpackedFloat.unpack
  simp only [unpackMantissa_packComponents, unpackExponent_packComponents,
    unpackSign_packComponents, Sign.ofBitVec_toBitVec, if_neg hinfinite, if_neg hzero, hexponent,
    hmantissa]

/-- A full mantissa and an exponent that is not extreme are kept. -/
theorem unpack_pack_full (hp : format.mantissaBitsWithoutImplicit = p)
    (hm : 2 ^ p ≤ m ∧ m < 2 ^ (p + 1))
    (he : -format.exponentBias < e + p ∧ e + p < format.exponentBias) (h : 0 < m) :
    UnpackedFloat.unpack format (UnpackedFloat.pack format (.finite s m e h)) =
      .finite s m e h := by
  subst hp
  obtain ⟨b, hb⟩ := Int.eq_ofNat_of_zero_le
    (show 0 ≤ e + format.exponentBias + format.mantissaBitsWithoutImplicit by omega)
  obtain ⟨f, rfl⟩ := Nat.exists_eq_add_of_le hm.1
  have hf : f < 2 ^ format.mantissaBitsWithoutImplicit := by
    rw [pow_succ] at hm
    omega
  have hbits := two_pow_exponentBits format
  have hmantissa : BitVec.ofNat format.mantissaBitsWithoutImplicit
      (2 ^ format.mantissaBitsWithoutImplicit + f) = BitVec.ofNat _ f := by
    apply BitVec.eq_of_toNat_eq
    rw [BitVec.toNat_ofNat, BitVec.toNat_ofNat, Nat.add_mod_left]
  have hfull : (2 ^ format.mantissaBitsWithoutImplicit + f).log2 + 1 = format.mantissaBits := by
    rw [log2_of_bounds hm.1 hm.2, Format.mantissaBits, add_comm]
  have hpack : UnpackedFloat.pack format (.finite s _ e h) =
      packComponents format s (BitVec.ofNat _ b) (BitVec.ofNat _ f) := by
    unfold UnpackedFloat.pack
    dsimp only
    rw [hb, Int.toNat_natCast, if_neg (by omega), if_pos hfull, hmantissa]
  have hexponent : (b : ℤ) - (format.exponentBias + format.mantissaBitsWithoutImplicit) = e := by
    omega
  rw [hpack, unpack_packComponents rfl (by omega) hf s h]
  simp only [hexponent]

/-- Zero or more, possibly infinite. -/
inductive NotNegative : UnpackedFloat → Prop
  | zero : NotNegative (.zero .positive)
  | finite (m : ℕ) (e : ℤ) (h : 0 < m) : NotNegative (.finite .positive m e h)
  | infinity : NotNegative (.infinity .positive)

theorem notNegative_unpack_packComponents {exponent : BitVec format.exponentBits}
    {mantissa : BitVec format.mantissaBitsWithoutImplicit} (h : exponent = -1#_ → mantissa = 0#_) :
    NotNegative (UnpackedFloat.unpack format
      (packComponents format .positive exponent mantissa)) := by
  unfold UnpackedFloat.unpack
  simp only [unpackMantissa_packComponents, unpackExponent_packComponents,
    unpackSign_packComponents, Sign.ofBitVec_toBitVec]
  split_ifs with hlast hzero
  · exact .infinity
  · exact absurd (h hlast) hzero
  · exact .zero
  · exact .finite ..
  · exact .finite ..

/-- Packing keeps the sign, even of a number that is too large. -/
theorem NotNegative.unpack_pack (h : NotNegative u) (format : Format) :
    NotNegative (UnpackedFloat.unpack format (UnpackedFloat.pack format u)) := by
  cases h with
  | zero => exact notNegative_unpack_packComponents fun _ => rfl
  | infinity => exact notNegative_unpack_packComponents fun _ => rfl
  | finite m e h =>
    unfold UnpackedFloat.pack
    dsimp only
    split_ifs with hlarge hfull
    · exact notNegative_unpack_packComponents fun _ => rfl
    · refine notNegative_unpack_packComponents fun hlast => ?_
      have hbits := congrArg BitVec.toNat hlast
      rw [BitVec.toNat_ofNat, Nat.mod_eq_of_lt (by omega), toNat_neg_one] at hbits
      omega
    · refine notNegative_unpack_packComponents fun hlast => ?_
      have hbits := congrArg BitVec.toNat hlast
      have hpower := Nat.one_lt_two_pow format.he.ne'
      rw [BitVec.toNat_ofNat, Nat.zero_mod, toNat_neg_one] at hbits
      omega

end DrawPlus.Precision
