import Mathlib
import DrawPlus.Number.Shortest

/-!
# Decimals that round to a double

The interval of numbers that round to a double is stated over the rationals (`Rounding.Holds`), and
the integer tests of the search for a shortest decimal are shown to decide it. Two facts follow.
The search never comes back empty, since the last grid it tries is finer than the interval is wide.
And the intervals of two doubles have no point in common, so that a decimal found for a double is
found for no other.

Whether the decimal that is found is the shortest, and how it is chosen among several, plays no
part here.
-/

namespace DrawPlus.Double

variable {r : Rounding} {m : ℕ} {e : ℤ} {q : ℚ}

/-! ## Scaling by powers of two and ten -/

theorem scale_pos (n : ℕ) (k : ℤ) : 0 < (scale n k).2 := by
  unfold scale
  split_ifs
  · exact Nat.one_pos
  · exact Nat.pow_pos Nat.two_pos

theorem scale_div (n : ℕ) (k : ℤ) :
    ((scale n k).1 : ℚ) / (scale n k).2 = n * (2 : ℚ) ^ k := by
  unfold scale
  split_ifs with hk
  · obtain ⟨j, rfl⟩ := Int.eq_ofNat_of_zero_le hk
    simp [twoTo]
  · obtain ⟨j, hj⟩ := Int.eq_ofNat_of_zero_le (show 0 ≤ -k by omega)
    obtain rfl : k = -(j : ℤ) := by omega
    simp [twoTo, div_eq_mul_inv]

namespace Rounding

/-- The size of a quarter of a unit of the mantissa. -/
def quarter (r : Rounding) : ℚ := 2 ^ (r.exponent - 2)

theorem quarter_pos (r : Rounding) : 0 < r.quarter := by
  unfold quarter
  positivity

/-- The number rounds to the double. -/
def Holds (r : Rounding) (q : ℚ) : Prop :=
  if r.mantissa % 2 = 0 then r.low * r.quarter ≤ q ∧ q ≤ r.high * r.quarter
  else r.low * r.quarter < q ∧ q < r.high * r.quarter

theorem Holds.bounds (h : r.Holds q) : r.low * r.quarter ≤ q ∧ q ≤ r.high * r.quarter := by
  unfold Holds at h
  split_ifs at h
  · exact h
  · exact ⟨h.1.le, h.2.le⟩

theorem units_pos (r : Rounding) (digits : ℕ) (place : ℤ) : 0 < (r.units digits place).2 := by
  have hup : 0 < (scale 1 (r.exponent - 2)).1 := by
    unfold scale
    split_ifs
    · simp [twoTo]
    · exact Nat.one_pos
  unfold units
  simp only
  split_ifs
  · exact hup
  · exact Nat.mul_pos (Nat.pow_pos (by norm_num)) hup

theorem units_div (r : Rounding) (digits : ℕ) (place : ℤ) :
    ((r.units digits place).1 : ℚ) / (r.units digits place).2 =
      digits * (10 : ℚ) ^ place / r.quarter := by
  have hs := scale_div 1 (r.exponent - 2)
  rw [Nat.cast_one, one_mul] at hs
  unfold units quarter
  simp only
  rw [← hs]
  split_ifs with hp
  · obtain ⟨j, rfl⟩ := Int.eq_ofNat_of_zero_le hp
    simp only [Int.toNat_natCast, tenTo, Nat.pow_eq, Nat.cast_mul, Nat.cast_pow,
      Nat.cast_ofNat, zpow_natCast]
    rw [div_div_eq_mul_div]
  · obtain ⟨j, hj⟩ := Int.eq_ofNat_of_zero_le (show 0 ≤ -place by omega)
    obtain rfl : place = -(j : ℤ) := by omega
    simp only [neg_neg, Int.toNat_natCast, tenTo, Nat.pow_eq, Nat.cast_mul, Nat.cast_pow,
      Nat.cast_ofNat, zpow_neg, zpow_natCast]
    rw [div_div_eq_mul_div, ← div_eq_mul_inv, div_mul_eq_mul_div, div_div]

/-- The integer test decides whether a decimal rounds to the double. -/
theorem admits_eq_true {digits : ℕ} {place : ℤ} :
    r.admits digits place = true ↔ r.Holds (digits * (10 : ℚ) ^ place) := by
  have hd : (0 : ℚ) < (r.units digits place).2 := by exact_mod_cast r.units_pos digits place
  have hq : (digits : ℚ) * 10 ^ place =
      (r.units digits place).1 / (r.units digits place).2 * r.quarter := by
    rw [r.units_div, div_mul_cancel₀ _ r.quarter_pos.ne']
  have hle (a : ℕ) : (a : ℚ) * r.quarter ≤ digits * 10 ^ place ↔
      a * (r.units digits place).2 ≤ (r.units digits place).1 := by
    rw [hq, mul_le_mul_iff_left₀ r.quarter_pos, le_div_iff₀ hd]
    exact_mod_cast Iff.rfl
  have hge (a : ℕ) : (digits : ℚ) * 10 ^ place ≤ a * r.quarter ↔
      (r.units digits place).1 ≤ a * (r.units digits place).2 := by
    rw [hq, mul_le_mul_iff_left₀ r.quarter_pos, div_le_iff₀ hd]
    exact_mod_cast Iff.rfl
  have hlt (a : ℕ) : (a : ℚ) * r.quarter < digits * 10 ^ place ↔
      a * (r.units digits place).2 < (r.units digits place).1 := by
    rw [← not_le, hge, not_le]
  have hgt (a : ℕ) : (digits : ℚ) * 10 ^ place < a * r.quarter ↔
      (r.units digits place).1 < a * (r.units digits place).2 := by
    rw [← not_le, hle, not_le]
  unfold admits Holds
  simp only [beq_iff_eq]
  split_ifs
  · simp [hle, hge]
  · simp [hlt, hgt]

/-! ## The search -/

def value (r : Rounding) : ℚ := r.mantissa * 2 ^ r.exponent

theorem value_eq (r : Rounding) : r.value = 4 * r.mantissa * r.quarter := by
  have h : (2 : ℚ) ^ r.exponent = 2 ^ (r.exponent - 2) * 2 ^ (2 : ℤ) := by
    rw [← zpow_add₀ two_ne_zero]
    congr 1
    omega
  rw [value, quarter, h]
  norm_num
  ring

theorem ratio_div (r : Rounding) : ((r.ratio).1 : ℚ) / (r.ratio).2 = r.value :=
  scale_div _ _

theorem neighbours_spec (r : Rounding) (place : ℤ) :
    (r.neighbours place).2 = (r.neighbours place).1 + 1 ∧
      ((r.neighbours place).1 : ℚ) * 10 ^ place ≤ r.value ∧
      r.value < (((r.neighbours place).1 : ℚ) + 1) * 10 ^ place := by
  have hd : 0 < r.ratio.2 := scale_pos _ _
  refine ⟨rfl, ?_⟩
  have key (a b : ℕ) (hb : 0 < b) (hv : r.value = (a : ℚ) / b * 10 ^ place) :
      ((a / b : ℕ) : ℚ) * 10 ^ place ≤ r.value ∧
        r.value < (((a / b : ℕ) : ℚ) + 1) * 10 ^ place := by
    have hb' : (0 : ℚ) < b := by exact_mod_cast hb
    have hp : (0 : ℚ) < 10 ^ place := by positivity
    rw [hv, mul_le_mul_iff_left₀ hp, mul_lt_mul_iff_left₀ hp, le_div_iff₀ hb', div_lt_iff₀ hb']
    constructor
    · exact_mod_cast Nat.div_mul_le_self a b
    · exact_mod_cast Nat.lt_mul_of_div_lt (Nat.lt_succ_self (a / b)) hb
  unfold neighbours
  simp only
  split_ifs with hp
  · obtain ⟨j, rfl⟩ := Int.eq_ofNat_of_zero_le hp
    refine key _ _ (Nat.mul_pos hd (Nat.pow_pos (by norm_num))) ?_
    rw [← r.ratio_div]
    have : (0 : ℚ) < r.ratio.2 := by exact_mod_cast hd
    simp only [Int.toNat_natCast, tenTo, Nat.pow_eq, Nat.cast_mul, Nat.cast_pow,
      Nat.cast_ofNat, zpow_natCast]
    field_simp
  · obtain ⟨j, hj⟩ := Int.eq_ofNat_of_zero_le (show 0 ≤ -place by omega)
    obtain rfl : place = -(j : ℤ) := by omega
    refine key _ _ hd ?_
    rw [← r.ratio_div]
    have : (0 : ℚ) < r.ratio.2 := by exact_mod_cast hd
    simp only [neg_neg, Int.toNat_natCast, tenTo, Nat.pow_eq, Nat.cast_mul, Nat.cast_pow,
      Nat.cast_ofNat, zpow_neg, zpow_natCast]
    field_simp

theorem holds_of_onGrid? {place : ℤ} {x : Decimal} (h : r.onGrid? place = some x) :
    r.Holds (x.digits * (10 : ℚ) ^ x.exponent) := by
  unfold onGrid? at h
  simp only at h
  cases hb : r.admits (r.neighbours place).1 place with
  | true =>
    cases ha : r.admits (r.neighbours place).2 place with
    | true =>
      rw [hb, ha] at h
      cases h
      simp only
      split_ifs
      · exact admits_eq_true.mp hb
      · exact admits_eq_true.mp ha
    | false =>
      rw [hb, ha] at h
      cases h
      exact admits_eq_true.mp hb
  | false =>
    cases ha : r.admits (r.neighbours place).2 place with
    | true =>
      rw [hb, ha] at h
      cases h
      exact admits_eq_true.mp ha
    | false =>
      rw [hb, ha] at h
      cases h

theorem holds_of_mem (hl : r.low * r.quarter < q) (hh : q < r.high * r.quarter) : r.Holds q := by
  unfold Holds
  split_ifs
  · exact ⟨hl.le, hh.le⟩
  · exact ⟨hl, hh⟩

theorem low_mul_quarter_lt (hm : 0 < r.mantissa) : r.low * r.quarter < r.value := by
  have h : r.low < 4 * r.mantissa := by
    unfold low
    split_ifs <;> omega
  rw [value_eq, mul_lt_mul_iff_left₀ r.quarter_pos]
  exact_mod_cast h

theorem value_lt_high_mul_quarter (r : Rounding) : r.value < r.high * r.quarter := by
  have h : 4 * r.mantissa < r.high := by
    unfold high
    omega
  rw [value_eq, mul_lt_mul_iff_left₀ r.quarter_pos]
  exact_mod_cast h

theorem onGrid?_eq_none {place : ℤ} (h : r.onGrid? place = none) :
    ¬r.Holds ((r.neighbours place).1 * (10 : ℚ) ^ place) ∧
      ¬r.Holds ((r.neighbours place).2 * (10 : ℚ) ^ place) := by
  unfold onGrid? at h
  simp only at h
  simp only [← admits_eq_true]
  cases hb : r.admits (r.neighbours place).1 place <;>
    cases ha : r.admits (r.neighbours place).2 place <;> rw [hb, ha] at h <;> simp at h ⊢

/-- A grid finer than the interval is wide has a decimal that rounds to the double. -/
theorem onGrid?_ne_none {place : ℤ} (hm : 0 < r.mantissa)
    (hw : (10 : ℚ) ^ place < (r.high - r.low) * r.quarter) : r.onGrid? place ≠ none := by
  intro h
  obtain ⟨hs, hb, ha⟩ := r.neighbours_spec place
  obtain ⟨hnb, hna⟩ := onGrid?_eq_none h
  have hlow : ((r.neighbours place).1 : ℚ) * 10 ^ place ≤ r.low * r.quarter := by
    by_contra! hc
    exact hnb (holds_of_mem hc (hb.trans_lt r.value_lt_high_mul_quarter))
  have hhigh : r.high * r.quarter ≤ ((r.neighbours place).1 + 1 : ℚ) * 10 ^ place := by
    by_contra! hc
    rw [hs, Nat.cast_add_one] at hna
    exact hna (holds_of_mem ((low_mul_quarter_lt hm).trans ha) hc)
  linarith

theorem holds_of_search {count : ℕ} {place : ℤ} {x : Decimal} (h : r.search count place = some x) :
    r.Holds (x.digits * (10 : ℚ) ^ x.exponent) := by
  induction count generalizing place with
  | zero => cases h
  | succ count ih =>
    rw [search, Option.or_eq_some_iff] at h
    rcases h with h | ⟨-, h⟩
    · exact holds_of_onGrid? h
    · exact ih h

theorem search_ne_none {count : ℕ} {place : ℤ} (h : r.onGrid? (place - count) ≠ none) :
    r.search (count + 1) place ≠ none := by
  induction count generalizing place with
  | zero =>
    rw [search, search, Option.or_none]
    simpa using h
  | succ count ih =>
    rw [search]
    have hn : r.onGrid? (place - 1 - count) ≠ none := by
      convert h using 2
      push_cast
      ring
    intro hc
    exact ih hn (Option.or_eq_none_iff.mp hc).2

end Rounding

/-! ## The first digit -/

theorem pow_decimalLength_le {n : ℕ} (hn : 0 < n) : 10 ^ (decimalLength n - 1) ≤ n := by
  rcases Nat.eq_zero_or_pos (decimalLength n - 1) with h | h
  · rw [h]
    exact hn
  · by_contra! hc
    have := (Nat.length_toDigits_le_iff (by norm_num) h).mpr hc
    unfold decimalLength at this h
    omega

theorem lt_pow_decimalLength (n : ℕ) : n < 10 ^ decimalLength n :=
  (Nat.length_toDigits_le_iff (by norm_num) Nat.length_toDigits_pos).mp le_rfl

/-- The first digit of a quotient stands at a power of ten that the quotient reaches. -/
theorem pow_leadingPlace_le {n d : ℕ} (hn : 0 < n) (hd : 0 < d) :
    (10 : ℚ) ^ leadingPlace n d ≤ n / d := by
  have hd' : (0 : ℚ) < d := by exact_mod_cast hd
  unfold leadingPlace
  split_ifs with h
  · have hq : 0 < n / d := Nat.div_pos h hd
    have hpos : 1 ≤ decimalLength (n / d) := Nat.length_toDigits_pos
    rw [show (decimalLength (n / d) : ℤ) - 1 = ((decimalLength (n / d) - 1 : ℕ) : ℤ) by omega,
      zpow_natCast, le_div_iff₀ hd']
    have := Nat.mul_le_mul_right d (pow_decimalLength_le hq)
    exact_mod_cast this.trans (Nat.div_mul_le_self n d)
  · simp only
    set c := (d + n - 1) / n with hc
    have hlt := lt_pow_decimalLength (c - 1)
    have hcn : d ≤ c * n := by
      have := Nat.lt_mul_of_div_lt (Nat.lt_succ_self ((d + n - 1) / n)) hn
      rw [← hc, Nat.succ_eq_add_one, add_mul] at this
      omega
    have hle : d ≤ 10 ^ decimalLength (c - 1) * n :=
      hcn.trans (Nat.mul_le_mul_right n (by omega))
    rw [Int.negOfNat_eq, Int.ofNat_eq_natCast, zpow_neg, zpow_natCast, le_div_iff₀ hd',
      inv_mul_le_iff₀ (by positivity)]
    exact_mod_cast hle

/-! ## Every finite double has a decimal -/

/-- The mantissas and exponents that the bits of finite doubles stand for. -/
structure IsFinite (mantissa : ℕ) (exponent : ℤ) : Prop where
  lowest : -1074 ≤ exponent
  bounded : mantissa < 2 ^ 53
  normal : 2 ^ 52 ≤ mantissa ∨ exponent = -1074

/-- What is searched for to write a double. -/
def rounding (mantissa : ℕ) (exponent : ℤ) : Rounding :=
  ⟨mantissa, exponent, mantissa == twoTo 52 && exponent != -1074⟩

theorem low_rounding (m : ℕ) (e : ℤ) :
    (rounding m e).low = 4 * m - if m = 2 ^ 52 ∧ e ≠ -1074 then 1 else 2 := by
  simp [Rounding.low, rounding, twoTo]

theorem high_sub_low (hm : 0 < m) : ((rounding m e).high : ℚ) - (rounding m e).low =
      if m = 2 ^ 52 ∧ e ≠ -1074 then 3 else 4 := by
  have hh : (rounding m e).high = 4 * m + 2 := rfl
  rw [hh, low_rounding]
  split_ifs
  · rw [Nat.cast_sub (by omega)]
    push_cast
    ring
  · rw [Nat.cast_sub (by omega)]
    push_cast
    ring

/-- Seventeen digits are enough: one unit of the seventeenth is less than the width of the interval,
since a double has fewer than `2 ^ 53` units and `2 ^ 53` is less than `10 ^ 16`. -/
theorem shortest?_ne_none (h : IsFinite m e) (hm : 0 < m) : shortest? m e ≠ none := by
  refine Rounding.search_ne_none (Rounding.onGrid?_ne_none hm ?_)
  set p := leadingPlace (rounding m e).ratio.1 (rounding m e).ratio.2
  have hn : 0 < (rounding m e).ratio.1 := by
    unfold Rounding.ratio scale rounding
    split_ifs
    · exact Nat.mul_pos hm (Nat.pow_pos Nat.two_pos)
    · exact hm
  have hp : (10 : ℚ) ^ p ≤ (rounding m e).value := by
    rw [← Rounding.ratio_div]
    exact pow_leadingPlace_le hn (scale_pos _ _)
  have hstep : (10 : ℚ) ^ (p - (16 : ℕ)) = 10 ^ p / 10 ^ 16 := by
    rw [zpow_sub₀ (by norm_num), zpow_natCast]
  have hq := (rounding m e).quarter_pos
  rw [Rounding.value_eq] at hp
  change (10 : ℚ) ^ (p - (16 : ℕ)) <
    ((rounding m e).high - (rounding m e).low) * (rounding m e).quarter
  rw [hstep, high_sub_low hm, div_lt_iff₀ (by norm_num)]
  refine hp.trans_lt ?_
  change 4 * (m : ℚ) * _ < _
  have hb : (m : ℚ) < 2 ^ 53 := by exact_mod_cast h.bounded
  split_ifs with hc
  · have hc' : (m : ℚ) = 2 ^ 52 := by exact_mod_cast hc.1
    rw [hc']
    linarith
  · nlinarith

/-! ## Two doubles have no decimal in common -/

/-- No number lies in two intervals of which one ends where the other begins, or before, if at a
common end one of them is open. -/
theorem Rounding.Holds.disjoint {r' : Rounding} (h : r.Holds q) (h' : r'.Holds q)
    (hle : r.high * r.quarter ≤ r'.low * r'.quarter)
    (hodd : r.high * r.quarter = r'.low * r'.quarter → r.mantissa % 2 = 1 ∨ r'.mantissa % 2 = 1) :
    False := by
  have hup := h.bounds.2
  have hdown := h'.bounds.1
  have heq : r.high * r.quarter = r'.low * r'.quarter := by linarith
  unfold Holds at h h'
  rcases hodd heq with hm | hm
  · rw [if_neg (by omega)] at h
    linarith [h.2]
  · rw [if_neg (by omega)] at h'
    linarith [h'.1]

/-- With equal exponents, the interval of the smaller mantissa ends where that of the larger one
begins, or before, and neighbouring mantissas are not both even. -/
theorem not_holds_of_mantissa_lt {m' : ℕ} (h : IsFinite m e) (hlt : m < m')
    (hq : (rounding m e).Holds q) : ¬(rounding m' e).Holds q := by
  intro hq'
  have hlow : 4 * m + 2 ≤ (rounding m' e).low := by
    rw [low_rounding]
    split_ifs <;> omega
  have hu := (rounding m e).quarter_pos
  refine hq.disjoint hq' ?_ ?_
  · exact mul_le_mul_of_nonneg_right (by exact_mod_cast hlow) hu.le
  · intro heq
    have heq' : ((rounding m e).high : ℚ) = (rounding m' e).low := mul_right_cancel₀ hu.ne' heq
    have hlow' : 4 * m + 2 = (rounding m' e).low := by exact_mod_cast heq'
    rw [low_rounding] at hlow'
    change m % 2 = 1 ∨ m' % 2 = 1
    have := h.normal
    split_ifs at hlow' <;> omega

/-- An interval ends where those of larger exponents begin, or before; if it ends there, its
mantissa is the largest there is, which is odd. -/
theorem not_holds_of_exponent_lt {m' : ℕ} {e' : ℤ} (h : IsFinite m e) (h' : IsFinite m' e')
    (hlt : e < e') (hq : (rounding m e).Holds q) : ¬(rounding m' e').Holds q := by
  intro hq'
  have hlow : 2 ^ 54 - 1 ≤ (rounding m' e').low := by
    rw [low_rounding]
    have := h.lowest
    have := h'.normal
    split_ifs <;> omega
  have hu := (rounding m e).quarter_pos
  have hu' : 2 * (rounding m e).quarter ≤ (rounding m' e').quarter := by
    have hpow : 2 * (2 : ℚ) ^ (e - 2) = 2 ^ (e - 2 + 1) := by
      rw [zpow_add_one₀ two_ne_zero]
      ring
    unfold Rounding.quarter rounding
    simp only
    rw [hpow]
    exact zpow_le_zpow_right₀ one_le_two (by omega)
  have hlow' : (2 : ℚ) ^ 54 - 1 ≤ (rounding m' e').low := by
    have : ((2 ^ 54 - 1 : ℕ) : ℚ) ≤ (rounding m' e').low := by exact_mod_cast hlow
    norm_num at this ⊢
    exact this
  have hend : ((2 : ℚ) ^ 54 - 1) * (2 * (rounding m e).quarter) ≤
      (rounding m' e').low * (rounding m' e').quarter :=
    mul_le_mul hlow' hu' (by positivity) (by positivity)
  have hhigh : ((rounding m e).high : ℚ) = 4 * m + 2 := by
    simp [Rounding.high, rounding]
  have hm : (m : ℚ) ≤ 2 ^ 53 - 1 := by
    have := h.bounded
    have : m + 1 ≤ 2 ^ 53 := by omega
    have : (m : ℚ) + 1 ≤ 2 ^ 53 := by exact_mod_cast this
    linarith
  refine hq.disjoint hq' ?_ ?_
  · rw [hhigh]
    nlinarith
  · intro heq
    left
    change m % 2 = 1
    rw [← heq, hhigh] at hend
    have hge : (2 : ℚ) ^ 53 - 1 ≤ m := by
      by_contra! hc
      nlinarith
    have hm' : (m : ℚ) + 1 = (2 ^ 53 : ℕ) := by
      push_cast
      linarith
    have : m + 1 = 2 ^ 53 := by exact_mod_cast hm'
    omega

theorem eq_of_holds {m' : ℕ} {e' : ℤ} (h : IsFinite m e) (h' : IsFinite m' e')
    (hq : (rounding m e).Holds q) (hq' : (rounding m' e').Holds q) : m = m' ∧ e = e' := by
  rcases lt_trichotomy e e' with hlt | rfl | hlt
  · exact absurd hq' (not_holds_of_exponent_lt h h' hlt hq)
  · rcases lt_trichotomy m m' with hlt | rfl | hlt
    · exact absurd hq' (not_holds_of_mantissa_lt h hlt hq)
    · exact ⟨rfl, rfl⟩
    · exact absurd hq (not_holds_of_mantissa_lt h' hlt hq')
  · exact absurd hq (not_holds_of_exponent_lt h' h hlt hq')

/-! ## Bits -/

theorem isFinite_of_magnitude {x : Double} (h : x.magnitude = .finite m e) : IsFinite m e := by
  have hf : x.fractionField < 2 ^ 52 := Nat.mod_lt _ (by simp [twoTo])
  unfold magnitude at h
  split_ifs at h with h₁ h₂
  · cases h
    exact ⟨le_rfl, by omega, .inr rfl⟩
  · cases h
    simp only [twoTo, Nat.pow_eq]
    exact ⟨by omega, by omega, .inl (by omega)⟩

theorem eq_of_magnitude {x y : Double} (hx : x.isNegative = false) (hy : y.isNegative = false)
    (h : x.magnitude = .finite m e) (h' : y.magnitude = .finite m e) : x = y := by
  have hx' : x.bits.toNat < 2 ^ 63 := not_le.mp (of_decide_eq_false hx)
  have hy' : y.bits.toNat < 2 ^ 63 := not_le.mp (of_decide_eq_false hy)
  have hfields : x.exponentField = y.exponentField ∧ x.fractionField = y.fractionField := by
    have hfx : x.fractionField < 2 ^ 52 := Nat.mod_lt _ (by simp [twoTo])
    have hfy : y.fractionField < 2 ^ 52 := Nat.mod_lt _ (by simp [twoTo])
    unfold magnitude at h h'
    simp only [twoTo, Nat.pow_eq] at h h'
    split_ifs at h h' <;> cases h <;> simp only [Magnitude.finite.injEq] at h' <;> omega
  simp only [exponentField, fractionField, twoTo, Nat.pow_eq] at hfields
  have hbits : x.bits.toNat = y.bits.toNat := by omega
  cases x
  cases y
  simpa using UInt64.toNat_inj.mp hbits

end DrawPlus.Double
