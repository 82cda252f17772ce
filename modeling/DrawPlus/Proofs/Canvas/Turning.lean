import DrawPlus.Proofs.Canvas.Pool

/-!
# Turning a cursor

A cursor is turned by adding to its angle and then, in two loops, taking away full turns while there
is one and adding full turns while the angle is negative. With exact angles, the bounds that
`Degrees.reduce` puts on its loops are large enough, so that the loops without them end at the same
angle (`settles_reduce`).

That angle is below a full turn and congruent to the one before (`reduce_mem`, `reduce_modEq`), and
there is only one such angle (`eq_of_modEq`). So what many turns come to depends on their sum only
(`rotateAll_eq_iff`).
-/

namespace DrawPlus

open AddCommGroup

namespace Degrees

/-- The two loops that bring an angle between zero and a full turn, one after the other, end. -/
def Settles {α : Type} [Degrees α] (a b : α) : Prop :=
  ∃ m, Loops isFull (· - fullTurn) a m ∧ Loops isNegative (· + fullTurn) m b

/-! ## Exact angles -/

/-- Angles as exact numbers. -/
instance : Degrees ℚ where
  fullTurn := 360
  isFull angle := 360 ≤ angle
  isNegative angle := angle < 0
  turns angle := ⌊|angle| / 360⌋₊ + 2

theorem isFull_eq_false {a : ℚ} : isFull a = false ↔ a < 360 :=
  decide_eq_false_iff_not.trans not_le

theorem isNegative_eq_false {a : ℚ} : isNegative a = false ↔ 0 ≤ a :=
  decide_eq_false_iff_not.trans not_lt

theorem isNegative_eq_true {a : ℚ} : isNegative a = true ↔ a < 0 :=
  decide_eq_true_iff

/-- The bound on the number of full turns is large enough. -/
theorem abs_lt_turns (a : ℚ) : |a| < 360 * turns a := by
  have hfloor : |a| / 360 < ⌊|a| / 360⌋₊ + 1 := Nat.lt_floor_add_one _
  change |a| < 360 * ((⌊|a| / 360⌋₊ + 2 : ℕ) : ℚ)
  push_cast
  linarith

theorem isFull_lower (a : ℚ) : isFull (lower (turns a) a) = false := by
  apply repeatWhile_stops fun (n : ℕ) (a : ℚ) => a < 360 * (n + 1)
  · intro a h
    rw [isFull_eq_false]
    simpa using h
  · intro n a _ h
    change a - 360 < 360 * (n + 1)
    push_cast at h
    linarith
  · linarith [abs_lt_turns a, le_abs_self a]

theorem isNegative_raise (a : ℚ) : isNegative (raise (turns a) a) = false := by
  apply repeatWhile_stops fun (n : ℕ) (a : ℚ) => -(360 * n) ≤ a
  · intro a h
    rw [isNegative_eq_false]
    simpa using h
  · intro n a _ h
    change -(360 * n) ≤ a + 360
    push_cast at h
    linarith
  · linarith [abs_lt_turns a, neg_abs_le a]

theorem settles_reduce (a : ℚ) : Settles a (reduce a) :=
  ⟨lower (turns a) a, loops_repeatWhile (isFull_lower a), loops_repeatWhile (isNegative_raise _)⟩

theorem reduce_mem (a : ℚ) : 0 ≤ reduce a ∧ reduce a < 360 := by
  refine ⟨isNegative_eq_false.mp (isNegative_raise _), ?_⟩
  -- full turns are added to negative angles only
  apply repeatWhile_invariant fun a : ℚ => a < 360
  · intro a hnegative _
    change a + 360 < 360
    linarith [isNegative_eq_true.mp hnegative]
  · exact isFull_eq_false.mp (isFull_lower a)

theorem add_fullTurn_modEq (a : ℚ) : a + 360 ≡ a [PMOD 360] :=
  add_modEq_left.mpr self_modEq_zero

theorem sub_fullTurn_modEq (a : ℚ) : a - 360 ≡ a [PMOD 360] :=
  sub_modEq_iff_modEq_add.mpr (add_fullTurn_modEq a).symm

theorem reduce_modEq (a : ℚ) : reduce a ≡ a [PMOD 360] := by
  have hlower : lower (turns a) a ≡ a [PMOD 360] :=
    repeatWhile_invariant (· ≡ a [PMOD 360])
      (fun b _ h => (sub_fullTurn_modEq b).trans h) modEq_rfl _
  exact repeatWhile_invariant (· ≡ a [PMOD 360])
    (fun b _ h => (add_fullTurn_modEq b).trans h) hlower _

/-- There is one angle below a full turn for each congruence class. -/
theorem eq_of_modEq {a b : ℚ} (ha : 0 ≤ a ∧ a < 360) (hb : 0 ≤ b ∧ b < 360)
    (h : a ≡ b [PMOD 360]) : a = b := by
  have hpos : (0 : ℚ) < 360 := by norm_num
  rw [← zero_add (360 : ℚ)] at ha hb
  rw [← (toIcoMod_eq_self hpos).mpr ha, ← (toIcoMod_eq_self hpos).mpr hb, toIcoMod_inj]
  exact h

end Degrees

/-! ## Many turns -/

open Degrees

namespace Cursor

def rotateAll {α : Type} [Degrees α] (k : Cursor α) (amounts : List α) : Cursor α :=
  amounts.foldl rotate k

section

variable {α : Type} [Degrees α]

theorem rotateAll_append (k : Cursor α) (before after : List α) :
    k.rotateAll (before ++ after) = (k.rotateAll before).rotateAll after :=
  List.foldl_append

/-- Nothing but the angle changes. -/
theorem rotateAll_eq (k : Cursor α) (amounts : List α) :
    k.rotateAll amounts = { k with angle := (k.rotateAll amounts).angle } := by
  induction amounts generalizing k with
  | nil => rfl
  | cons amount amounts ih => exact ih (k.rotate amount)

end

variable {k : Cursor ℚ}

theorem rotateAll_mem (h : 0 ≤ k.angle ∧ k.angle < 360) (amounts : List ℚ) :
    0 ≤ (k.rotateAll amounts).angle ∧ (k.rotateAll amounts).angle < 360 := by
  induction amounts generalizing k with
  | nil => exact h
  | cons amount amounts ih => exact ih (reduce_mem (k.angle + amount))

theorem rotateAll_modEq (k : Cursor ℚ) (amounts : List ℚ) :
    (k.rotateAll amounts).angle ≡ k.angle + amounts.sum [PMOD 360] := by
  induction amounts generalizing k with
  | nil =>
    rw [List.sum_nil, add_zero]
    exact modEq_rfl
  | cons amount amounts ih =>
    have hfirst : (k.rotate amount).angle ≡ k.angle + amount [PMOD 360] := reduce_modEq _
    rw [List.sum_cons, ← add_assoc]
    exact (ih (k.rotate amount)).trans (hfirst.add_right amounts.sum)

/-- What many turns come to depends on their sum only. -/
theorem rotateAll_eq_iff (h : 0 ≤ k.angle ∧ k.angle < 360) {others amounts : List ℚ} :
    k.rotateAll others = k.rotateAll amounts ↔ others.sum ≡ amounts.sum [PMOD 360] := by
  have hothers := rotateAll_modEq k others
  have hamounts := rotateAll_modEq k amounts
  constructor
  · intro heq
    rw [heq] at hothers
    exact (hothers.symm.trans hamounts).add_left_cancel' k.angle
  · intro hsum
    have hangle := eq_of_modEq (rotateAll_mem h others) (rotateAll_mem h amounts)
      ((hothers.trans (hsum.add_left k.angle)).trans hamounts.symm)
    rw [rotateAll_eq k others, hangle, ← rotateAll_eq]

end Cursor

namespace Canvas

theorem rotate_eq {c : Canvas} {i : ℕ} {k : Cursor Float} (hslot : c.slots[i]? = some k)
    (hactive : k.active = true) (amount : Float) :
    c.rotate (some i) amount = { c with slots := c.slots.set i (k.rotate amount) } := by
  rw [rotate, update, active?_eq_some.mpr ⟨rfl, hslot, hactive⟩]

/-- Calls that turn an active cursor of a canvas turn the cursor and do nothing else. -/
theorem foldl_rotate {c : Canvas} {i : ℕ} {k : Cursor Float} (hslot : c.slots[i]? = some k)
    (hactive : k.active = true) (amounts : List Float) :
    amounts.foldl (fun c amount => c.rotate (some i) amount) c =
      { c with slots := c.slots.set i (k.rotateAll amounts) } := by
  induction amounts generalizing c k with
  | nil =>
    obtain ⟨hi, rfl⟩ := List.getElem?_eq_some_iff.mp hslot
    rw [Cursor.rotateAll, List.foldl_nil, List.foldl_nil, List.set_getElem_self]
  | cons amount amounts ih =>
    have hset : (c.slots.set i (k.rotate amount))[i]? = some (k.rotate amount) := by
      rw [List.getElem?_set_self (List.getElem?_eq_some_iff.mp hslot).1]
    rw [List.foldl_cons, rotate_eq hslot hactive, ih (k := k.rotate amount) hset hactive,
      List.set_set]
    rfl

end Canvas

/-- Turns add up modulo a full turn. With exact angles, both loops of every call end, and leave the
angle between zero and a full turn. After all calls it is the only such angle that is congruent to
the first angle and all amounts together, and nothing else about the cursor has changed. So two
lists of amounts have the same effect if and only if their sums are congruent. In particular neither
their order counts nor how they are put together to larger ones. On a canvas, the calls for an
active cursor do this to the cursor and leave all else as it was. -/
theorem rotations_compose {k : Cursor ℚ} (hangle : 0 ≤ k.angle ∧ k.angle < 360)
    (amounts : List ℚ) :
    (∀ before amount after, amounts = before ++ amount :: after →
      Settles ((k.rotateAll before).angle + amount) (k.rotateAll (before ++ [amount])).angle ∧
      0 ≤ (k.rotateAll (before ++ [amount])).angle ∧
      (k.rotateAll (before ++ [amount])).angle < 360) ∧
    (∀ angle, angle = (k.rotateAll amounts).angle ↔
      (0 ≤ angle ∧ angle < 360) ∧ angle ≡ k.angle + amounts.sum [PMOD 360]) ∧
    k.rotateAll amounts = { k with angle := (k.rotateAll amounts).angle } ∧
    (∀ others, k.rotateAll others = k.rotateAll amounts ↔ others.sum ≡ amounts.sum [PMOD 360]) ∧
    (∀ others : List ℚ, others.Perm amounts → k.rotateAll others = k.rotateAll amounts) ∧
    (∀ groups : List (List ℚ), groups.flatten = amounts →
      k.rotateAll (groups.map List.sum) = k.rotateAll amounts) ∧
    ∀ (c : Canvas) (i : ℕ) (k : Cursor Float) (amounts : List Float),
      c.slots[i]? = some k → k.active = true →
      amounts.foldl (fun c amount => c.rotate (some i) amount) c =
        { c with slots := c.slots.set i (k.rotateAll amounts) } := by
  refine ⟨?_, ?_, Cursor.rotateAll_eq k amounts, fun others => Cursor.rotateAll_eq_iff hangle, ?_,
    ?_, fun c i k amounts hslot hactive => Canvas.foldl_rotate hslot hactive amounts⟩
  · intro before amount after _
    refine ⟨?_, Cursor.rotateAll_mem hangle (before ++ [amount])⟩
    rw [Cursor.rotateAll_append]
    exact settles_reduce _
  · intro angle
    have hmem := Cursor.rotateAll_mem hangle amounts
    have hmod := Cursor.rotateAll_modEq k amounts
    constructor
    · rintro rfl
      exact ⟨hmem, hmod⟩
    · rintro ⟨hrange, hcongr⟩
      exact eq_of_modEq hrange hmem (hcongr.trans hmod.symm)
  · intro others hperm
    rw [Cursor.rotateAll_eq_iff hangle, hperm.sum_eq]
  · rintro groups rfl
    rw [Cursor.rotateAll_eq_iff hangle, List.sum_flatten]

/-- Three turns: one back by more than a full turn, one of almost a full turn, one of more than
two. -/
theorem rotations_compose_three :
    ((⟨0, 0, 90, 1, .black, true, true⟩ : Cursor ℚ).rotateAll [-450, 719 / 2, 1000]).angle =
      559 / 2 := by
  have hcompose := rotations_compose (k := ⟨0, 0, 90, 1, .black, true, true⟩)
    ⟨by norm_num, by norm_num⟩ [-450, 719 / 2, 1000]
  refine ((hcompose.2.1 (559 / 2)).mpr ⟨⟨by norm_num, by norm_num⟩, ?_⟩).symm
  rw [modEq_iff_eq_add_zsmul]
  exact ⟨2, by norm_num⟩

end DrawPlus
