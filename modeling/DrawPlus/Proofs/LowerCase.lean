import DrawPlus.Proofs.Characters
import DrawPlus.Text.Case

/-!
# Words in lower case

What putting a text into lower case does to words. A blank shuts off what comes before it from what
comes after it, also for the capital whose form depends on its surroundings (`lower_append_blank`).

Lower case turns characters of words into characters of words, with one exception: the dotted
capital I gives a dot besides, which belongs to no word (`isWordChar_or_dot_of_mem_lower`). For the
other capitals this is computed from the tables: each run of capitals goes into one range of a table
of word characters, or else it has no character in common with them.
-/

namespace DrawPlus

namespace Text

/-! ## Blanks -/

theorem startsCased_append_blank (text rest : List Char) :
    startsCased (text ++ ' ' :: rest) = startsCased text := by
  have hignorable : isIgnorable ' ' = false := by decide +kernel
  have hcased : isCased ' ' = false := by decide +kernel
  unfold startsCased
  induction text with
  | nil =>
    rw [List.nil_append, List.dropWhile_cons_of_neg (by simp [hignorable])]
    exact hcased
  | cons c text ih =>
    rw [List.cons_append]
    cases hc : isIgnorable c with
    | true => rw [List.dropWhile_cons_of_pos hc, List.dropWhile_cons_of_pos hc, ih]
    | false =>
      rw [List.dropWhile_cons_of_neg (by simp [hc]), List.dropWhile_cons_of_neg (by simp [hc])]

theorem lowerAfter_append_blank (near far text : List Char) :
    lowerAfter (near ++ ' ' :: far) text = lowerAfter near text := by
  induction text generalizing near with
  | nil => rfl
  | cons c text ih =>
    rw [lowerAfter, lowerAfter, startsCased_append_blank, ← List.cons_append, ih]

/-- Parts of a text that are set apart by a blank are put into lower case apart. -/
theorem lower_append_blank (text rest : List Char) :
    lower (text ++ ' ' :: rest) = lower text ++ ' ' :: lower rest := by
  have hgeneral (before : List Char) : lowerAfter before (text ++ ' ' :: rest) =
      lowerAfter before text ++ ' ' :: lower rest := by
    induction text generalizing before with
    | nil =>
      have hblank : lowerChar ' ' = ' ' := rfl
      have hrest := lowerAfter_append_blank [] before rest
      rw [List.nil_append] at hrest
      simp [lowerAfter, hblank, hrest, lower]
    | cons c text ih =>
      rw [List.cons_append, lowerAfter, lowerAfter, startsCased_append_blank, ih, List.append_assoc]
  exact hgeneral []

/-! ## Runs of capitals and tables of characters -/

/-- The lower-case forms of a run lie in one range of the table. -/
def mapsInto (table : List (ℕ × ℕ)) (run : ℕ × ℕ × ℕ × Int) : Bool :=
  table.any fun r => r.1.ble (run.1 + run.2.2.2).toNat && (run.2.1 + run.2.2.2 : Int).toNat.ble r.2

/-- No character of a run is in the table. -/
def avoids (table : List (ℕ × ℕ)) (run : ℕ × ℕ × ℕ × Int) : Bool :=
  table.all fun r => r.2.blt run.1 || run.2.1.blt r.1

/-- Lower case stays in the table. -/
def keptByLower (table : List (ℕ × ℕ)) : Bool :=
  (capitalRuns.all fun run => mapsInto table run || avoids table run) &&
    table.all fun r => r.2.blt 0xD800 || (Nat.ble 0xE000 r.1 && r.2.blt 0x110000)

/-- What begins a word: the small letters of ASCII and the letters above. -/
def startRanges : List (ℕ × ℕ) := (97, 122) :: letterRanges

/-- What goes on with a word. -/
def wordRanges : List (ℕ × ℕ) :=
  (97, 122) :: (letterRanges ++ (48, 57) :: (decimalRanges ++ figureRanges ++ numeralRanges))

theorem keptByLower_tables : keptByLower startRanges = true ∧ keptByLower wordRanges = true := by
  constructor <;> decide +kernel

theorem toNat_ofNat_of_mem {table : List (ℕ × ℕ)} {n : ℕ} (hkept : keptByLower table = true)
    (hn : inRanges table n = true) : (Char.ofNat n).toNat = n := by
  obtain ⟨r, hr, hlow, hhigh⟩ := inRanges_iff.mp hn
  have hvalid := List.all_eq_true.mp (Bool.and_eq_true_iff.mp hkept).2 r hr
  simp only [Bool.or_eq_true, Bool.and_eq_true, Nat.blt_eq, Nat.ble_eq] at hvalid
  have hchar : n.isValidChar := by
    unfold Nat.isValidChar
    omega
  rw [Char.toNat_ofNat, if_pos hchar]

/-- A character of the table that is no capital of ASCII stays in the table. -/
theorem inRanges_lowerChar {table : List (ℕ × ℕ)} (hkept : keptByLower table = true) {c : Char}
    (hupper : c.isUpper = false) (hc : inRanges table c.toNat = true) :
    inRanges table (lowerChar c).toNat = true := by
  rw [lowerChar, if_neg (by simp [hupper])]
  split
  case h_1 first last step shift hfind =>
    have hin := List.find?_some hfind
    simp only [Bool.and_eq_true, decide_eq_true_eq] at hin
    have hrun := List.all_eq_true.mp (Bool.and_eq_true_iff.mp hkept).1 _
      (List.mem_of_find?_eq_some hfind)
    obtain ⟨r, hr, hlow, hhigh⟩ := inRanges_iff.mp hc
    simp only [Bool.or_eq_true, mapsInto, avoids, List.any_eq_true, List.all_eq_true,
      Bool.and_eq_true, Nat.ble_eq, Nat.blt_eq] at hrun
    rcases hrun with ⟨s, hs, hfrom, hto⟩ | havoids
    · have hmapped : inRanges table (c.toNat + shift).toNat = true :=
        inRanges_iff.mpr ⟨s, hs, by omega, by omega⟩
      rw [toNat_ofNat_of_mem hkept hmapped]
      exact hmapped
    · have hapart := havoids r hr
      omega
  case h_2 => exact hc

end Text

/-! ## Characters of words -/

open Text

theorem isUpper_iff {c : Char} : c.isUpper = true ↔ 65 ≤ c.toNat ∧ c.toNat ≤ 90 := by
  simp only [Char.isUpper, decide_eq_true_eq, ge_iff_le, UInt32.le_iff_toNat_le]
  exact Iff.rfl

theorem isAlpha_iff_isUpper {c : Char} :
    c.isAlpha = true ↔ c.isUpper = true ∨ 97 ≤ c.toNat ∧ c.toNat ≤ 122 := by
  rw [isAlpha_iff, isUpper_iff]

theorem inRanges_cons {r : ℕ × ℕ} {rs : List (ℕ × ℕ)} {n : ℕ} :
    inRanges (r :: rs) n = true ↔ r.1 ≤ n ∧ n ≤ r.2 ∨ inRanges rs n = true := by
  simp [inRanges]

theorem inRanges_append {rs ss : List (ℕ × ℕ)} {n : ℕ} :
    inRanges (rs ++ ss) n = true ↔ inRanges rs n = true ∨ inRanges ss n = true := by
  simp [inRanges]

theorem isWordStart_iff {c : Char} : isWordStart c = true ↔
    c.isUpper = true ∨ inRanges startRanges c.toNat = true ∨ c = '_' := by
  rw [startRanges, inRanges_cons]
  simp only [isWordStart, isLetter, Bool.or_eq_true, beq_iff_eq, isAlpha_iff_isUpper, or_assoc]

theorem isWordChar_iff {c : Char} : isWordChar c = true ↔
    c.isUpper = true ∨ inRanges wordRanges c.toNat = true ∨ c = '_' := by
  have hdigit : c.isDigit = true ↔ 48 ≤ c.toNat ∧ c.toNat ≤ 57 := by
    simp only [Char.isDigit, Bool.and_eq_true, decide_eq_true_eq, ge_iff_le, UInt32.le_iff_toNat_le]
    exact Iff.rfl
  rw [wordRanges, inRanges_cons, inRanges_append, inRanges_cons, inRanges_append, inRanges_append]
  simp only [isWordChar, isLetter, Text.isDigit, isNumeral, Bool.or_eq_true, beq_iff_eq,
    isAlpha_iff_isUpper, hdigit, or_assoc]

theorem isWordStart_toLower {c : Char} (h : c.isUpper = true) : isWordStart c.toLower = true := by
  have hall : ∀ n < 91, 65 ≤ n → (Char.ofNat n).toLower.isAlpha = true := by decide
  have halpha : c.toLower.isAlpha = true := by
    obtain ⟨hlow, hhigh⟩ := isUpper_iff.mp h
    have hc := hall c.toNat (by omega) hlow
    rwa [Char.ofNat_toNat] at hc
  simp [isWordStart, isLetter, halpha]

theorem isWordStart_lowerChar {c : Char} (h : isWordStart c = true) :
    isWordStart (lowerChar c) = true := by
  cases hupper : c.isUpper with
  | true =>
    rw [lowerChar, if_pos hupper]
    exact isWordStart_toLower hupper
  | false =>
    rcases isWordStart_iff.mp h with hc | hc | rfl
    · rw [hupper] at hc
      cases hc
    · exact isWordStart_iff.mpr (.inr (.inl (inRanges_lowerChar keptByLower_tables.1 hupper hc)))
    · exact h

theorem isWordChar_lowerChar {c : Char} (h : isWordChar c = true) :
    isWordChar (lowerChar c) = true := by
  cases hupper : c.isUpper with
  | true =>
    rw [lowerChar, if_pos hupper]
    exact isWordChar_of_isWordStart (isWordStart_toLower hupper)
  | false =>
    rcases isWordChar_iff.mp h with hc | hc | rfl
    · rw [hupper] at hc
      cases hc
    · exact isWordChar_iff.mpr (.inr (.inl (inRanges_lowerChar keptByLower_tables.2 hupper hc)))
    · exact h

/-! ## Words -/

/-- The dot that is left of a dotted capital I. -/
def dotAbove : Char := Char.ofNat 0x307

/-- What the capitals with a rule of their own become. -/
theorem isWordStart_of_mem_ruled {c : Char} (h : c ∈ ['ς', 'σ', 'i']) : isWordStart c = true := by
  have hall : ['ς', 'σ', 'i'].all isWordStart = true := by decide +kernel
  exact List.all_eq_true.mp hall c h

theorem isWordChar_or_dot_of_mem_lower {text before : List Char}
    (h : ∀ c ∈ text, isWordChar c = true) {d : Char} (hd : d ∈ lowerAfter before text) :
    isWordChar d = true ∨ d = dotAbove := by
  induction text generalizing before with
  | nil => cases hd
  | cons c text ih =>
    rw [List.forall_mem_cons] at h
    rw [lowerAfter, List.mem_append] at hd
    rcases hd with hd | hd
    · split_ifs at hd
      · obtain rfl := List.mem_singleton.mp hd
        exact .inl (isWordChar_of_isWordStart (isWordStart_of_mem_ruled (by decide)))
      · obtain rfl := List.mem_singleton.mp hd
        exact .inl (isWordChar_of_isWordStart (isWordStart_of_mem_ruled (by decide)))
      · rcases List.mem_cons.mp hd with rfl | hd
        · exact .inl (isWordChar_of_isWordStart (isWordStart_of_mem_ruled (by decide)))
        · exact .inr (List.mem_singleton.mp hd)
      · obtain rfl := List.mem_singleton.mp hd
        exact .inl (isWordChar_lowerChar h.1)
    · exact ih h.2 hd

theorem exists_lower_cons {c : Char} (h : isWordStart c = true) (text : List Char) :
    ∃ d ds, lower (c :: text) = d :: ds ∧ isWordStart d = true := by
  unfold lower
  rw [lowerAfter]
  split_ifs
  · exact ⟨_, _, rfl, isWordStart_of_mem_ruled (by decide)⟩
  · exact ⟨_, _, rfl, isWordStart_of_mem_ruled (by decide)⟩
  · exact ⟨_, _, rfl, isWordStart_of_mem_ruled (by decide)⟩
  · exact ⟨_, _, rfl, isWordStart_lowerChar h⟩

end DrawPlus
