import Mathlib
import DrawPlus.Token.Scan

/-!
# Classes of characters

Letters, digits and numerals are given by tables of ranges, and the tables lie above ASCII. So
whether a character of ASCII belongs to a word is decided without a look at the tables
(`isWordStart_of_ascii` and `isWordChar_of_ascii`), and facts about single characters are left to
computation. That no character is in two of the tables is computed by going through both at once
(`passBy`).
-/

namespace DrawPlus

variable {c : Char}

/-! ## Tables of ranges -/

namespace Text

theorem inRanges_iff {rs : List (ℕ × ℕ)} {n : ℕ} :
    inRanges rs n = true ↔ ∃ r ∈ rs, r.1 ≤ n ∧ n ≤ r.2 := by
  simp [inRanges]

section

variable {start n : ℕ} {lengths : List ℕ}

theorem le_of_mem_rangesFrom {r : ℕ × ℕ} (h : r ∈ rangesFrom start lengths) : start ≤ r.1 := by
  fun_induction rangesFrom start lengths with
  | case1 start skipped taken rest first ih =>
    rcases List.mem_cons.mp h with rfl | h
    · exact Nat.le_add_right _ _
    · exact le_trans (by omega) (ih h)
  | case2 => cases h

theorem le_of_inRanges (h : inRanges (rangesFrom start lengths) n = true) : start ≤ n := by
  obtain ⟨r, hr, hlow, -⟩ := inRanges_iff.mp h
  exact (le_of_mem_rangesFrom hr).trans hlow

theorem inRanges_of_lt (h : n < start) : inRanges (rangesFrom start lengths) n = false :=
  Bool.eq_false_iff.mpr fun hn => absurd (le_of_inRanges hn) (by omega)

end

theorem not_inRanges_of_disjoint {rs bs : List (ℕ × ℕ)}
    (h : (rs.all fun r => bs.all fun b => r.2 < b.1 || b.2 < r.1) = true) {n : ℕ}
    (hn : inRanges rs n = true) : inRanges bs n = false := by
  simp only [inRanges, List.any_eq_true, Bool.and_eq_true, decide_eq_true_eq] at hn
  obtain ⟨r, hr, hlo, hhi⟩ := hn
  rw [inRanges, List.any_eq_false]
  intro b hb
  have hd := List.all_eq_true.mp (List.all_eq_true.mp h r hr) b hb
  simp only [Bool.or_eq_true, decide_eq_true_eq] at hd
  simp only [Bool.and_eq_true, decide_eq_true_eq, not_and]
  omega

/-- No range of the first table meets one of the second. Both are in increasing order, so that the
second one is gone through along with the first. -/
def passBy : List (ℕ × ℕ) → List (ℕ × ℕ) → Bool
  | [], _ => true
  | r :: rs, bs =>
    let later := bs.dropWhile fun b => b.2.blt r.1
    (later.head?.all fun b => r.2.blt b.1) && passBy rs later

def Increasing (rs : List (ℕ × ℕ)) : Prop := rs.Pairwise fun r s => r.1 ≤ s.1

theorem increasing_rangesFrom (start : ℕ) (lengths : List ℕ) :
    Increasing (rangesFrom start lengths) := by
  fun_induction rangesFrom start lengths with
  | case1 start skipped taken rest first ih =>
    refine List.pairwise_cons.mpr ⟨fun r hr => ?_, ih⟩
    exact le_trans (Nat.le_add_right _ _) (le_of_mem_rangesFrom hr)
  | case2 => exact List.Pairwise.nil

theorem not_inRanges_of_passBy {rs bs : List (ℕ × ℕ)} (hr : Increasing rs) (hb : Increasing bs)
    (h : passBy rs bs = true) {n : ℕ} (hn : inRanges rs n = true) : inRanges bs n = false := by
  induction rs generalizing bs with
  | nil => cases hn
  | cons r rs ih =>
    rw [Increasing, List.pairwise_cons] at hr
    simp only [passBy, Bool.and_eq_true] at h
    obtain ⟨s, hs, hlow, hhigh⟩ := inRanges_iff.mp hn
    have hfrom : r.1 ≤ n := by
      rcases List.mem_cons.mp hs with rfl | hs
      · exact hlow
      · exact (hr.1 s hs).trans hlow
    -- `n` is in no range that was left behind
    have hpassed : inRanges (bs.takeWhile fun b => b.2.blt r.1) n = false := by
      rw [inRanges, List.any_eq_false]
      intro b hb
      have hbelow := List.mem_takeWhile_imp hb
      simp only [Nat.blt_eq] at hbelow
      simp only [Bool.and_eq_true, decide_eq_true_eq, not_and]
      omega
    have hlater : Increasing (bs.dropWhile fun b => b.2.blt r.1) :=
      hb.sublist (List.dropWhile_sublist _)
    rw [← List.takeWhile_append_dropWhile (p := fun b => b.2.blt r.1) (l := bs), inRanges,
      List.any_append, ← inRanges, ← inRanges, hpassed, Bool.false_or]
    rcases List.mem_cons.mp hs with rfl | hs
    · cases hl : bs.dropWhile fun b => b.2.blt s.1 with
      | nil => rfl
      | cons first others =>
        rw [hl, Increasing, List.pairwise_cons] at hlater
        simp only [hl, List.head?_cons, Option.all_some, Nat.blt_eq] at h
        rw [inRanges, List.any_eq_false]
        intro b hb
        have hfirst : first.1 ≤ b.1 := by
          rcases List.mem_cons.mp hb with rfl | hb
          · exact le_rfl
          · exact hlater.1 b hb
        simp only [Bool.and_eq_true, decide_eq_true_eq, not_and]
        omega
    · exact ih hr.2 hlater h.2 (inRanges_iff.mpr ⟨s, hs, hlow, hhigh⟩)

/-- How the tables lie to each other. -/
structure Tables : Prop where
  decimals_letters : passBy decimalRanges letterRanges = true
  figures_letters : passBy figureRanges letterRanges = true
  letters_blanks :
    (letterRanges.all fun r => blankRanges.all fun b => r.2 < b.1 || b.2 < r.1) = true
  decimals_blanks :
    (decimalRanges.all fun r => blankRanges.all fun b => r.2 < b.1 || b.2 < r.1) = true
  figures_blanks :
    (figureRanges.all fun r => blankRanges.all fun b => r.2 < b.1 || b.2 < r.1) = true
  numerals_blanks :
    (numeralRanges.all fun r => blankRanges.all fun b => r.2 < b.1 || b.2 < r.1) = true

-- The tables are long, so what is computed from them is computed once and in one place.
theorem tables : Tables := by
  constructor <;> decide +kernel

theorem isLetter_of_ascii (h : c.toNat < 128) : isLetter c = c.isAlpha := by
  have hletter : inRanges letterRanges c.toNat = false := inRanges_of_lt h
  rw [isLetter, hletter, Bool.or_false]

theorem isDigit_of_ascii (h : c.toNat < 128) : isDigit c = c.isDigit := by
  have hdecimal : inRanges decimalRanges c.toNat = false := inRanges_of_lt h
  have hfigure : inRanges figureRanges c.toNat = false := inRanges_of_lt h
  rw [isDigit, hdecimal, hfigure, Bool.or_false, Bool.or_false]

theorem isNumeral_of_ascii (h : c.toNat < 128) : isNumeral c = false :=
  inRanges_of_lt h

end Text

/-! ## The characters of words -/

theorem isWordStart_of_ascii (h : c.toNat < 128) : isWordStart c = (c.isAlpha || c == '_') := by
  rw [isWordStart, Text.isLetter_of_ascii h]

theorem isWordChar_of_ascii (h : c.toNat < 128) : isWordChar c = (c.isAlphanum || c == '_') := by
  rw [isWordChar, Text.isLetter_of_ascii h, Text.isDigit_of_ascii h, Text.isNumeral_of_ascii h,
    Bool.or_false, Char.isAlphanum]

theorem isWordChar_of_isWordStart (h : isWordStart c = true) : isWordChar c = true := by
  simp only [isWordStart, isWordChar, Bool.or_eq_true] at h ⊢
  rcases h with h | h <;> simp [h]

theorem isWordChar_of_isDigit (h : c.isDigit = true) : isWordChar c = true := by
  simp [isWordChar, Text.isDigit, h]

theorem isAlpha_iff :
    c.isAlpha = true ↔ 65 ≤ c.toNat ∧ c.toNat ≤ 90 ∨ 97 ≤ c.toNat ∧ c.toNat ≤ 122 := by
  simp only [Char.isAlpha, Char.isUpper, Char.isLower, Bool.or_eq_true, Bool.and_eq_true,
    decide_eq_true_eq, ge_iff_le, UInt32.le_iff_toNat_le]
  exact Iff.rfl

theorem isWordStart_of_isDigit (h : c.isDigit = true) : isWordStart c = false := by
  have hn : 48 ≤ c.toNat ∧ c.toNat ≤ 57 := by
    simp only [Char.isDigit, Bool.and_eq_true, decide_eq_true_eq, ge_iff_le,
      UInt32.le_iff_toNat_le] at h
    exact h
  have halpha : ¬c.isAlpha = true := by
    rw [isAlpha_iff]
    omega
  have hunderscore : c ≠ '_' := by
    rintro rfl
    simp at h
  rw [isWordStart_of_ascii (by omega)]
  simp [halpha, hunderscore]

theorem isBlank_of_isWordStart (h : isWordStart c = true) : Text.isBlank c = false := by
  simp only [isWordStart, Text.isLetter, Bool.or_eq_true, beq_iff_eq] at h
  rcases h with (h | h) | rfl
  · have hn : 65 ≤ c.toNat ∧ c.toNat ≤ 122 := by
      rw [isAlpha_iff] at h
      omega
    have hr : Text.inRanges [(65, 122)] c.toNat = true := by simpa [Text.inRanges] using hn
    exact Text.not_inRanges_of_disjoint (by decide) hr
  · exact Text.not_inRanges_of_disjoint Text.tables.letters_blanks h
  · decide

theorem isWordStart_of_beyond (h : 128 ≤ c.toNat) :
    isWordStart c = Text.inRanges Text.letterRanges c.toNat := by
  have halpha : ¬c.isAlpha = true := by
    rw [isAlpha_iff]
    omega
  have hunderscore : c ≠ '_' := by
    rintro rfl
    revert h
    decide
  simp [isWordStart, Text.isLetter, halpha, hunderscore]

/-- No digit of any script begins a word. -/
theorem isWordStart_of_digit (h : Text.isDigit c = true) : isWordStart c = false := by
  have hletters : Text.Increasing Text.letterRanges := Text.increasing_rangesFrom _ _
  simp only [Text.isDigit, Bool.or_eq_true] at h
  rcases h with (h | h) | h
  · exact isWordStart_of_isDigit h
  · rw [isWordStart_of_beyond (Text.le_of_inRanges h)]
    exact Text.not_inRanges_of_passBy (Text.increasing_rangesFrom _ _) hletters
      Text.tables.decimals_letters h
  · rw [isWordStart_of_beyond (Text.le_of_inRanges h)]
    exact Text.not_inRanges_of_passBy (Text.increasing_rangesFrom _ _) hletters
      Text.tables.figures_letters h

theorem isBlank_of_isWordChar (h : isWordChar c = true) : Text.isBlank c = false := by
  simp only [isWordChar, Text.isDigit, Text.isNumeral, Bool.or_eq_true, beq_iff_eq] at h
  rcases h with ((h | (h | h) | h) | h) | rfl
  · exact isBlank_of_isWordStart (by simp [isWordStart, h])
  · have hn : Text.inRanges [(48, 57)] c.toNat = true := by
      simpa [Char.isDigit, Text.inRanges, UInt32.le_iff_toNat_le] using h
    exact Text.not_inRanges_of_disjoint (by decide) hn
  · exact Text.not_inRanges_of_disjoint Text.tables.decimals_blanks h
  · exact Text.not_inRanges_of_disjoint Text.tables.figures_blanks h
  · exact Text.not_inRanges_of_disjoint Text.tables.numerals_blanks h
  · decide

/-! ## Words -/

/-- A letter or underscore, and then characters of words. -/
def IsWord (w : String) : Prop :=
  ∃ c rest, w.toList = c :: rest ∧ isWordStart c = true ∧ ∀ d ∈ rest, isWordChar d = true

/-- A letter or underscore of ASCII, and then letters, digits and underscores of ASCII. -/
def isAsciiWord : List Char → Bool
  | [] => false
  | c :: rest => (c.isAlpha || c == '_') && rest.all fun d => d.isAlphanum || d == '_'

theorem isWord_of_isAsciiWord {w : String} (h : isAsciiWord w.toList = true) : IsWord w := by
  cases hw : w.toList with
  | nil =>
    rw [hw] at h
    cases h
  | cons c rest =>
    rw [hw, isAsciiWord, Bool.and_eq_true, List.all_eq_true] at h
    refine ⟨c, rest, hw, ?_, fun d hd => ?_⟩
    · have hc := h.1
      simp only [Bool.or_eq_true] at hc
      rcases hc with hc | hc <;> simp [isWordStart, Text.isLetter, hc]
    · have hd := h.2 d hd
      simp only [Char.isAlphanum, Bool.or_eq_true] at hd
      rcases hd with (hd | hd) | hd <;> simp [isWordChar, Text.isLetter, Text.isDigit, hd]

end DrawPlus
