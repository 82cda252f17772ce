import DrawPlus.Proofs.Numbers.Rounding
import DrawPlus.Proofs.Parsing.Forms

/-!
# Written numbers

The text of a literal number can be read again: `denoted` gives the rational number that a text with
digits, a point and an exponent stands for, and for the text of a finite double this is a number
that rounds to the double. So two literals with the same text are equal, where infinity is left
out: its text is a word.

The texts have the form of numerals: a digit, then digits and points, then perhaps an exponent
(`IsNumeral`).
-/

namespace DrawPlus

/-! ## What a written number denotes -/

/-- The number that figures denote. -/
def figures (text : List Char) : ℕ := Nat.ofDigitChars 10 text 0

theorem figures_append_replicate (text : List Char) (k : ℕ) :
    figures (text ++ List.replicate k '0') = figures text * 10 ^ k := by
  rw [figures, Nat.ofDigitChars_append, Nat.ofDigitChars_replicate_zero, mul_comm]
  rfl

theorem figures_replicate_append (text : List Char) (k : ℕ) :
    figures (List.replicate k '0' ++ text) = figures text := by
  rw [figures, Nat.ofDigitChars_append, Nat.ofDigitChars_replicate_zero, mul_zero]
  rfl

theorem figures_zero_cons (text : List Char) : figures ('0' :: text) = figures text :=
  figures_replicate_append text 1

/-- The exponent at the end of a written number. -/
def exponentOf : List Char → ℤ
  | 'e' :: '-' :: rest => -figures rest
  | 'e' :: _ :: rest => figures rest
  | _ => 0

theorem exponentOf_minus (rest : List Char) : exponentOf ('e' :: '-' :: rest) = -figures rest := rfl

theorem exponentOf_plus (rest : List Char) : exponentOf ('e' :: '+' :: rest) = figures rest := rfl

/-- The number that a text with digits, a point and an exponent denotes. -/
def denoted (text : List Char) : ℚ :=
  let significand := text.takeWhile (· != 'e')
  let whole := significand.takeWhile (· != '.')
  let fraction := (significand.dropWhile (· != '.')).tail
  figures (whole ++ fraction) * 10 ^ (exponentOf (text.dropWhile (· != 'e')) - fraction.length)

def AllDigits (text : List Char) : Prop := ∀ c ∈ text, c.isDigit = true

/-- Nothing, or a mark, a sign and figures. -/
def IsExponent (text : List Char) : Prop :=
  text = [] ∨ ∃ s rest, text = 'e' :: s :: rest ∧ (s = '+' ∨ s = '-') ∧ AllDigits rest

theorem AllDigits.ne {text : List Char} (h : AllDigits text) {c d : Char} (hc : c ∈ text)
    (hd : d.isDigit = false) : c ≠ d := by
  rintro rfl
  rw [h c hc] at hd
  cases hd

theorem takeWhile_mark {before exponent : List Char} (hb : ∀ c ∈ before, c ≠ 'e')
    (he : IsExponent exponent) :
    (before ++ exponent).takeWhile (· != 'e') = before ∧
      (before ++ exponent).dropWhile (· != 'e') = exponent := by
  have hb' : ∀ c ∈ before, (c != 'e') = true := by simpa using hb
  rw [List.takeWhile_append_of_pos hb', List.dropWhile_append_of_pos hb']
  rcases he with rfl | ⟨s, rest, rfl, -, -⟩ <;> simp

theorem denoted_whole {whole exponent : List Char} (hw : AllDigits whole)
    (he : IsExponent exponent) :
    denoted (whole ++ exponent) = figures whole * (10 : ℚ) ^ exponentOf exponent := by
  have hmark := takeWhile_mark (fun c hc => hw.ne hc rfl) he
  have hpoint : ∀ c ∈ whole, (c != '.') = true := fun c hc => by simpa using hw.ne hc rfl
  have htake : whole.takeWhile (· != '.') = whole := List.takeWhile_eq_self_iff.mpr hpoint
  have hdrop : whole.dropWhile (· != '.') = [] := List.dropWhile_eq_nil_iff.mpr hpoint
  simp only [denoted, hmark.1, hmark.2, htake, hdrop]
  simp

theorem denoted_point {whole fraction exponent : List Char} (hw : AllDigits whole)
    (hf : AllDigits fraction) (he : IsExponent exponent) :
    denoted (whole ++ '.' :: (fraction ++ exponent)) =
      figures (whole ++ fraction) * (10 : ℚ) ^ (exponentOf exponent - fraction.length) := by
  have hbefore : ∀ c ∈ whole ++ '.' :: fraction, c ≠ 'e' := by
    intro c hc
    simp only [List.mem_append, List.mem_cons] at hc
    rcases hc with hc | rfl | hc
    · exact hw.ne hc rfl
    · decide
    · exact hf.ne hc rfl
  have hmark := takeWhile_mark hbefore he
  have hpoint : ∀ c ∈ whole, (c != '.') = true := fun c hc => by simpa using hw.ne hc rfl
  have hsplit : whole ++ '.' :: (fraction ++ exponent) = whole ++ '.' :: fraction ++ exponent := by
    simp
  have htake : (whole ++ '.' :: fraction).takeWhile (· != '.') = whole := by
    rw [List.takeWhile_append_of_pos hpoint]
    simp
  have hdrop : (whole ++ '.' :: fraction).dropWhile (· != '.') = '.' :: fraction := by
    rw [List.dropWhile_append_of_pos hpoint]
    simp
  simp only [denoted, hsplit, hmark.1, hmark.2, htake, hdrop, List.tail_cons]

/-! ## The layout of a double -/

namespace Double

theorem allDigits_toDigits (n : ℕ) : AllDigits (Nat.toDigits 10 n) := fun _ hc =>
  Nat.isDigit_of_mem_toDigits (by norm_num) le_rfl hc

theorem exponentText_spec (lead : ℤ) :
    IsExponent (exponentText lead) ∧ exponentOf (exponentText lead) = lead := by
  have hfig : figures (Nat.toDigits 10 lead.natAbs) = lead.natAbs :=
    Nat.ofDigitChars_ten_toDigits
  have hall := allDigits_toDigits lead.natAbs
  have hall' : AllDigits ('0' :: Nat.toDigits 10 lead.natAbs) := by
    simpa [AllDigits] using hall
  unfold exponentText
  simp only
  by_cases hneg : lead < 0
  · rw [if_pos hneg]
    split_ifs
    · refine ⟨.inr ⟨'-', _, rfl, .inr rfl, hall'⟩, ?_⟩
      rw [exponentOf_minus, figures_zero_cons, hfig]
      omega
    · refine ⟨.inr ⟨'-', _, rfl, .inr rfl, hall⟩, ?_⟩
      rw [exponentOf_minus, hfig]
      omega
  · rw [if_neg hneg]
    split_ifs
    · refine ⟨.inr ⟨'+', _, rfl, .inl rfl, hall'⟩, ?_⟩
      rw [exponentOf_plus, figures_zero_cons, hfig]
      omega
    · refine ⟨.inr ⟨'+', _, rfl, .inl rfl, hall⟩, ?_⟩
      rw [exponentOf_plus, hfig]
      omega

/-- A layout denotes the digits at their place. -/
theorem denoted_layOut {digits : List Char} (h : AllDigits digits) (hne : digits ≠ []) (lead : ℤ) :
    denoted (layOut digits lead) = figures digits * (10 : ℚ) ^ (lead + 1 - digits.length) := by
  have hnil : IsExponent [] := .inl rfl
  have hzeros (k : ℕ) : AllDigits (List.replicate k '0') := fun c hc => by
    rw [List.eq_of_mem_replicate hc]
    rfl
  unfold layOut
  split_ifs with hpos hneg
  · have hall : AllDigits (List.replicate (-lead - 1).toNat '0' ++ digits) := fun c hc => by
      rcases List.mem_append.mp hc with hc | hc
      · exact hzeros _ c hc
      · exact h c hc
    have hp := denoted_point (hzeros 1) hall hnil
    rw [List.append_nil] at hp
    change denoted (List.replicate 1 '0' ++ '.' :: _) = _
    rw [hp, figures_replicate_append, figures_replicate_append]
    congr 2
    simp only [exponentOf, List.length_append, List.length_replicate]
    omega
  · simp only
    split_ifs with hlen
    · have hall : AllDigits (digits ++ List.replicate (lead.toNat + 1 - digits.length) '0') := by
        intro c hc
        rcases List.mem_append.mp hc with hc | hc
        · exact h c hc
        · exact hzeros _ c hc
      have hp := denoted_point hall (hzeros 1) hnil
      rw [List.append_nil] at hp
      change denoted (_ ++ '.' :: List.replicate 1 '0') = _
      rw [hp, figures_append_replicate, figures_append_replicate]
      simp only [exponentOf, List.length_replicate]
      have hone : (10 : ℚ) ^ 1 * 10 ^ ((0 : ℤ) - ((1 : ℕ) : ℤ)) = 1 := by norm_num
      rw [Nat.cast_mul, Nat.cast_mul, Nat.cast_pow, Nat.cast_pow, Nat.cast_ofNat, mul_assoc, hone,
        mul_one, ← zpow_natCast]
      congr 2
      omega
    · have htake : AllDigits (digits.take (lead.toNat + 1)) := fun c hc =>
        h c (List.mem_of_mem_take hc)
      have hdrop : AllDigits (digits.drop (lead.toNat + 1)) := fun c hc =>
        h c (List.mem_of_mem_drop hc)
      have hp := denoted_point htake hdrop hnil
      rw [List.append_nil] at hp
      rw [hp, List.take_append_drop]
      congr 2
      simp only [exponentOf, List.length_drop]
      omega
  · obtain ⟨he, hv⟩ := exponentText_spec lead
    match digits, hne with
    | [d], _ =>
      have hp := denoted_whole h he
      simp only [List.singleton_append] at hp
      simp only [hp, hv, List.length_singleton]
      congr 2
      omega
    | d :: d' :: rest, _ =>
      have hd : AllDigits [d] := fun c hc => h c (by simp_all)
      have hrest : AllDigits (d' :: rest) := fun c hc => h c (List.mem_cons_of_mem d hc)
      have hp := denoted_point hd hrest he
      simp only [List.singleton_append] at hp
      simp only [hp, hv, List.length_cons]
      congr 2
      push_cast
      omega

theorem normal_spec {x : Decimal} (hx : 0 < x.digits) :
    AllDigits x.normal.1 ∧ x.normal.1 ≠ [] ∧
      (figures x.normal.1 : ℚ) * 10 ^ x.normal.2 = x.digits * 10 ^ x.exponent := by
  set digits := Nat.toDigits 10 x.digits with hdigits
  set kept := (digits.reverse.dropWhile (· == '0')).reverse with hkept
  set zeros := digits.reverse.takeWhile (· == '0') with hzeros
  have hsplit : digits = kept ++ List.replicate zeros.length '0' := by
    have hz : zeros = List.replicate zeros.length '0' :=
      List.eq_replicate_iff.mpr ⟨rfl, fun c hc => by simpa using List.mem_takeWhile_imp hc⟩
    have hr := congrArg List.reverse
      (List.takeWhile_append_dropWhile (p := (· == '0')) (l := digits.reverse))
    rw [← hzeros, hz, List.reverse_append, List.reverse_reverse, List.reverse_replicate] at hr
    exact hr.symm
  have hfig : figures digits = x.digits := Nat.ofDigitChars_ten_toDigits
  have hvalue : figures kept * 10 ^ zeros.length = x.digits := by
    rw [← hfig, hsplit, figures_append_replicate]
  have hplace : x.normal.2 = x.exponent + zeros.length := by
    have hlen := congrArg List.length hsplit
    rw [List.length_append, List.length_replicate] at hlen
    change x.exponent + (digits.length - kept.length : ℕ) = _
    omega
  refine ⟨fun c hc => ?_, fun hnil => ?_, ?_⟩
  · exact allDigits_toDigits x.digits c (by rw [← hdigits, hsplit]; exact List.mem_append_left _ hc)
  · have : figures kept = 0 := congrArg figures hnil
    rw [this, zero_mul] at hvalue
    omega
  · rw [hplace, zpow_add₀ (by norm_num), ← hvalue]
    change (figures kept : ℚ) * _ = _
    push_cast
    rw [zpow_natCast]
    ring

/-- A number that rounds to a double that is not zero is not zero. -/
theorem Rounding.Holds.pos {m : ℕ} {e : ℤ} {q : ℚ} (hm : 0 < m) (h : (rounding m e).Holds q) :
    0 < q := by
  have hlow : 0 < (rounding m e).low := by
    rw [low_rounding]
    split_ifs <;> omega
  have : (0 : ℚ) < (rounding m e).low * (rounding m e).quarter :=
    mul_pos (by exact_mod_cast hlow) (rounding m e).quarter_pos
  exact this.trans_le h.bounds.1

/-- A finite double that is not zero is laid out by digits that round to it. -/
theorem magnitudeText_spec {x : Double} {m : ℕ} {e : ℤ} (h : x.magnitude = .finite m e)
    (hm : 0 < m) : ∃ digits lead, AllDigits digits ∧ digits ≠ [] ∧
      x.magnitudeText = layOut digits lead ∧
      (rounding m e).Holds (figures digits * (10 : ℚ) ^ (lead + 1 - digits.length)) := by
  obtain ⟨y, hy⟩ := Option.ne_none_iff_exists'.mp (shortest?_ne_none (isFinite_of_magnitude h) hm)
  have hholds : (rounding m e).Holds (y.digits * (10 : ℚ) ^ y.exponent) :=
    Rounding.holds_of_search hy
  have hpos : 0 < y.digits := by
    by_contra! hc
    have hq := hholds.pos hm
    rw [show y.digits = 0 by omega, Nat.cast_zero, zero_mul] at hq
    exact lt_irrefl 0 hq
  obtain ⟨hall, hne, hvalue⟩ := normal_spec hpos
  refine ⟨y.normal.1, y.normal.2 + y.normal.1.length - 1, hall, hne, ?_, ?_⟩
  · unfold magnitudeText
    rw [h]
    simp only [hm.ne', if_false, hy]
  · rw [show y.normal.2 + y.normal.1.length - 1 + 1 - y.normal.1.length = y.normal.2 by ring,
      hvalue]
    exact hholds

theorem text_of_isMeasure {x : Double} (h : x.IsMeasure) : x.text.toList = x.magnitudeText := by
  simp [text, h.1]

theorem magnitudeText_zero {x : Double} {e : ℤ} (h : x.magnitude = .finite 0 e) :
    x.magnitudeText = ['0', '.', '0'] := by
  unfold magnitudeText
  rw [h]
  rfl

theorem exponent_of_zero {x : Double} {e : ℤ} (h : x.magnitude = .finite 0 e) : e = -1074 := by
  have := (isFinite_of_magnitude h).normal
  omega

theorem denoted_zero : denoted ['0', '.', '0'] = 0 := by
  have h : AllDigits ['0'] := by simp [AllDigits]
  have := denoted_point h h (.inl rfl)
  simp only [List.append_nil, List.singleton_append] at this
  rw [this]
  simp [figures, Nat.ofDigitChars]

theorem eq_of_magnitudeText {x y : Double} {m m' : ℕ} {e e' : ℤ} (hx : x.isNegative = false)
    (hy : y.isNegative = false) (h : x.magnitude = .finite m e) (h' : y.magnitude = .finite m' e')
    (ht : x.magnitudeText = y.magnitudeText) : x = y := by
  rcases Nat.eq_zero_or_pos m with rfl | hm
  · rcases Nat.eq_zero_or_pos m' with rfl | hm'
    · obtain rfl := exponent_of_zero h
      obtain rfl := exponent_of_zero h'
      exact eq_of_magnitude hx hy h h'
    · obtain ⟨digits, lead, hall, hne, hlay, hq⟩ := magnitudeText_spec h' hm'
      rw [← denoted_layOut hall hne, ← hlay, ← ht, magnitudeText_zero h, denoted_zero] at hq
      exact absurd (hq.pos hm') (lt_irrefl 0)
  · obtain ⟨digits, lead, hall, hne, hlay, hq⟩ := magnitudeText_spec h hm
    rw [← denoted_layOut hall hne, ← hlay, ht] at hq
    rcases Nat.eq_zero_or_pos m' with rfl | hm'
    · rw [magnitudeText_zero h', denoted_zero] at hq
      exact absurd (hq.pos hm) (lt_irrefl 0)
    · obtain ⟨digits', lead', hall', hne', hlay', hq'⟩ := magnitudeText_spec h' hm'
      rw [← denoted_layOut hall' hne', ← hlay'] at hq'
      obtain ⟨rfl, rfl⟩ := eq_of_holds (isFinite_of_magnitude h) (isFinite_of_magnitude h') hq hq'
      exact eq_of_magnitude hx hy h h'

end Double

/-! ## The form of a written number -/

/-- A digit, digits and points, and perhaps an exponent. -/
def IsNumeral (text : List Char) : Prop :=
  ∃ d body exponent, text = d :: (body ++ exponent) ∧ d.isDigit = true ∧
    (∀ c ∈ body, c.isDigit = true ∨ c = '.') ∧ IsExponent exponent

theorem isNumeral_of_allDigits {text : List Char} (h : AllDigits text) (hne : text ≠ []) :
    IsNumeral text := by
  obtain ⟨d, body, rfl⟩ := List.exists_cons_of_ne_nil hne
  exact ⟨d, body, [], by simp, h d (by simp), fun c hc => .inl (h c (by simp [hc])), .inl rfl⟩

/-- A layout is a numeral and does not consist of digits alone. -/
theorem isNumeral_layOut {digits : List Char} (h : AllDigits digits) (hne : digits ≠ [])
    (lead : ℤ) :
    IsNumeral (Double.layOut digits lead) ∧ ¬AllDigits (Double.layOut digits lead) := by
  have hpoint {text : List Char} (hmem : '.' ∈ text) : ¬AllDigits text := fun hall =>
    absurd (hall '.' hmem) (by decide)
  have hmark {text : List Char} (hmem : 'e' ∈ text) : ¬AllDigits text := fun hall =>
    absurd (hall 'e' hmem) (by decide)
  obtain ⟨d, rest, rfl⟩ := List.exists_cons_of_ne_nil hne
  have hd : d.isDigit = true := h d (by simp)
  have hrest : ∀ c ∈ rest, c.isDigit = true := fun c hc => h c (by simp [hc])
  unfold Double.layOut
  split_ifs with hpos hneg
  · refine ⟨⟨'0', '.' :: (List.replicate (-lead - 1).toNat '0' ++ d :: rest), [], by simp, rfl, ?_,
      .inl rfl⟩, hpoint (by simp)⟩
    intro c hc
    simp only [List.mem_cons, List.mem_append, List.mem_replicate] at hc
    rcases hc with rfl | ⟨-, rfl⟩ | rfl | hc
    · exact .inr rfl
    · exact .inl rfl
    · exact .inl hd
    · exact .inl (hrest c hc)
  · simp only
    split_ifs with hlen
    · refine ⟨⟨d, rest ++ List.replicate (lead.toNat + 1 - (d :: rest).length) '0' ++ ['.', '0'],
        [], by simp, hd, ?_, .inl rfl⟩, hpoint (by simp)⟩
      intro c hc
      simp only [List.mem_cons, List.mem_append, List.mem_replicate, List.not_mem_nil,
        or_false] at hc
      rcases hc with (hc | ⟨-, rfl⟩) | rfl | rfl
      · exact .inl (hrest c hc)
      · exact .inl rfl
      · exact .inr rfl
      · exact .inl rfl
    · refine ⟨⟨d, rest.take lead.toNat ++ '.' :: rest.drop lead.toNat, [], by simp, hd, ?_,
        .inl rfl⟩, hpoint (by simp)⟩
      intro c hc
      simp only [List.mem_cons, List.mem_append] at hc
      rcases hc with hc | rfl | hc
      · exact .inl (hrest c (List.mem_of_mem_take hc))
      · exact .inr rfl
      · exact .inl (hrest c (List.mem_of_mem_drop hc))
  · obtain ⟨he, -⟩ := Double.exponentText_spec lead
    have hemem : 'e' ∈ Double.exponentText lead := by simp [Double.exponentText]
    cases rest with
    | nil => exact ⟨⟨d, [], _, rfl, hd, by simp, he⟩, hmark (List.mem_cons_of_mem d hemem)⟩
    | cons d' rest =>
      refine ⟨⟨d, '.' :: d' :: rest, _, by simp, hd, ?_, he⟩, hpoint (by simp)⟩
      intro c hc
      rcases List.mem_cons.mp hc with rfl | hc
      · exact .inr rfl
      · exact .inl (hrest c hc)

/-! ## Literals -/

namespace Value

def isFinite : Value → Bool
  | .double x => x.magnitude != .infinite
  | _ => true

theorem finite_of_isFinite {x : Double} (h : x.IsMeasure) (hf : isFinite (.double x) = true) :
    ∃ m e, x.magnitude = .finite m e := by
  cases hx : x.magnitude with
  | finite m e => exact ⟨m, e, rfl⟩
  | infinite => simp [isFinite, hx] at hf
  | undefined => exact absurd hx h.2

theorem display_int (n : ℕ) : (display (.int n)).toList = Nat.toDigits 10 n := by
  change (toString (n : ℤ)).toList = _
  rw [show toString (n : ℤ) = String.ofList (Nat.toDigits 10 n) from rfl, String.toList_ofList]

theorem allDigits_display_int (n : ℕ) : AllDigits (display (.int n)).toList := by
  rw [display_int]
  exact Double.allDigits_toDigits n

theorem display_double_form {x : Double} (h : x.IsMeasure)
    (hf : isFinite (.double x) = true) :
    IsNumeral (display (.double x)).toList ∧ ¬AllDigits (display (.double x)).toList := by
  obtain ⟨m, e, hx⟩ := finite_of_isFinite h hf
  change IsNumeral x.text.toList ∧ ¬AllDigits x.text.toList
  rw [Double.text_of_isMeasure h]
  rcases Nat.eq_zero_or_pos m with rfl | hm
  · rw [Double.magnitudeText_zero hx]
    have h0 : AllDigits ['0'] := by simp [AllDigits]
    exact isNumeral_layOut h0 (by simp) 0
  · obtain ⟨digits, lead, hall, hne, hlay, -⟩ := Double.magnitudeText_spec hx hm
    rw [hlay]
    exact isNumeral_layOut hall hne lead

theorem isNumeral_display {v : Value} (h : v.IsLiteral) (hf : v.isFinite = true) :
    IsNumeral v.display.toList := by
  cases h with
  | int n =>
    refine isNumeral_of_allDigits (allDigits_display_int n) ?_
    rw [display_int]
    exact Nat.toDigits_ne_nil
  | double hx => exact (display_double_form hx hf).1

theorem display_of_infinite {v : Value} (h : v.IsLiteral) (hf : v.isFinite = false) :
    v.display = "inf" := by
  cases h with
  | int n => cases hf
  | @double x hx =>
    have hm : x.magnitude = .infinite := by simpa [isFinite] using hf
    apply String.toList_inj.mp
    change x.text.toList = _
    rw [Double.text_of_isMeasure hx, Double.magnitudeText, hm]
    rfl

theorem eq_of_display {v w : Value} (hv : v.IsLiteral) (hw : w.IsLiteral)
    (hfv : v.isFinite = true) (hfw : w.isFinite = true) (h : v.display = w.display) : v = w := by
  have hl : v.display.toList = w.display.toList := congrArg String.toList h
  cases hv with
  | int n =>
    cases hw with
    | int k =>
      rw [display_int, display_int] at hl
      have := congrArg figures hl
      unfold figures at this
      rw [Nat.ofDigitChars_ten_toDigits, Nat.ofDigitChars_ten_toDigits] at this
      rw [this]
    | double hy => exact absurd (hl ▸ allDigits_display_int n) (display_double_form hy hfw).2
  | @double x hx =>
    cases hw with
    | int k => exact absurd (hl.symm ▸ allDigits_display_int k) (display_double_form hx hfv).2
    | @double y hy =>
      obtain ⟨m, e, hm⟩ := finite_of_isFinite hx hfv
      obtain ⟨m', e', hm'⟩ := finite_of_isFinite hy hfw
      change x.text.toList = y.text.toList at hl
      rw [Double.text_of_isMeasure hx, Double.text_of_isMeasure hy] at hl
      rw [Double.eq_of_magnitudeText hx.1 hy.1 hm hm' hl]

end Value

end DrawPlus
