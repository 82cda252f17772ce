import DrawPlus.Proofs.Diagnosis.Phrases
import DrawPlus.Proofs.Scanning.Rendering

/-!
# The line that a message names

The line is found again in the wording of a message, at the first occurrence of a phrase. Where that
is can be told without the whole message. A character that the phrase does not have is a fence: the
phrase occurs on the one side of it or on the other (`afterPhrase?_fence`). Without a fence the
phrase must not begin before the place where it is written (`afterPhrase?_first`).

A number that is written after the phrase is read back, unless it has too many digits, and then the
first line is named (`asNamed`).
-/

namespace DrawPlus

namespace Text

/-! ## The first occurrence of a phrase -/

variable {phrase text before after : List Char} {c : Char}

theorem cut?_eq_none_iff : cut? phrase text = none ↔ ¬phrase <:+: text := by
  induction text with
  | nil => simp [cut?]
  | cons c text ih =>
    rw [cut?, List.infix_cons_iff, not_or, ← ih, ← List.isPrefixOf_iff_prefix]
    split_ifs with hstarts <;> simp [hstarts]

theorem hasPhrase_eq_false_iff : hasPhrase phrase text = false ↔ ¬phrase <:+: text := by
  rw [hasPhrase, Option.isSome_eq_false_iff, Option.isNone_iff_eq_none, cut?_eq_none_iff]

theorem afterPhrase?_eq : afterPhrase? phrase text =
    (cut? phrase text).map fun cut => (cut? phrase cut.2).elim cut.2 Prod.fst := by
  unfold afterPhrase?
  cases cut? phrase text with
  | none => rfl
  | some cut => cases hnext : cut? phrase cut.2 <;> simp [hnext]

theorem afterPhrase?_eq_none_iff : afterPhrase? phrase text = none ↔ ¬phrase <:+: text := by
  rw [afterPhrase?, Option.map_eq_none_iff, cut?_eq_none_iff]

theorem not_infix_of_notMem (hc : c ∈ phrase) (h : c ∉ text) : ¬phrase <:+: text :=
  fun hoccurs => h (hoccurs.subset hc)

theorem prefix_of_prefix_fence (hc : c ∉ phrase) (h : phrase <+: before ++ c :: after) :
    phrase <+: before := by
  refine List.prefix_of_prefix_length_le h (List.prefix_append before _) ?_
  by_contra hlong
  obtain ⟨tail, htail⟩ := h
  have hleft : (phrase ++ tail)[before.length]? = phrase[before.length]? :=
    List.getElem?_append_left (by omega)
  have hget : phrase[before.length]? = some c := by
    rw [← hleft, htail]
    simp
  exact hc (List.mem_of_getElem? hget)

theorem infix_fence (hc : c ∉ phrase) :
    phrase <:+: before ++ c :: after ↔ phrase <:+: before ∨ phrase <:+: after := by
  constructor
  · intro h
    induction before with
    | nil =>
      rcases List.infix_cons_iff.mp h with hstarts | hoccurs
      · exact .inl (prefix_of_prefix_fence hc hstarts).isInfix
      · exact .inr hoccurs
    | cons d before ih =>
      rcases List.infix_cons_iff.mp h with hstarts | hoccurs
      · exact .inl (@prefix_of_prefix_fence _ (d :: before) after c hc hstarts).isInfix
      · exact (ih hoccurs).imp_left List.infix_cons
  · rintro (h | h)
    · exact h.trans (List.prefix_append before _).isInfix
    · exact h.trans ⟨before ++ [c], [], by simp⟩

theorem prefix_around {p q : List Char} (hp : c ∉ p) (hq : c ∉ q)
    (h : p ++ c :: q <+: before ++ c :: after) :
    p ++ c :: q <+: before ∨ p = before ∧ q <+: after := by
  obtain ⟨tail, htail⟩ := h
  rw [List.append_assoc, List.append_eq_append_iff] at htail
  rcases htail with ⟨m, rfl, htail⟩ | ⟨m, rfl, htail⟩
  · cases m with
    | nil => exact .inr ⟨by simp, tail, (List.cons.inj htail).2⟩
    | cons d m =>
      obtain ⟨rfl, hrest⟩ := List.cons.inj htail
      obtain ⟨rest, rfl⟩ : q <+: m := prefix_of_prefix_fence hq ⟨tail, hrest⟩
      exact .inl ⟨rest, by simp⟩
  · cases m with
    | nil => exact .inr ⟨by simp, tail, (List.cons.inj htail).2.symm⟩
    | cons d m =>
      obtain ⟨rfl, -⟩ := List.cons.inj htail
      exact absurd (by simp) hp

/-- A phrase that has the fence once occurs on one side of it, or around it. -/
theorem infix_around {p q : List Char} (hp : c ∉ p) (hq : c ∉ q)
    (h : p ++ c :: q <:+: before ++ c :: after) :
    p ++ c :: q <:+: before ∨ p ++ c :: q <:+: after ∨ p <:+ before ∧ q <+: after := by
  obtain ⟨left, right, htext⟩ := h
  rw [List.append_assoc, List.append_eq_append_iff] at htext
  rcases htext with ⟨m, rfl, htext⟩ | ⟨m, rfl, htext⟩
  · rcases prefix_around hp hq ⟨right, htext⟩ with hstarts | ⟨rfl, hafter⟩
    · exact .inl (hstarts.isInfix.trans (List.suffix_append left m).isInfix)
    · exact .inr (.inr ⟨List.suffix_append left p, hafter⟩)
  · cases m with
    | nil =>
      rcases @prefix_around [] after c p q hp hq ⟨right, htext.symm⟩ with hstarts | ⟨rfl, hafter⟩
      · exact .inl (hstarts.isInfix.trans List.nil_infix)
      · exact .inr (.inr ⟨List.nil_suffix, hafter⟩)
    | cons d m =>
      exact .inr (.inl ⟨m, right, by rw [List.append_assoc, (List.cons.inj htext).2]; rfl⟩)

/-- A phrase that does not occur before a character that it does not have is looked for behind
it. -/
theorem cut?_fence (hc : c ∉ phrase) (hbefore : ¬phrase <:+: before) (after : List Char) :
    cut? phrase (before ++ c :: after) =
      (cut? phrase after).map fun cut => (before ++ c :: cut.1, cut.2) := by
  induction before with
  | nil =>
    have hstarts : ¬phrase <+: c :: after := fun h =>
      hbefore (@prefix_of_prefix_fence _ [] after c hc h).isInfix
    simp [cut?, hstarts]
  | cons d before ih =>
    have hstarts : ¬phrase <+: d :: (before ++ c :: after) := fun h =>
      hbefore (@prefix_of_prefix_fence _ (d :: before) after c hc h).isInfix
    have hrest := ih fun h => hbefore (List.infix_cons h)
    simp [cut?, hstarts, hrest, Function.comp_def]

theorem afterPhrase?_fence (hc : c ∉ phrase) (hbefore : ¬phrase <:+: before) (after : List Char) :
    afterPhrase? phrase (before ++ c :: after) = afterPhrase? phrase after := by
  rw [afterPhrase?, cut?_fence hc hbefore, Option.map_map]
  rfl

/-- A phrase occurs first where it is written, if it occurs nowhere before the last character of
it. -/
theorem cut?_first (h : ¬phrase <:+: before ++ phrase.dropLast) (after : List Char) :
    cut? phrase (before ++ phrase ++ after) = some (before, after) := by
  induction before with
  | nil =>
    cases hphrase : phrase with
    | nil => simp [hphrase] at h
    | cons c rest => simp [cut?]
  | cons d before ih =>
    have hstarts : ¬phrase <+: d :: (before ++ phrase ++ after) := by
      intro hstarts
      refine h (List.IsPrefix.isInfix ?_)
      refine List.prefix_of_prefix_length_le hstarts
        ⟨phrase.drop (phrase.length - 1) ++ after, ?_⟩ ?_
      · simp [List.dropLast_eq_take, ← List.append_assoc (List.take _ _)]
      · simp
        omega
    have hrest := ih fun hoccurs => h (List.infix_cons hoccurs)
    simp only [List.append_assoc] at hstarts hrest
    simp [cut?, hstarts, hrest]

theorem not_infix_of_cut? (hne : phrase ≠ []) (h : cut? phrase text = some (before, after)) :
    ¬phrase <:+: before ++ phrase.dropLast := by
  induction text generalizing before with
  | nil => simp [cut?, hne] at h
  | cons c rest ih =>
    have happend := append_of_cut? h
    unfold cut? at h
    split_ifs at h with hstarts
    · cases h
      intro hoccurs
      have hlength := hoccurs.length_le
      have hpos := List.length_pos_of_ne_nil hne
      simp at hlength
      omega
    · obtain ⟨⟨front, back⟩, hcut, heq⟩ := Option.map_eq_some_iff.mp h
      cases heq
      rw [List.cons_append, List.infix_cons_iff]
      refine not_or.mpr ⟨fun hbegins => hstarts (List.isPrefixOf_iff_prefix.mpr ?_), ih hcut⟩
      obtain ⟨last, hlast⟩ := List.dropLast_prefix phrase
      refine hbegins.trans ⟨last ++ after, ?_⟩
      rw [happend]
      conv_rhs => rw [← hlast]
      simp

theorem afterPhrase?_first (h : ¬phrase <:+: before ++ phrase.dropLast)
    (hafter : ¬phrase <:+: after) :
    afterPhrase? phrase (before ++ phrase ++ after) = some after := by
  simp only [afterPhrase?, cut?_first h, Option.map_some, cut?_eq_none_iff.mpr hafter]

/-! ## Words and digits -/

theorem fieldsFrom_append {word : List Char} (h : ∀ c ∈ word, isBlank c = false)
    (field rest : List Char) :
    fieldsFrom field (word ++ rest) = fieldsFrom (field ++ word) rest := by
  induction word generalizing field with
  | nil => simp
  | cons c word ih =>
    rw [List.forall_mem_cons] at h
    rw [List.cons_append, fieldsFrom, h.1, if_neg (by simp), ih h.2]
    simp

theorem isDigit_of_decimalValue? {v : ℕ} (h : decimalValue? c = some v) : isDigit c = true := by
  unfold decimalValue? at h
  split_ifs at h with hd
  · simp [isDigit, hd]
  · obtain ⟨r, hr, -⟩ := Option.map_eq_some_iff.mp h
    unfold rangeOf? at hr
    have := List.find?_some hr
    have hm := List.mem_of_find?_eq_some hr
    have hin : inRanges decimalRanges c.toNat = true := by
      rw [inRanges, List.any_eq_true]
      exact ⟨r, hm, this⟩
    simp [isDigit, hin]
end Text

/-! ## Numbers in messages -/

namespace Numeral

theorem isMargin_of_digit {c : Char} (h : Text.isDigit c = true) : isMargin c = false := by
  simp [isMargin, isBlank_of_isWordChar (Scan.isWordChar_of_digit h)]

theorem withoutMargins_of_digits {d : List Char} (h : ∀ c ∈ d, Text.isDigit c = true) :
    withoutMargins d = d := by
  have hdrop : ∀ l : List Char, (∀ c ∈ l, Text.isDigit c = true) → l.dropWhile isMargin = l := by
    intro l hl
    cases l with
    | nil => rfl
    | cons c l => rw [List.dropWhile_cons_of_neg (by simp [isMargin_of_digit (hl c (by simp))])]
  rw [withoutMargins, hdrop d h, hdrop d.reverse (by simpa using h), List.reverse_reverse]

theorem leadingDigits_of_some {c : Char} {v : ℕ} (h : Text.decimalValue? c = some v)
    (d : List Char) :
    leadingDigits (c :: d) = v :: leadingDigits d := by
  rw [leadingDigits, h]

theorem leadingDigits_of_none {c : Char} (h : Text.decimalValue? c = none) (d : List Char) :
    leadingDigits (c :: d) = [] := by
  rw [leadingDigits, h]

theorem length_leadingDigits_le (d : List Char) : (leadingDigits d).length ≤ d.length := by
  induction d with
  | nil => simp [leadingDigits]
  | cons c d ih =>
    cases hc : Text.decimalValue? c with
    | none => simp [leadingDigits_of_none hc]
    | some v => simpa [leadingDigits_of_some hc] using ih

theorem separatedDigits_cons {c e : Char} {d : List Char} (he : e ≠ '_') :
    separatedDigits (c :: e :: d) =
      (Text.decimalValue? c).bind fun v => (separatedDigits (e :: d)).map (v :: ·) := by
  rw [separatedDigits]
  · cases Text.decimalValue? c <;> cases separatedDigits (e :: d) <;> rfl
  · simp
  · intro rest heq
    exact he (List.cons.inj heq).1

theorem separatedDigits_of_digits {c : Char} {d : List Char}
    (h : ∀ e ∈ c :: d, Text.isDigit e = true) : separatedDigits (c :: d) =
      if (leadingDigits (c :: d)).length = d.length + 1 then some (leadingDigits (c :: d))
      else none := by
  induction d generalizing c with
  | nil =>
    rw [separatedDigits, leadingDigits]
    cases Text.decimalValue? c <;> rfl
  | cons e d ih =>
    have he : e ≠ '_' := by
      rintro rfl
      have hdigit := h '_' (by simp)
      simp [Text.isDigit_of_ascii] at hdigit
    rw [separatedDigits_cons he, ih fun x hx => h x (List.mem_cons_of_mem c hx)]
    cases hc : Text.decimalValue? c with
    | none => simp [leadingDigits_of_none hc]
    | some v =>
      by_cases hall : (leadingDigits (e :: d)).length = d.length + 1 <;>
        simp [leadingDigits_of_some hc, hall]

theorem integer?_of_digits {d : List Char} (h : ∀ c ∈ d, Text.isDigit c = true) :
    integer? d = (natural d).toOption.map fun n => (n : Int) := by
  cases d with
  | nil => rfl
  | cons c d =>
    have hsign : c ≠ '-' ∧ c ≠ '+' := by
      have hdigit := h c (by simp)
      constructor <;> rintro rfl <;> simp [Text.isDigit_of_ascii] at hdigit
    have hle := length_leadingDigits_le (c :: d)
    unfold integer?
    simp only [withoutMargins_of_digits h]
    split
    case h_1 hminus => exact absurd (List.cons.inj hminus).1 hsign.1
    case h_2 hplus => exact absurd (List.cons.inj hplus).1 hsign.2
    case h_3 =>
      rw [separatedDigits_of_digits h]
      unfold natural
      dsimp only
      generalize leadingDigits (c :: d) = ds at hle ⊢
      rw [List.length_cons] at hle ⊢
      by_cases hall : ds.length = d.length + 1
      · have hne : ds ≠ [] := List.ne_nil_of_length_eq_add_one hall
        have hfull : ¬ds.length < d.length + 1 := by omega
        rw [if_pos hall]
        by_cases hlong : maxIntegerDigits < ds.length <;>
          simp [hlong, hfull, hne, Except.toOption]
      · have hless : ds.length < d.length + 1 := by omega
        rw [if_neg hall]
        by_cases hlong : maxIntegerDigits < ds.length <;> simp [hlong, hless, Except.toOption]

theorem natural_toDigits_of_le {n : ℕ} (h : 10 ^ maxIntegerDigits ≤ n) :
    (natural (Nat.toDigits 10 n)).toOption = none := by
  have hlong : maxIntegerDigits < (Nat.toDigits 10 n).length := by
    by_contra hshort
    have hlt := (Nat.length_toDigits_le_iff (by norm_num) (by norm_num [maxIntegerDigits])).mp
      (Nat.not_lt.mp hshort)
    omega
  have hdigits := leadingDigits_of_allDigits (Double.allDigits_toDigits n)
  simp [natural, hdigits, hlong, Except.toOption]

end Numeral

namespace Diagnosis

open Text

/-- The line that is found where a number is written. A number with too many digits is not read. -/
def asNamed (n : ℕ) : Int := if n < 10 ^ maxIntegerDigits then n else 1

theorem isDigit_toDigits (n : ℕ) : ∀ c ∈ Nat.toDigits 10 n, Text.isDigit c = true := fun c hc => by
  simp [Text.isDigit, Double.allDigits_toDigits n c hc]

theorem getD_integer?_toDigits (n : ℕ) :
    (Numeral.integer? (Nat.toDigits 10 n)).getD 1 = asNamed n := by
  rw [Numeral.integer?_of_digits (isDigit_toDigits n), asNamed]
  split_ifs with h
  · rw [Numeral.natural_toDigits h]
    rfl
  · rw [Numeral.natural_toDigits_of_le (Nat.not_lt.mp h)]
    rfl

theorem notMem_toDigits {c : Char} (hc : c.isDigit = false) (n : ℕ) : c ∉ Nat.toDigits 10 n := by
  intro hmem
  rw [Double.allDigits_toDigits n c hmem] at hc
  cases hc

theorem beforeComma_toDigits (n : ℕ) (rest : List Char) :
    beforeComma (Nat.toDigits 10 n ++ ',' :: rest) = Nat.toDigits 10 n := by
  have hcomma : ∀ c ∈ Nat.toDigits 10 n, (c != ',') = true := by
    intro c hc
    simpa using ne_of_mem_of_not_mem hc (notMem_toDigits (by decide) n)
  rw [beforeComma, List.takeWhile_append_of_pos hcomma]
  simp

theorem trim_of_unblank {text : List Char} (h : ∀ c ∈ text, isBlank c = false) :
    trim text = text := by
  have hdrop : ∀ l : List Char, (∀ c ∈ l, isBlank c = false) → l.dropWhile isBlank = l := by
    intro l hl
    cases l with
    | nil => rfl
    | cons c l => rw [List.dropWhile_cons_of_neg (by simp [hl c (by simp)])]
  rw [trim, trimLeft, trimRight, hdrop text h, hdrop text.reverse (by simpa using h),
    List.reverse_reverse]

theorem isBlank_toDigits (n : ℕ) : ∀ c ∈ Nat.toDigits 10 n, isBlank c = false := fun c hc =>
  isBlank_of_isWordChar (Scan.isWordChar_of_digit (isDigit_toDigits n c hc))

/-! ## How a line is named -/

variable {message rest : List Char} {n : ℕ}

theorem namedLine_of_at (h : afterPhrase? "at line".toList message =
    some (' ' :: (Nat.toDigits 10 n ++ ',' :: rest))) : namedLine message = asNamed n := by
  have hcut :
      beforeComma (' ' :: (Nat.toDigits 10 n ++ ',' :: rest)) = ' ' :: Nat.toDigits 10 n := by
    have hdigits := beforeComma_toDigits n rest
    rw [beforeComma] at hdigits ⊢
    rw [List.takeWhile_cons_of_pos (by decide), hdigits]
  have htrim : trim (' ' :: Nat.toDigits 10 n) = Nat.toDigits 10 n := by
    rw [trim, trimLeft, List.dropWhile_cons_of_pos (by decide)]
    exact trim_of_unblank (isBlank_toDigits n)
  simp only [namedLine, h, hcut, htrim, getD_integer?_toDigits]

theorem namedLine_of_equals (hat : ¬"at line".toList <:+: message)
    (h : afterPhrase? "line=".toList message = some (Nat.toDigits 10 n ++ ',' :: rest)) :
    namedLine message = asNamed n := by
  simp only [namedLine, afterPhrase?_eq_none_iff.mpr hat, h, beforeComma_toDigits,
    getD_integer?_toDigits]

/-- Otherwise the first number after the word is taken. -/
theorem namedLine_of_word (hat : ¬"at line".toList <:+: message)
    (hequals : ¬"line=".toList <:+: message) : namedLine message =
      ((afterPhrase? "line".toList message).bind fun rest =>
        (digitField? (fields rest)).bind Numeral.integer?).getD 1 := by
  simp only [namedLine, afterPhrase?_eq_none_iff.mpr hat, afterPhrase?_eq_none_iff.mpr hequals]
  rfl

/-- A message that does not speak of a line names the first one. -/
theorem namedLine_of_not_infix (h : ¬"line".toList <:+: message) : namedLine message = 1 := by
  have hat : ¬"at line".toList <:+: message := fun hoccurs =>
    h (List.IsInfix.trans ⟨"at ".toList, [], rfl⟩ hoccurs)
  have hequals : ¬"line=".toList <:+: message := fun hoccurs =>
    h (List.IsInfix.trans ⟨[], "=".toList, rfl⟩ hoccurs)
  rw [namedLine_of_word hat hequals, afterPhrase?_eq_none_iff.mpr h]
  rfl

/-- A message that does not miss a semicolon is about the line that it names. -/
theorem lineOf_of_not_infix (hmissing : ¬"Missing semicolon".toList <:+: message)
    (hexpected : ¬"Expected TokenType.SEMICOLON".toList <:+: message) (code : List Char) :
    lineOf message code = namedLine message := by
  have hmisses : missesSemicolon message = false := by
    rw [missesSemicolon, hasPhrase_eq_false_iff.mpr hmissing, hasPhrase_eq_false_iff.mpr hexpected]
    rfl
  simp [lineOf, hmisses]

theorem lineOf_of_first (h : namedLine message = 1) (code : List Char) :
    lineOf message code = 1 := by
  simp [lineOf, h]

end Diagnosis

end DrawPlus
