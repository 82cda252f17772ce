import DrawPlus.Proofs.Characters

/-!
# What the tokens of a text carry

A token read from a text carries what it was read from: a name its spelling, a keyword or a sign
its one spelling, a number its value, which is never negative. The tokens of a text end in the one
closing token.

Everything that is proved about lists of tokens assumes no more than `Token.Lexed`.
-/

namespace DrawPlus

/-- A word that can name a variable or a cursor. -/
structure IsName (w : String) : Prop where
  start : IsWord w
  free : keywords.lookup w = none

theorem IsName.chars {w : String} (h : IsName w) : ∀ c ∈ w.toList, isWordChar c = true := by
  obtain ⟨c, rest, hw, hc, hrest⟩ := h.start
  rw [hw, List.forall_mem_cons]
  exact ⟨isWordChar_of_isWordStart hc, hrest⟩

theorem IsName.notMem {w : String} (h : IsName w) {c : Char} (hc : isWordChar c = false) :
    c ∉ w.toList := by
  intro hmem
  rw [h.chars c hmem] at hc
  cases hc

/-- A double that a decimal numeral can denote: not negative, and a number. -/
def Double.IsMeasure (x : Double) : Prop :=
  x.isNegative = false ∧ x.magnitude ≠ .undefined

/-- The token carries what a token of its kind is read from. -/
inductive Token.Faithful : Token → Prop
  | name {w : String} {l c : Int} : IsName w → Faithful ⟨.identifier, w, l, c⟩
  | keyword {w : String} {k : Kind} {l c : Int} : (w, k) ∈ keywords → Faithful ⟨k, w, l, c⟩
  | sign {w : String} {k : Kind} {l c : Int} : k.sign? = some w → Faithful ⟨k, w, l, c⟩
  | integer (n : ℕ) {l c : Int} : Faithful ⟨.number, .int n, l, c⟩
  | decimal {x : Double} {l c : Int} : x.IsMeasure → Faithful ⟨.number, .double x, l, c⟩

/-- A list of tokens as it is read from a text: one closing token, at the end, and before it
tokens that carry what they were read from. -/
def Token.Lexed (ts : List Token) : Prop :=
  ∃ body last, ts = body ++ [last] ∧ last.kind = .endOfInput ∧ ∀ t ∈ body, t.Faithful

/-- None of the tokens is a closing token. -/
def Token.Inside (ts : List Token) : Prop := ∀ t ∈ ts, t.kind ≠ .endOfInput

namespace Token

@[simp] theorem inside_nil : Inside [] := by simp [Inside]

@[simp] theorem inside_cons {t : Token} {ts : List Token} :
    Inside (t :: ts) ↔ t.kind ≠ .endOfInput ∧ Inside ts := by simp [Inside]

@[simp] theorem inside_append {ts us : List Token} :
    Inside (ts ++ us) ↔ Inside ts ∧ Inside us := by simp [Inside, or_imp, forall_and]

end Token

namespace Token.Faithful

theorem kind_ne_endOfInput {t : Token} (h : t.Faithful) : t.kind ≠ .endOfInput := by
  cases h with
  | name _ => simp
  | keyword h =>
    rintro rfl
    revert h
    simp [keywords, Hue.all]
  | sign h =>
    rintro rfl
    simp [Kind.sign?] at h
  | integer _ => simp
  | decimal _ => simp

end Token.Faithful

/-! ## Decimal numerals denote measures -/

namespace Double

theorem isMeasure_ofParts {low : ℕ} (h : low ≤ infinityBits) : (ofParts false low).IsMeasure := by
  have hbits : (ofParts false low).bits.toNat = low := by
    simp only [infinityBits, twoTo] at h
    simp only [ofParts, UInt64.toNat_ofNat']
    norm_num at h ⊢
    omega
  simp only [infinityBits, twoTo] at h
  norm_num at h
  constructor
  · simp only [isNegative, hbits, twoTo, decide_eq_false_iff_not]
    norm_num
    omega
  · unfold magnitude
    simp only [exponentField, fractionField, hbits, twoTo]
    norm_num
    split_ifs <;> simp
    omega

theorem isMeasure_ofRatio (numerator denominator : ℕ) :
    (ofRatio false numerator denominator).IsMeasure := by
  unfold ofRatio
  split_ifs with h
  · exact isMeasure_ofParts (Nat.zero_le _)
  · simp only
    split_ifs with hlow
    · exact isMeasure_ofParts hlow.le
    · exact isMeasure_ofParts le_rfl

theorem isMeasure_ofDecimal (digits : ℕ) (exponent : Int) :
    (ofDecimal false digits exponent).IsMeasure := by
  unfold ofDecimal
  split_ifs
  · exact isMeasure_ofRatio _ _
  · exact isMeasure_ofRatio _ _

end Double

theorem Numeral.isMeasure_of_decimal {text : List Char} {x : Double}
    (h : Numeral.decimal text = .ok x) : x.IsMeasure := by
  unfold Numeral.decimal at h
  simp only at h
  split at h
  · split_ifs at h
    cases h
    exact Double.isMeasure_ofDecimal _ _
  · cases h

/-! ## The spellings of signs -/

namespace Scan

theorem sign?_of_ofSignEqual? {c : Char} {k : Kind} (h : Kind.ofSignEqual? c = some k) :
    k.sign? = some (String.ofList [c, '=']) := by
  unfold Kind.ofSignEqual? at h
  split at h <;> cases h <;> rfl

theorem sign?_of_ofSign? {c : Char} {k : Kind} (h : Kind.ofSign? c = some k) :
    k.sign? = some (String.ofList [c]) := by
  unfold Kind.ofSign? at h
  split at h <;> cases h <;> rfl

theorem sign?_of_ofDelimiter? {c : Char} {k : Kind} (h : Kind.ofDelimiter? c = some k) :
    k.sign? = some c.toString := by
  unfold Kind.ofDelimiter? at h
  split at h <;> cases h <;> rfl

end Scan

end DrawPlus
