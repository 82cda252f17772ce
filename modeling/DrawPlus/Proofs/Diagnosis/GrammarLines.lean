import DrawPlus.Proofs.Diagnosis.NamedLine
import DrawPlus.Proofs.Numbers.Display
import DrawPlus.Proofs.Parsing.Complaints
import DrawPlus.Proofs.Scanning.Positions

/-!
# The line of an error of the grammar

The message of a complaint shows the token at which it is made, with its line. The phrases by which
the line is looked for could also occur elsewhere in the message, but they do not: the labels of
kinds are in capitals but for their beginning, the value of a token is shown without blanks, and the
wording of a complaint is the same for all programs. So the line that is found is the line of the
token (`namedLine_found`), which is a line of the text.
-/

namespace DrawPlus

/-! ## What tokens are shown as -/

theorem Kind.label_of_isNative {k : Kind} (h : k.IsNative) : k.label = "TokenType." ++ k.name := by
  cases k with
  | other name => cases h
  | _ => rfl

theorem Kind.isUpper_of_mem_name {k : Kind} (h : k.IsNative) {c : Char} (hc : c ∈ k.name.toList) :
    c.isUpper = true ∨ c = '_' := by
  have hall : (all.all fun k => k.name.toList.all fun c => c.isUpper || c == '_') = true := by
    decide +kernel
  have hname := List.all_eq_true.mp (List.all_eq_true.mp hall k (isNative_iff.mp h)) c hc
  simpa using hname

theorem Kind.notMem_label_of_not_upper {k : Kind} (h : k.IsNative) {c : Char}
    (hc : c ∉ "TokenType.".toList) (hupper : ¬(c.isUpper = true ∨ c = '_')) :
    c ∉ k.label.toList := by
  rw [label_of_isNative h, String.toList_append, List.mem_append]
  exact not_or.mpr ⟨hc, fun hmem => hupper (isUpper_of_mem_name h hmem)⟩

theorem Kind.notMem_label {k : Kind} (h : k.IsNative) : 'l' ∉ k.label.toList :=
  notMem_label_of_not_upper h (by decide) (by decide)

/-- The value is shown without blanks, and nothing in it reads like the line of a token. -/
structure Value.IsCompact (v : Value) : Prop where
  blank : ' ' ∉ v.display.toList
  line : ¬"line=".toList <:+: v.display.toList

namespace Value

theorem isCompact_of_notMem {v : Value} (hblank : ' ' ∉ v.display.toList)
    (hequals : '=' ∉ v.display.toList) : v.IsCompact :=
  ⟨hblank, Text.not_infix_of_notMem (by decide) hequals⟩

theorem isCompact_of_isName {w : String} (h : IsName w) : IsCompact (.text w) :=
  isCompact_of_notMem (h.notMem (by simp [isWordChar_of_ascii]))
    (h.notMem (by simp [isWordChar_of_ascii]))

theorem isCompact_of_isNumeral {v : Value} (h : IsNumeral v.display.toList) : v.IsCompact := by
  obtain ⟨d, body, exponent, htext, hd, hbody, hexponent⟩ := h
  have hmarks : ∀ c ∈ v.display.toList, c.isDigit = true ∨ c ∈ ['.', 'e', '+', '-'] := by
    intro c hc
    rw [htext, List.mem_cons, List.mem_append] at hc
    rcases hc with rfl | hc | hc
    · exact .inl hd
    · exact (hbody c hc).imp_right (by rintro rfl; simp)
    · rcases hexponent with rfl | ⟨s, rest, rfl, hs, hrest⟩
      · cases hc
      · rcases List.mem_cons.mp hc with rfl | hc
        · exact .inr (by simp)
        rcases List.mem_cons.mp hc with rfl | hc
        · exact .inr (by simpa using .inr (.inr hs))
        · exact .inl (hrest c hc)
  apply isCompact_of_notMem
  · exact fun hmem => absurd (hmarks _ hmem) (by decide)
  · exact fun hmem => absurd (hmarks _ hmem) (by decide)

theorem isCompact_of_isLiteral {v : Value} (h : v.IsLiteral) : v.IsCompact := by
  by_cases hfinite : v.isFinite = true
  · exact isCompact_of_isNumeral (isNumeral_display h hfinite)
  · cases h with
    | int n => simp [isFinite] at hfinite
    | @double x hx =>
      have hinfinite : x.magnitude = .infinite := by simpa [isFinite] using hfinite
      have htext : (display (.double x)).toList = ['i', 'n', 'f'] := by
        change x.text.toList = _
        rw [Double.text_of_isMeasure hx, Double.magnitudeText, hinfinite]
      apply isCompact_of_notMem <;> simp [htext]

end Value

theorem Token.Faithful.isCompact {t : Token} (h : t.Faithful) : t.value.IsCompact := by
  cases h with
  | name hw => exact Value.isCompact_of_isName hw
  | @keyword w k l c hw =>
    have hall : ∀ e ∈ keywords, ' ' ∉ e.1.toList ∧ '=' ∉ e.1.toList := by decide +kernel
    obtain ⟨hblank, hequals⟩ := hall _ hw
    exact Value.isCompact_of_notMem hblank hequals
  | @sign w k l c hw =>
    have hsigns : ' ' ∉ w.toList ∧ 'l' ∉ w.toList := by
      unfold Kind.sign? at hw
      split at hw <;> cases hw <;> simp
    exact ⟨hsigns.1, Text.not_infix_of_notMem (by decide) hsigns.2⟩
  | integer n => exact Value.isCompact_of_isLiteral (.int n)
  | decimal hx => exact Value.isCompact_of_isLiteral (.double hx)

/-! ## The message of a complaint -/

namespace Diagnosis

open Text

/-- The phrases occur in no wording of a complaint: each has a letter that few of the wordings
have. -/
theorem not_infix_complaint {c : Complaint} (hc : c.SpeaksOf Kind.IsNative) {phrase : List Char}
    (hletter : 'l' ∈ phrase) (hcomma : ',' ∉ phrase)
    (hfactor : ¬phrase <:+: "Invalid factor".toList)
    (htype : ¬phrase <:+: "Expected type specifier (int, float, bool, string, color)".toList) :
    ¬phrase <:+: c.message.toList := by
  cases c with
  | expected wanted got =>
    apply not_infix_of_notMem hletter
    change 'l' ∉ ("Expected " ++ wanted.label ++ ", got " ++ got.label).toList
    simp [Kind.notMem_label hc.1, Kind.notMem_label hc.2]
  | noStatement got =>
    apply not_infix_of_notMem hletter
    change 'l' ∉ ("Unexpected token " ++ got.label ++ " in statement").toList
    simp [Kind.notMem_label hc]
  | noType got =>
    have hmessage : (Complaint.noType got).message.toList =
        "Expected type specifier (int, float, bool, string, color)".toList ++
          ',' :: (" got ".toList ++ got.label.toList) := by
      change ("Expected type specifier (int, float, bool, string, color), got " ++
        got.label).toList = _
      simp
    rw [hmessage, infix_fence hcomma]
    refine not_or.mpr ⟨htype, not_infix_of_notMem hletter ?_⟩
    simp [Kind.notMem_label hc]
  | noFactor => exact hfactor
  | custom text => cases hc
  | windowReassigned | unknownMethod | noAssignment | windowNotInteger | windowOutOfRange =>
    exact not_infix_of_notMem hletter (by decide)

/-- What the message of a complaint shows before the line of the token. -/
def beforeLine (t : Token) : List Char :=
  "Parser error at token Token".toList ++ '(' :: (t.kind.label.toList ++
    ',' :: ' ' :: t.value.display.toList)

/-- What it shows after the line of the token. -/
def afterLine (column : ℕ) (c : Complaint) : List Char :=
  ' ' :: ("column=".toList ++ Nat.toDigits 10 column) ++ ')' :: ':' :: ' ' :: c.message.toList

theorem toList_found {t : Token} {n m : ℕ} (hline : t.line = n) (hcolumn : t.column = m)
    {c : Complaint} {message : String} (h : (SyntaxError.found t c).message? = some message) :
    message.toList = beforeLine t ++ ',' :: ' ' :: ("line=".toList ++
      (Nat.toDigits 10 n ++ ',' :: afterLine m c)) := by
  have hdisplay : t.display = "Token(" ++ t.kind.label ++ ", " ++ t.value.display ++ ", line=" ++
      String.ofList (Nat.toDigits 10 n) ++ ", column=" ++ String.ofList (Nat.toDigits 10 m) ++
        ")" := by
    have hshown {i : Int} {k : ℕ} (hi : i = k) :
        toString i = String.ofList (Nat.toDigits 10 k) := by
      rw [hi]
      rfl
    rw [← hshown hline, ← hshown hcolumn]
    rfl
  obtain rfl : "Parser error at token " ++ t.display ++ ": " ++ c.message = message :=
    Option.some.inj h
  rw [hdisplay]
  change _ = ("Parser error at token Token".toList ++ '(' :: (t.kind.label.toList ++
    ',' :: ' ' :: t.value.display.toList)) ++ ',' :: ' ' :: ("line=".toList ++ (Nat.toDigits 10 n ++
      ',' :: (' ' :: ("column=".toList ++ Nat.toDigits 10 m) ++ ')' :: ':' :: ' ' ::
        c.message.toList)))
  simp

section

variable {phrase : List Char} {t : Token} {n m : ℕ} {c : Complaint}

theorem not_infix_beforeLine (hmarks : '(' ∉ phrase ∧ ',' ∉ phrase)
    (hfront : ¬phrase <:+: "Parser error at token Token".toList)
    (hlabel : ¬phrase <:+: t.kind.label.toList)
    (hvalue : ¬phrase <:+: ' ' :: t.value.display.toList) : ¬phrase <:+: beforeLine t := by
  change ¬phrase <:+: "Parser error at token Token".toList ++ '(' :: (t.kind.label.toList ++
    ',' :: ' ' :: t.value.display.toList)
  rw [infix_fence hmarks.1, infix_fence hmarks.2]
  exact not_or.mpr ⟨hfront, not_or.mpr ⟨hlabel, hvalue⟩⟩

theorem not_infix_afterLine (hmarks : ')' ∉ phrase ∧ ':' ∉ phrase)
    (hcolumn : ¬phrase <:+: ' ' :: ("column=".toList ++ Nat.toDigits 10 m))
    (hcomplaint : ¬phrase <:+: ' ' :: c.message.toList) : ¬phrase <:+: afterLine m c := by
  have hcolon : ¬phrase <:+: ':' :: ' ' :: c.message.toList := by
    rw [← List.nil_append (':' :: _), infix_fence hmarks.2]
    refine not_or.mpr ⟨fun hnil => ?_, hcomplaint⟩
    exact hcomplaint (hnil.trans List.nil_infix)
  rw [afterLine, infix_fence hmarks.1]
  exact not_or.mpr ⟨hcolumn, hcolon⟩

theorem infix_blank_cons {text : List Char} (h : phrase.head? ≠ some ' ') (hne : phrase ≠ []) :
    phrase <:+: ' ' :: text ↔ phrase <:+: text := by
  rw [List.infix_cons_iff, or_iff_right_iff_imp]
  rintro ⟨tail, htail⟩
  cases phrase with
  | nil => exact absurd rfl hne
  | cons d phrase => simp_all

/-- A phrase of several words occurs in the message only if the complaint has it, since the parts of
a token are shown without blanks. -/
theorem not_infix_found (hblank : ' ' ∈ phrase) (hhead : phrase.head? ≠ some ' ')
    (hmarks : ('(' ∉ phrase ∧ ',' ∉ phrase) ∧ ')' ∉ phrase ∧ ':' ∉ phrase)
    (hfront : ¬phrase <:+: "Parser error at token Token".toList)
    (hcomplaint : ¬phrase <:+: c.message.toList) (hkind : t.kind.IsNative)
    (hvalue : t.value.IsCompact) (n m : ℕ) :
    ¬phrase <:+: beforeLine t ++ ',' :: ' ' :: ("line=".toList ++
      (Nat.toDigits 10 n ++ ',' :: afterLine m c)) := by
  have hne : phrase ≠ [] := List.ne_nil_of_mem hblank
  have hword {text : List Char} (htext : ' ' ∉ text) : ¬phrase <:+: ' ' :: text := by
    rw [infix_blank_cons hhead hne]
    exact not_infix_of_notMem hblank htext
  have hlabel := Kind.notMem_label_of_not_upper hkind (c := ' ') (by decide) (by decide)
  have hbefore := not_infix_beforeLine hmarks.1 hfront (not_infix_of_notMem hblank hlabel)
    (hword hvalue.blank)
  rw [← infix_blank_cons hhead hne] at hcomplaint
  have hafter := not_infix_afterLine hmarks.2 (hword (by simp [notMem_toDigits])) hcomplaint
    (m := m)
  have hline : ' ' :: ("line=".toList ++ (Nat.toDigits 10 n ++ ',' :: afterLine m c)) =
      ' ' :: ("line=".toList ++ Nat.toDigits 10 n) ++ ',' :: afterLine m c := by simp
  rw [infix_fence hmarks.1.2, hline, infix_fence hmarks.1.2]
  exact not_or.mpr ⟨hbefore, not_or.mpr ⟨hword (by simp [notMem_toDigits]), hafter⟩⟩

theorem not_infix_at_found (hkind : t.kind.IsNative) (hvalue : t.value.IsCompact)
    (hc : c.SpeaksOf Kind.IsNative) (n m : ℕ) :
    ¬"at line".toList <:+: beforeLine t ++ ',' :: ' ' :: ("line=".toList ++
      (Nat.toDigits 10 n ++ ',' :: afterLine m c)) := by
  refine not_infix_found (by decide) (by decide) (by decide) (by decide) ?_ hkind hvalue n m
  refine not_infix_complaint hc (by decide) (by decide) (by decide) ?_
  simp only [String.reduceToList]
  decide +kernel

theorem afterPhrase?_found (hkind : t.kind.IsNative) (hvalue : t.value.IsCompact)
    (hc : c.SpeaksOf Kind.IsNative) (n m : ℕ) :
    afterPhrase? "line=".toList (beforeLine t ++ ',' :: ' ' :: ("line=".toList ++
      (Nat.toDigits 10 n ++ ',' :: afterLine m c))) =
      some (Nat.toDigits 10 n ++ ',' :: afterLine m c) := by
  have hbefore : ¬"line=".toList <:+: beforeLine t := by
    have hlabel : ¬"line=".toList <:+: t.kind.label.toList :=
      not_infix_of_notMem (by decide) (Kind.notMem_label hkind)
    refine not_infix_beforeLine (by decide) (by decide) hlabel ?_
    rw [infix_blank_cons (by decide) (by decide)]
    exact hvalue.line
  have hcomplaint : ¬"line=".toList <:+: ' ' :: c.message.toList := by
    rw [infix_blank_cons (by decide) (by decide)]
    refine not_infix_complaint hc (by decide) (by decide) (by decide) ?_
    simp only [String.reduceToList]
    decide +kernel
  have hcolumn : 'i' ∉ ' ' :: ("column=".toList ++ Nat.toDigits 10 m) := by simp [notMem_toDigits]
  have hafter := @not_infix_afterLine "line=".toList m c (by decide)
    (not_infix_of_notMem (by decide) hcolumn) hcomplaint
  have hnext : ¬"line=".toList <:+: Nat.toDigits 10 n ++ ',' :: afterLine m c := by
    rw [infix_fence (by decide)]
    have hdigits := notMem_toDigits (c := 'l') (by decide) n
    exact not_or.mpr ⟨not_infix_of_notMem (by decide) hdigits, hafter⟩
  have hfirst := @afterPhrase?_first "line=".toList [] _ (by decide) hnext
  rw [List.nil_append] at hfirst
  rw [afterPhrase?_fence (by decide) hbefore, ← List.nil_append (' ' :: _),
    afterPhrase?_fence (by decide) (by decide), hfirst]

/-- The line that is found in the message of a complaint is the line of the token. -/
theorem namedLine_found {message : String} (hkind : t.kind.IsNative) (hvalue : t.value.IsCompact)
    (hc : c.SpeaksOf Kind.IsNative) (hline : t.line = n) (hcolumn : t.column = m)
    (h : (SyntaxError.found t c).message? = some message) :
    namedLine message.toList = asNamed n := by
  rw [toList_found hline hcolumn h]
  exact namedLine_of_equals (not_infix_at_found hkind hvalue hc n m)
    (afterPhrase?_found hkind hvalue hc n m)

end

/-! ## The line of a token is a line of the text -/

/-- Every token of a text can be shown as it is needed, and is on one of its lines. -/
theorem exists_place_of_ofText {source : String} {tokens : List Token}
    (h : Token.ofText source = .ok tokens) {t : Token} (ht : t ∈ tokens) :
    t.value.IsCompact ∧ ∃ n m : ℕ, t.line = n ∧ t.column = m ∧
      1 ≤ n ∧ n ≤ (lines source.toList).length := by
  obtain ⟨ps, htext, hcut, hall⟩ := cut_of_ofText h
  obtain ⟨body, last, hlexed, -, hbody⟩ := lexed_of_ofText h
  obtain ⟨rfl, hlast⟩ := List.append_inj' (hlexed.symm.trans hall) rfl
  have hpos := List.length_pos_of_ne_nil (lines_ne_nil source.toList)
  rw [hlexed, List.mem_append] at ht
  rcases ht with ht | ht
  · refine ⟨(hbody t ht).isCompact, ?_⟩
    obtain ⟨e, he, rfl⟩ := List.mem_map.mp ht
    obtain ⟨k, left, right, hk, hline, hcolumn, -⟩ := standsIn_of_cut hcut e he
    obtain ⟨hlt, -⟩ := List.getElem?_eq_some_iff.mp hk
    rw [List.nil_append, List.append_nil, htext] at hlt
    exact ⟨k + 1, left.length + 1, by simpa using hline, by simpa using hcolumn, by omega, by omega⟩
  · rw [hlast, List.mem_singleton] at ht
    subst ht
    have hcompact : Value.IsCompact .absent := Value.isCompact_of_notMem (by decide) (by decide)
    exact ⟨hcompact, _, _, rfl, rfl, hpos, le_rfl⟩

end Diagnosis

end DrawPlus
