import DrawPlus.Proofs.Diagnosis.Agreement
import DrawPlus.Proofs.Diagnosis.GrammarLines
import DrawPlus.Proofs.Parsing.Stopping
import DrawPlus.Proofs.Parsing.Programs

/-!
# The line of the token at which reading stops

An error of the grammar is diagnosed in the line of the token at which reading stopped. The line
goes through the wording of the message, and nothing in the wording but the complaint of a missed
semicolon can be taken for one (`stopping_line`).

Where a semicolon is missed, the token comes after the place where it is missing. The diagnosis then
looks at the line of text before the line of the token. If that line has text without a semicolon at
its end, it is diagnosed in place of the line of the token. The last token before the missing
semicolon can be on another line than the one that comes out (`missed_semicolon_line_iff`).
-/

namespace DrawPlus

open Text

/-! ## Blank code -/

theorem beginsNothing_of_isBlank {c : Char} (hblank : isBlank c = true)
    (hgap : isGap c = false) : BeginsNothing c := by
  have hmarks : c ∉ ['+', '-', '*', '/', '<', '>', '=', '!'] := by
    intro hc
    simp only [List.mem_cons, List.not_mem_nil, or_false] at hc
    rcases hc with rfl | rfl | rfl | rfl | rfl | rfl | rfl | rfl <;> cases hblank
  refine ⟨hgap, ?_, ?_, ?_, ?_⟩
  · by_contra hword
    rw [isBlank_of_isWordStart (by simpa using hword)] at hblank
    cases hblank
  · by_contra hdigit
    rw [isBlank_of_isWordChar (Scan.isWordChar_of_digit (by simpa using hdigit))] at hblank
    cases hblank
  · rwa [← Scan.isSignStart_iff, Bool.not_eq_true] at hmarks
  · cases hk : Kind.ofDelimiter? c with
    | none => rfl
    | some k =>
      unfold Kind.ofDelimiter? at hk
      split at hk <;> cases hk <;> cases hblank

/-- Blank code that can be read has the closing token only. -/
theorem Scan.outcome_of_isBlank {before rest : List Char} (h : ∀ c ∈ rest, isBlank c = true)
    {ts : List Token} (hts : Scan.outcome before rest = .ok ts) :
    ∃ last, ts = [last] ∧ last.kind = .endOfInput := by
  induction rest generalizing before with
  | nil =>
    rw [Scan.outcome_end] at hts
    exact ⟨_, (Except.ok.inj hts).symm, rfl⟩
  | cons c rest ih =>
    rw [List.forall_mem_cons] at h
    cases hgap : isGap c with
    | true =>
      rw [Scan.outcome_blank hgap] at hts
      exact ih h.2 hts
    | false =>
      rw [Scan.outcome_halt (.stranger rest (beginsNothing_of_isBlank h.1 hgap))] at hts
      cases hts

/-- There is no fault of the grammar in it. -/
theorem isAllBlank_of_grammar {code : String} {tokens : List Token} {e : SyntaxError}
    (ht : Token.ofText code = .ok tokens) (he : Node.ofTokens tokens = .error e) :
    isAllBlank code.toList = false := by
  by_contra hblank
  rw [Bool.not_eq_false, isAllBlank, List.all_eq_true] at hblank
  have hl := lexed_of_ofText ht
  rw [Scan.ofText_eq_outcome] at ht
  obtain ⟨last, rfl, -⟩ := Scan.outcome_of_isBlank hblank ht
  rw [ofTokens_of_derived hl .nil] at he
  cases he

/-! ## Complaints that are taken for a missed semicolon -/

namespace Diagnosis

theorem not_infix_missing {c : Complaint} (hc : c.SpeaksOf Kind.IsNative) :
    ¬"Missing semicolon".toList <:+: c.message.toList := by
  refine not_infix_complaint hc (by decide) (by decide) (by decide) ?_
  exact not_infix_of_notMem (c := 'M') (by simp) (by simp)

theorem not_prefix_label {k : Kind} (hk : k.IsNative) (h : k ≠ .semicolon) :
    ¬"TokenType.SEMICOLON".toList <+: k.label.toList := by
  have hall : ∀ k ∈ Kind.all, k ≠ .semicolon → ¬"SEMICOLON".toList <+: k.name.toList := by
    simp only [String.reduceToList]
    decide
  have hphrase : "TokenType.SEMICOLON".toList = "TokenType.".toList ++ "SEMICOLON".toList := rfl
  rw [Kind.label_of_isNative hk, String.toList_append, hphrase, List.prefix_append_right_inj]
  exact hall k (Kind.isNative_iff.mp hk) h

/-- The phrase goes over the first blank, or it comes after it. -/
theorem not_infix_expected_append {word rest : List Char} (hword : ' ' ∉ word) (hrest : 'x' ∉ rest)
    (h : "Expected".toList <:+ word → ¬"TokenType.SEMICOLON".toList <+: rest) :
    ¬"Expected TokenType.SEMICOLON".toList <:+: word ++ ' ' :: rest := by
  intro hinfix
  have hphrase : "Expected TokenType.SEMICOLON".toList =
      "Expected".toList ++ ' ' :: "TokenType.SEMICOLON".toList := rfl
  rw [hphrase] at hinfix
  rcases infix_around (by decide) (by decide) hinfix with hbefore | hafter | ⟨hends, hbegins⟩
  · exact not_infix_of_notMem (c := ' ') (by simp) hword hbefore
  · exact not_infix_of_notMem (c := 'x') (by simp) hrest hafter
  · exact h hends hbegins

/-- Of all the complaints only the one of a missed semicolon has the phrase. -/
theorem not_infix_expected {c : Complaint} (hc : c.SpeaksOf Kind.IsNative)
    (h : ∀ got, c ≠ .expected .semicolon got) :
    ¬"Expected TokenType.SEMICOLON".toList <:+: c.message.toList := by
  have hlabel {k : Kind} (hk : k.IsNative) : 'x' ∉ k.label.toList :=
    Kind.notMem_label_of_not_upper hk (by decide) (by decide)
  cases c with
  | expected wanted got =>
    have hmessage : (Complaint.expected wanted got).message.toList =
        "Expected".toList ++ ' ' :: (wanted.label.toList ++ ',' :: (" got ".toList ++
          got.label.toList)) := by
      change ("Expected " ++ wanted.label ++ ", got " ++ got.label).toList = _
      simp
    rw [hmessage]
    refine not_infix_expected_append (by decide) (by simp [hlabel hc.1, hlabel hc.2])
      fun _ hbegins => ?_
    exact not_prefix_label hc.1 (fun heq => h got (by rw [heq]))
      (prefix_of_prefix_fence (by decide) hbegins)
  | noStatement got =>
    have hmessage : (Complaint.noStatement got).message.toList =
        "Unexpected".toList ++ ' ' :: ("token ".toList ++ got.label.toList ++
          " in statement".toList) := by
      change ("Unexpected token " ++ got.label ++ " in statement").toList = _
      simp
    rw [hmessage]
    exact not_infix_expected_append (by decide) (by simp [hlabel hc]) fun hends =>
      absurd hends (by decide)
  | noType got =>
    have hmessage : (Complaint.noType got).message.toList = "Expected type specifier ".toList ++
        '(' :: ("int, float, bool, string, color), got ".toList ++ got.label.toList) := by
      change ("Expected type specifier (int, float, bool, string, color), got " ++
        got.label).toList = _
      simp
    rw [hmessage, infix_fence (by decide)]
    refine not_or.mpr ⟨?_, not_infix_of_notMem (c := 'x') (by decide) (by simp [hlabel hc])⟩
    exact not_infix_of_notMem (c := 'T') (by decide) (by decide)
  | custom text => cases hc
  | unknownMethod | noAssignment | noFactor | windowReassigned | windowNotInteger
  | windowOutOfRange => exact not_infix_of_notMem (c := 'T') (by decide) (by decide)

/-- A complaint is taken for a missed semicolon if and only if it is one. -/
theorem missesSemicolon_found {t : Token} {c : Complaint} {n m : ℕ} {message : String}
    (hkind : t.kind.IsNative) (hvalue : t.value.IsCompact) (hc : c.SpeaksOf Kind.IsNative)
    (hline : t.line = n) (hcolumn : t.column = m)
    (h : (SyntaxError.found t c).message? = some message) :
    missesSemicolon message.toList = true ↔ ∃ got, c = .expected .semicolon got := by
  have hmissing : ¬"Missing semicolon".toList <:+: message.toList := by
    rw [toList_found hline hcolumn h]
    exact not_infix_found (by decide) (by decide) (by decide) (by decide) (not_infix_missing hc)
      hkind
      hvalue n m
  rw [missesSemicolon, hasPhrase_eq_false_iff.mpr hmissing, Bool.false_or,
    ← not_iff_not, Bool.not_eq_true, hasPhrase_eq_false_iff, not_exists]
  constructor
  · rintro hexpected got rfl
    obtain rfl : "Parser error at token " ++ t.display ++ ": " ++
        ("Expected " ++ Kind.semicolon.label ++ ", got " ++ got.label) = message :=
          Option.some.inj h
    refine hexpected ⟨("Parser error at token " ++ t.display ++ ": ").toList,
      (", got " ++ got.label).toList, ?_⟩
    simp [Kind.label_of_isNative hc.1]
    rfl
  · intro hother
    rw [toList_found hline hcolumn h]
    exact not_infix_found (by decide) (by decide) (by decide) (by decide)
      (not_infix_expected hc hother) hkind hvalue n m

/-! ## Lines that are moved to the one before -/

theorem lineOf_of_not_missesSemicolon {message : List Char} (h : missesSemicolon message = false)
    (code : List Char) : lineOf message code = namedLine message := by
  simp [lineOf, h]

/-- The line before the line with the number has text that does not end in a semicolon. -/
def followsUnfinished (code : String) : ℕ → Bool
  | k + 2 => ((lines code.toList)[k]?).any isUnfinished
  | _ => false

/-- A message that misses a semicolon is about the line that it names or the one before. -/
theorem lineOf_of_missesSemicolon {message : List Char} {code : String} {n : ℕ}
    (h : missesSemicolon message = true) (hline : namedLine message = n)
    (hle : n ≤ (lines code.toList).length) :
    lineOf message code.toList = if followsUnfinished code n then (n : Int) - 1 else n := by
  unfold lineOf
  rw [h, hline]
  obtain rfl | rfl | ⟨k, rfl⟩ : n = 0 ∨ n = 1 ∨ ∃ k, n = k + 2 := by
    rcases n with _ | _ | k <;> simp
  · rfl
  · rfl
  · have hmoved : (true && decide ((1 : Int) < (k + 2 : ℕ))) = true := by
      simp
      omega
    have hinside : ((k + 2 : ℕ) : Int) ≤ (lines code.toList).length := by omega
    have hindex : ((k + 2 : ℕ) : Int).toNat - 2 = k := by omega
    dsimp only
    rw [if_pos hmoved, if_pos hinside, hindex, followsUnfinished]
    cases (lines code.toList)[k]? <;> simp

end Diagnosis

open Diagnosis

/-- What is found in the code for a complaint of the grammar. -/
theorem exists_faulty_of_found {code : String} {tokens : List Token} {t : Token} {c : Complaint}
    (ht : Token.ofText code = .ok tokens) (he : Node.ofTokens tokens = .error (.found t c)) :
    ∃ (message : String) (n : ℕ) (advice : List String),
      (SyntaxError.found t c).message? = some message ∧ t.line = n ∧
      n ≤ (lines code.toList).length ∧ namedLine message.toList = asNamed n ∧
      (missesSemicolon message.toList = true ↔ ∃ got, c = .expected .semicolon got) ∧
      Diagnosis.ofCode code = .faulty message (lineOf message.toList code.toList) advice := by
  have hl := lexed_of_ofText ht
  obtain ⟨hmem, hc⟩ := speaksOf_of_ofTokens hl he
  have hkind := hl.isNative t hmem
  obtain ⟨hvalue, n, m, hline, hcolumn, -, hle⟩ := exists_place_of_ofText ht hmem
  obtain ⟨advice, hfaulty⟩ := ofCode_eq_of_failsFirst (isAllBlank_of_grammar ht he)
    (.grammar ht he rfl)
  exact ⟨_, n, advice, rfl, hline, hle, namedLine_found hkind hvalue hc hline hcolumn rfl,
    missesSemicolon_found hkind hvalue hc hline hcolumn rfl, hfaulty⟩

/-- What is found where a semicolon is missed: the line of the token, or the one before. -/
theorem exists_faulty_of_semicolon {code : String} {tokens : List Token} {t : Token} {got : Kind}
    (ht : Token.ofText code = .ok tokens)
    (he : Node.ofTokens tokens = .error (.found t (.expected .semicolon got))) {n : ℕ}
    (hn : t.line = n) :
    ∃ message advice, Diagnosis.ofCode code = .faulty message
      (if n < 10 ^ maxIntegerDigits then
        if followsUnfinished code n then (n : Int) - 1 else n else 1) advice := by
  obtain ⟨message, m, advice, -, hm, hle, hnamed, hmisses, hfaulty⟩ := exists_faulty_of_found ht he
  obtain rfl : m = n := Int.ofNat.inj (hm.symm.trans hn)
  refine ⟨message, advice, ?_⟩
  rw [hfaulty]
  by_cases hsmall : m < 10 ^ maxIntegerDigits
  · rw [asNamed, if_pos hsmall] at hnamed
    rw [if_pos hsmall, lineOf_of_missesSemicolon (hmisses.mpr ⟨got, rfl⟩) hnamed hle]
  · rw [asNamed, if_neg hsmall] at hnamed
    rw [if_neg hsmall, lineOf_of_first hnamed]

theorem lt_limit_of_lt_ten {n : ℕ} (h : n < 10) : n < 10 ^ maxIntegerDigits :=
  h.trans_le (Nat.le_self_pow (by decide) 10)

section

variable {code : String} {tokens : List Token} {start g : Feed}

theorem ofTokens_of_program {e : SyntaxError} (hstart : Feed.ofTokens? tokens = some start)
    (herror : Parse.program start = .error e g) : Node.ofTokens tokens = .error e := by
  simp [Node.ofTokens, hstart, herror]

/-- Reading that fails for anything but a missed semicolon is diagnosed in the line of the token at
which it stopped. (A line number with too many digits is not read off the message, and then the
first line is taken.) -/
theorem stopping_line {e : SyntaxError} (ht : Token.ofText code = .ok tokens)
    (hstart : Feed.ofTokens? tokens = some start) (herror : Parse.program start = .error e g)
    (hother : ∀ t got, e ≠ .found t (.expected .semicolon got)) :
    ∃ (h : g.position < tokens.length) (c : Complaint) (message : String) (n : ℕ)
      (advice : List String),
      tokens[g.position] = g.current ∧ e = .found g.current c ∧ e.message? = some message ∧
      g.current.line = n ∧
      Diagnosis.ofCode code =
        .faulty message (if n < 10 ^ maxIntegerDigits then n else 1) advice := by
  obtain ⟨hlt, c, hcurrent, rfl, hc⟩ := exists_stop (lexed_of_ofText ht) hstart herror
  obtain ⟨message, n, advice, hmessage, hline, hle, hnamed, hmisses, hfaulty⟩ :=
    exists_faulty_of_found ht (ofTokens_of_program hstart herror)
  have hother : missesSemicolon message.toList = false := by
    rw [← Bool.not_eq_true, hmisses]
    rintro ⟨got, rfl⟩
    exact hother _ got rfl
  refine ⟨hlt, c, message, n, advice, hcurrent, rfl, hmessage, hline, ?_⟩
  rw [hfaulty, lineOf_of_not_missesSemicolon hother, hnamed]
  rfl

/-- Reading stops at a name that reads like another line. -/
theorem stopping_line_of_name :
    let tokens : List Token := [⟨.identifier, "x", 1, 1⟩, ⟨.assign, "=", 1, 3⟩,
      ⟨.number, .int 1, 1, 5⟩, ⟨.semicolon, ";", 1, 6⟩, ⟨.identifier, "x", 2, 1⟩,
      ⟨.identifier, "line9", 2, 3⟩, ⟨.endOfInput, .absent, 2, 7⟩]
    Token.ofText "x = 1;\nx line9" = .ok tokens ∧
      Node.ofTokens tokens = .error (.found ⟨.identifier, "line9", 2, 3⟩ .noAssignment) ∧
      ∃ message advice, Diagnosis.ofCode "x = 1;\nx line9" =
        .faulty message (if 2 < 10 ^ maxIntegerDigits then 2 else 1) advice := by
  intro tokens
  have ht : Token.ofText "x = 1;\nx line9" = .ok tokens := by decide +kernel
  have herror : Parse.program ⟨⟨.identifier, "x", 1, 1⟩, tokens.tail, 0⟩ =
      .error (.found ⟨.identifier, "line9", 2, 3⟩ .noAssignment)
        ⟨⟨.identifier, "line9", 2, 3⟩, tokens.drop 6, 5⟩ := rfl
  obtain ⟨-, -, message, n, advice, -, -, -, hn, hfaulty⟩ := stopping_line ht rfl herror (by simp)
  obtain rfl : 2 = n := Int.ofNat.inj hn
  exact ⟨ht, rfl, message, advice, hfaulty⟩

/-- Where a semicolon is missed, reading has stopped after a token. The diagnosis gives the line at
which it stopped, or the line before if that one has text that does not end in a semicolon. This is
the line of the token before the missing semicolon in two layouts only. -/
theorem missed_semicolon_line_iff {t : Token} {got : Kind} (ht : Token.ofText code = .ok tokens)
    (hstart : Feed.ofTokens? tokens = some start)
    (herror : Parse.program start = .error (.found t (.expected .semicolon got)) g) :
    ∃ (i : ℕ) (h : i + 1 < tokens.length) (n : ℕ) (message : String) (line : Int)
      (advice : List String),
      g.position = i + 1 ∧ tokens[i + 1] = t ∧ t.line = n ∧
      Diagnosis.ofCode code = .faulty message line advice ∧
      (10 ^ maxIntegerDigits ≤ n → line = 1) ∧
      (n < 10 ^ maxIntegerDigits →
        line = (if followsUnfinished code n then (n : Int) - 1 else n) ∧
        (line = tokens[i].line ↔
          followsUnfinished code n = false ∧ tokens[i].line = n ∨
          followsUnfinished code n = true ∧ tokens[i].line + 1 = n)) := by
  have hl := lexed_of_ofText ht
  obtain ⟨hlt, c, hcurrent, he, -⟩ := exists_stop hl hstart herror
  obtain ⟨rfl, rfl⟩ := SyntaxError.found.inj he
  obtain ⟨htokens, hzero⟩ := Feed.tokens_of_ofTokens? hstart
  have hpos := Parse.program_position_lt_of_semicolon (closed_of_lexed (htokens ▸ hl)) herror
  obtain ⟨i, hi⟩ : ∃ i, g.position = i + 1 := ⟨g.position - 1, by omega⟩
  have htoken : tokens[i + 1]? = some g.current := by
    rw [← hi, ← hcurrent]
    exact List.getElem?_eq_getElem hlt
  obtain ⟨hlt', htoken⟩ := List.getElem?_eq_some_iff.mp htoken
  obtain ⟨-, n, -, -, hline, -⟩ := exists_faulty_of_found ht (ofTokens_of_program hstart herror)
  obtain ⟨message, advice, hfaulty⟩ :=
    exists_faulty_of_semicolon ht (ofTokens_of_program hstart herror) hline
  refine ⟨i, hlt', n, message, _, advice, hi, htoken, hline, hfaulty, fun hbig => ?_,
    fun hsmall => ?_⟩
  · rw [if_neg (Nat.not_lt.mpr hbig)]
  · rw [if_pos hsmall]
    refine ⟨rfl, ?_⟩
    cases followsUnfinished code n
    · simp [eq_comm]
    · simp only [if_true, Bool.true_eq_false, false_and, true_and, false_or]
      omega

end

/-- The semicolon is missing at the end of the line before. -/
theorem missed_semicolon_line_iff_next :
    let tokens : List Token := [⟨.identifier, "x", 1, 1⟩, ⟨.assign, "=", 1, 3⟩,
      ⟨.number, .int 1, 1, 5⟩, ⟨.identifier, "y", 2, 1⟩, ⟨.assign, "=", 2, 3⟩,
      ⟨.number, .int 2, 2, 5⟩, ⟨.semicolon, ";", 2, 6⟩, ⟨.endOfInput, .absent, 2, 6⟩]
    Token.ofText "x = 1\ny = 2;" = .ok tokens ∧
      Node.ofTokens tokens =
        .error (.found ⟨.identifier, "y", 2, 1⟩ (.expected .semicolon .identifier)) ∧
      ∃ message advice, Diagnosis.ofCode "x = 1\ny = 2;" =
        .faulty message tokens[2].line advice := by
  intro tokens
  have ht : Token.ofText "x = 1\ny = 2;" = .ok tokens := by decide +kernel
  have herror : Parse.program ⟨⟨.identifier, "x", 1, 1⟩, tokens.tail, 0⟩ =
      .error (.found ⟨.identifier, "y", 2, 1⟩ (.expected .semicolon .identifier))
        ⟨⟨.identifier, "y", 2, 1⟩, tokens.drop 4, 3⟩ := rfl
  obtain ⟨i, _, n, message, line, advice, hi, -, hn, hfaulty, -, hlines⟩ :=
    missed_semicolon_line_iff ht rfl herror
  obtain rfl : 2 = i := Nat.succ.inj hi
  obtain rfl : 2 = n := Int.ofNat.inj hn
  have hline := (hlines (lt_limit_of_lt_ten (by decide))).2.mpr (.inr ⟨by decide +kernel, rfl⟩)
  rw [hline] at hfaulty
  exact ⟨ht, rfl, message, advice, hfaulty⟩

/-- A semicolon is missed behind a token of the one line, and the other line is diagnosed. -/
def MissedBehind (code : String) (last line : Int) : Prop :=
  ∃ (tokens : List Token) (i : ℕ) (t : Token) (got : Kind) (message : String)
    (advice : List String), Token.ofText code = .ok tokens ∧
    Node.ofTokens tokens = .error (.found t (.expected .semicolon got)) ∧
    tokens[i]?.map Token.line = some last ∧ tokens[i + 1]? = some t ∧
    Diagnosis.ofCode code = .faulty message line advice

theorem missedBehind_of_ofText {code : String} {tokens : List Token} {i n : ℕ} {t : Token}
    {got : Kind}
    {last : Int} (ht : Token.ofText code = .ok tokens)
    (he : Node.ofTokens tokens = .error (.found t (.expected .semicolon got)))
    (hlast : tokens[i]?.map Token.line = some last) (hnext : tokens[i + 1]? = some t)
    (hline : t.line = n) (hn : n < 10) :
    MissedBehind code last (if followsUnfinished code n then (n : Int) - 1 else n) := by
  obtain ⟨message, advice, hfaulty⟩ := exists_faulty_of_semicolon ht he hline
  rw [if_pos (lt_limit_of_lt_ten hn)] at hfaulty
  exact ⟨tokens, i, t, got, message, advice, ht, he, hlast, hnext, hfaulty⟩

/-- The wrong line is diagnosed beyond an empty line, after a comment that ends in a semicolon and
after the beginning of a block. -/
theorem missed_semicolon_lines_wrong :
    MissedBehind "x = 1\n\ny = 2;" 1 3 ∧ MissedBehind "x = 1 // y;\nz = 2;" 1 2 ∧
      MissedBehind "if (true) \x7b\n\x7d x = 1;" 2 1 := by
  refine ⟨?_, ?_, ?_⟩
  · have ht : Token.ofText "x = 1\n\ny = 2;" = .ok [⟨.identifier, "x", 1, 1⟩, ⟨.assign, "=", 1, 3⟩,
        ⟨.number, .int 1, 1, 5⟩, ⟨.identifier, "y", 3, 1⟩, ⟨.assign, "=", 3, 3⟩,
        ⟨.number, .int 2, 3, 5⟩, ⟨.semicolon, ";", 3, 6⟩, ⟨.endOfInput, .absent, 3, 6⟩] := by
      decide +kernel
    exact missedBehind_of_ofText ht rfl (i := 2) rfl rfl (n := 3) rfl (by decide)
  · have ht : Token.ofText "x = 1 // y;\nz = 2;" = .ok [⟨.identifier, "x", 1, 1⟩,
        ⟨.assign, "=", 1, 3⟩, ⟨.number, .int 1, 1, 5⟩, ⟨.identifier, "z", 2, 1⟩,
        ⟨.assign, "=", 2, 3⟩, ⟨.number, .int 2, 2, 5⟩, ⟨.semicolon, ";", 2, 6⟩,
        ⟨.endOfInput, .absent, 2, 6⟩] := by
      decide +kernel
    exact missedBehind_of_ofText ht rfl (i := 2) rfl rfl (n := 2) rfl (by decide)
  · have ht : Token.ofText "if (true) \x7b\n\x7d x = 1;" = .ok [⟨.ifWord, "if", 1, 1⟩,
        ⟨.leftParen, "(", 1, 4⟩, ⟨.boolValue, "true", 1, 5⟩, ⟨.rightParen, ")", 1, 9⟩,
        ⟨.leftBrace, .text "\x7b", 1, 11⟩, ⟨.rightBrace, .text "\x7d", 2, 1⟩,
        ⟨.identifier, "x", 2, 3⟩, ⟨.assign, "=", 2, 5⟩, ⟨.number, .int 1, 2, 7⟩,
        ⟨.semicolon, ";", 2, 8⟩, ⟨.endOfInput, .absent, 2, 8⟩] := by
      decide +kernel
    exact missedBehind_of_ofText ht rfl (i := 5) rfl rfl (n := 2) rfl (by decide)

end DrawPlus
