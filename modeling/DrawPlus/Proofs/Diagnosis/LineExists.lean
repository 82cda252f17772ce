import DrawPlus.Proofs.Diagnosis.LexicalLines
import DrawPlus.Proofs.Diagnosis.RuleLines

/-!
# The line of a diagnosis is a line of the code

The line of a diagnosis is found again in its message. For errors about characters it is the line
where reading stopped, and for errors of the grammar the line of a token. Errors about rules come
without a line, and the first one is taken. All of these are lines of the code. The only exception
is a broken rule on a name that itself reads like a line with its number, and then the diagnosis
gives that number (`diagnosed_line_exists_iff`).
-/

namespace DrawPlus

def IsLineOf (code : String) (line : Int) : Prop :=
  1 ≤ line ∧ line ≤ (Text.lines code.toList).length

/-- The code breaks a rule on a name that reads like a line with the number. -/
def BlamesLine (code : String) (n : ℕ) : Prop :=
  ∃ tree e w, Node.ofText code = .ok tree ∧ tree.check = .error e ∧
    ScopeError.name? e = some (.text w) ∧ ReadsAsLine w n

theorem isLineOf_one (code : String) : IsLineOf code 1 := by
  have hpos := List.length_pos_of_ne_nil (Text.lines_ne_nil code.toList)
  unfold IsLineOf
  omega

theorem isLineOf_asNamed {code : String} {n : ℕ} (hpos : 1 ≤ n)
    (hle : n ≤ (Text.lines code.toList).length) : IsLineOf code (Diagnosis.asNamed n) := by
  unfold Diagnosis.asNamed
  split_ifs
  · unfold IsLineOf
    omega
  · exact isLineOf_one code

namespace Diagnosis

open Text

/-- Where a semicolon is missing the line may be moved to the one before, and that is a line of the
code if and only if the named one is. -/
theorem isLineOf_lineOf (message : List Char) (code : String) :
    IsLineOf code (lineOf message code.toList) ↔ IsLineOf code (namedLine message) := by
  unfold lineOf IsLineOf
  dsimp only
  split_ifs with hmoved hrange
  · split
    · split_ifs
      · simp only [Bool.and_eq_true, decide_eq_true_eq] at hmoved
        omega
      · exact Iff.rfl
    · exact Iff.rfl
  · exact Iff.rfl
  · exact Iff.rfl

end Diagnosis

/-! ## Errors about characters -/

theorem Halt.isPrefix {rest read : List Char} {f : Fault} (h : Halt rest read f) :
    read <+: rest := by
  cases h with
  | stranger rest => exact ⟨rest, rfl⟩
  | @mark rest => exact List.cons_prefix_cons.mpr ⟨rfl, List.take_prefix 1 rest⟩
  | @strayDot first more rest =>
    rw [List.prefix_append_right_inj, List.prefix_append_right_inj, List.cons_prefix_cons]
    exact ⟨rfl, List.take_prefix 1 rest⟩
  | secondPoint rest => exact ⟨rest, by simp⟩
  | integer => exact List.prefix_append _ _
  | decimal => exact List.prefix_append _ _

theorem Raises.isPrefix {rest read : List Char} {f : Fault} (h : Raises rest read f) :
    read <+: rest := by
  induction h with
  | halt h => exact h.isPrefix
  | item _ _ ih => exact (List.prefix_append_right_inj _).mpr ih
  | mark _ _ ih => exact List.cons_prefix_cons.mpr ⟨rfl, ih⟩

theorem isLineOf_of_lexical {code : String} {e : LexicalError} (h : Token.ofText code = .error e) :
    IsLineOf code (Diagnosis.namedLine e.message.toList) := by
  rw [Diagnosis.namedLine_message (plain_of_ofText h)]
  rw [Scan.ofText_eq_outcome] at h
  obtain ⟨read, f, hraises, rfl⟩ := Scan.raises_of_outcome h
  rw [List.nil_append, Fault.elim_line?_after]
  split_ifs
  · exact isLineOf_one code
  · -- only a beginning of the code has been read
    obtain ⟨more, hcode⟩ := hraises.isPrefix
    have happend := Text.endLine_append read more
    rw [hcode, Text.endLine, Text.endLine] at happend
    have hpos := List.length_pos_of_ne_nil (Text.lines_ne_nil read)
    rw [Text.endLine]
    exact ⟨by omega, by omega⟩

/-! ## Errors of the grammar -/

theorem isLineOf_of_grammar {code message : String} {tokens : List Token} {e : SyntaxError}
    (ht : Token.ofText code = .ok tokens) (he : Node.ofTokens tokens = .error e)
    (hm : e.message? = some message) : IsLineOf code (Diagnosis.namedLine message.toList) := by
  have hlexed := lexed_of_ofText ht
  obtain ⟨t, c, rfl⟩ := found_of_ofTokens hlexed he
  obtain ⟨hmem, hc⟩ := speaksOf_of_ofTokens hlexed he
  obtain ⟨hvalue, n, m, hline, hcolumn, hpos, hle⟩ := Diagnosis.exists_place_of_ofText ht hmem
  rw [Diagnosis.namedLine_found (hlexed.isNative t hmem) hvalue hc hline hcolumn hm]
  exact isLineOf_asNamed hpos hle

/-! ## Errors about rules -/

section

variable {code : String} {tree : Node} {e : ScopeError}

/-- A name that reads like a line gives the diagnosis its line. -/
theorem lineOf_of_blamesLine (hn : Node.ofText code = .ok tree) (hc : tree.check = .error e) {n : ℕ}
    (h : BlamesLine code n) : Diagnosis.lineOf e.message.toList code.toList = n := by
  obtain ⟨tree', e', w, hn', hc', hname, hline⟩ := h
  obtain rfl : tree = tree' := Except.ok.inj (hn.symm.trans hn')
  obtain rfl : e = e' := Except.error.inj (hc.symm.trans hc')
  have hw := (isOrdinary_of_check hn hc).isName hname
  rw [Diagnosis.lineOf_of_name? hw hname, Diagnosis.namedLine_of_readsAsLine hw hname hline]

theorem namedLine_of_not_blamesLine (hn : Node.ofText code = .ok tree) (hc : tree.check = .error e)
    (h : ∀ n, ¬BlamesLine code n) : Diagnosis.namedLine e.message.toList = 1 := by
  have hordinary := isOrdinary_of_check hn hc
  cases hname : e.name? with
  | none => exact Diagnosis.namedLine_of_isOrdinary hordinary hname
  | some name =>
    obtain ⟨w, rfl⟩ : ∃ w, name = .text w := by
      cases hordinary with
      | name hsome => exact ⟨_, Option.some.inj (hname.symm.trans hsome)⟩
      | _ => cases hname
    exact Diagnosis.namedLine_of_not_readsAsLine (hordinary.isName hname) hname fun n hline =>
      h n ⟨tree, e, w, hn, hc, hname, hline⟩

end

/-! ## All phases -/

theorem failsFirst_of_faulty {code message : String} {line : Int} {advice : List String}
    (h : Diagnosis.ofCode code = .faulty message line advice) :
    (∃ phase, FailsFirst code phase message) ∧
      Diagnosis.lineOf message.toList code.toList = line := by
  rcases accepted_or_failsFirst code with ⟨tree, hn, hc⟩ | ⟨phase, message', hfails⟩
  · rw [Diagnosis.ofCode_of_accepted hn hc] at h
    cases h
  · cases hblank : Text.isAllBlank code.toList with
    | true =>
      rw [Diagnosis.ofCode, if_pos hblank] at h
      cases h
    | false =>
      obtain ⟨advice', hfaulty⟩ := Diagnosis.ofCode_eq_of_failsFirst hblank hfails
      rw [h] at hfaulty
      cases hfaulty
      exact ⟨⟨phase, hfails⟩, rfl⟩

/-- A name that reads like a line is blamed by the rules, after the other phases have passed. -/
theorem FailsFirst.lineOf {code message : String} {phase : Phase}
    (h : FailsFirst code phase message)
    {n : ℕ} (hn : BlamesLine code n) : Diagnosis.lineOf message.toList code.toList = n := by
  have ⟨tree, _, _, htree, _⟩ := hn
  obtain ⟨tokens, htokens, htree⟩ := exists_ofTokens_of_ofText htree
  cases h with
  | characters ht =>
    rw [ht] at htokens
    cases htokens
  | grammar ht he =>
    obtain rfl := Except.ok.inj (ht.symm.trans htokens)
    rw [he] at htree
    cases htree
  | rules hn' hc => exact lineOf_of_blamesLine hn' hc hn

theorem FailsFirst.isLineOf {code message : String} {phase : Phase}
    (h : FailsFirst code phase message) (hn : ∀ n, ¬BlamesLine code n) :
    IsLineOf code (Diagnosis.lineOf message.toList code.toList) := by
  rw [Diagnosis.isLineOf_lineOf]
  cases h with
  | characters ht => exact isLineOf_of_lexical ht
  | grammar ht he hm => exact isLineOf_of_grammar ht he hm
  | rules hn' hc =>
    rw [namedLine_of_not_blamesLine hn' hc hn]
    exact isLineOf_one code

/-- The line of a diagnosis is the one found in its message, and if a rule is broken on a name that
reads like a line, it is that one. So it is a line of the code if and only if no such name reads
like a line that the code does not have. -/
theorem diagnosed_line_exists_iff {code message : String} {line : Int} {advice : List String}
    (h : Diagnosis.ofCode code = .faulty message line advice) :
    Diagnosis.lineOf message.toList code.toList = line ∧
    (∀ n, BlamesLine code n → line = n) ∧
    (IsLineOf code line ↔ ∀ n, BlamesLine code n → IsLineOf code n) := by
  obtain ⟨⟨phase, hfails⟩, rfl⟩ := failsFirst_of_faulty h
  refine ⟨rfl, fun n hn => hfails.lineOf hn, fun hline n hn => ?_, fun hall => ?_⟩
  · rwa [hfails.lineOf hn] at hline
  · by_cases hblames : ∃ n, BlamesLine code n
    · obtain ⟨n, hn⟩ := hblames
      rw [hfails.lineOf hn]
      exact hall n hn
    · exact hfails.isLineOf fun n hn => hblames ⟨n, hn⟩

/-- The name reads like the second line, which the code has. -/
theorem diagnosed_line_exists_iff_named :
    Diagnosis.ofCode "line2 = 1;\n" = .faulty "Variable line2 not declared" 2
      (Diagnosis.declarationsOf "line2") ∧
    Diagnosis.lineOf "Variable line2 not declared".toList "line2 = 1;\n".toList = 2 ∧
    (∀ n, BlamesLine "line2 = 1;\n" n → (2 : Int) = n) ∧
    (IsLineOf "line2 = 1;\n" 2 ↔ ∀ n, BlamesLine "line2 = 1;\n" n → IsLineOf "line2 = 1;\n" n) := by
  have hfaulty : Diagnosis.ofCode "line2 = 1;\n" = .faulty "Variable line2 not declared" 2
      (Diagnosis.declarationsOf "line2") := by decide +kernel
  exact ⟨hfaulty, diagnosed_line_exists_iff hfaulty⟩

/-- Two codes of one line, with names that read like another one. -/
theorem diagnosed_lines_missing :
    (BlamesLine "line5 = 1;" 5 ∧
      (∃ message advice, Diagnosis.ofCode "line5 = 1;" = .faulty message 5 advice) ∧
      ¬IsLineOf "line5 = 1;" 5) ∧
    (∃ message advice, Diagnosis.ofCode "line0 = 1;" = .faulty message 0 advice) ∧
      ¬IsLineOf "line0 = 1;" 0 := by
  have hfive : Diagnosis.ofCode "line5 = 1;" = .faulty "Variable line5 not declared" 5
      (Diagnosis.declarationsOf "line5") := by decide +kernel
  have hzero : Diagnosis.ofCode "line0 = 1;" = .faulty "Variable line0 not declared" 0
      (Diagnosis.declarationsOf "line0") := by decide +kernel
  have htokens : Token.ofText "line5 = 1;" =
      .ok [⟨.identifier, "line5", 1, 1⟩, ⟨.assign, "=", 1, 7⟩,
      ⟨.number, .int 1, 1, 9⟩, ⟨.semicolon, ";", 1, 10⟩, ⟨.endOfInput, .absent, 1, 10⟩] := by
    decide +kernel
  have hreads : ReadsAsLine "line5" 5 :=
    ⟨[], ['5'], [], by decide, by decide, .inl rfl, by decide⟩
  have hblames : BlamesLine "line5 = 1;" 5 :=
    ⟨.program [.assign "line5" (.number (.int 1))], .undeclared "line5", "line5",
      ofText_of_ofTokens htokens rfl, rfl, rfl, hreads⟩
  exact ⟨⟨hblames, ⟨_, _, hfive⟩, by unfold IsLineOf; decide⟩, ⟨_, _, hzero⟩,
    by unfold IsLineOf; decide⟩

end DrawPlus
