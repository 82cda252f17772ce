import DrawPlus.Proofs.Building.Runs
import DrawPlus.Proofs.Diagnosis.Phrases
import DrawPlus.Proofs.Parsing.Progress

/-!
# The diagnosis and the build agree

Code is diagnosed in the editor and built from a file by two separate drivers of the same phases.
They come to the same verdict on it, and the message of the diagnosis is the error that the build
reports.

The diagnosis draws a line and advice from the message and could stumble over it, which would put
another message in its place. That it never does is the matter of
`DrawPlus.Proofs.Diagnosis.Phrases`. That the grammar always has a message for what it refuses is
the matter of `DrawPlus.Proofs.Parsing.Progress`.
-/

namespace DrawPlus

inductive Phase where
  | characters
  | grammar
  | rules
deriving DecidableEq

/-- The words in front of the error of a phase in the report of a build. -/
def Phase.label : Phase → String
  | .characters | .grammar => "❌ Unexpected error: "
  | .rules => "❌ Compilation error (Semantic): "

/-- The first phase that fails on the code, and its error text. -/
inductive FailsFirst (code : String) : Phase → String → Prop
  | characters {e : LexicalError} : Token.ofText code = .error e →
      FailsFirst code .characters e.message
  | grammar {tokens : List Token} {e : SyntaxError} {message : String} :
      Token.ofText code = .ok tokens → Node.ofTokens tokens = .error e →
      e.message? = some message → FailsFirst code .grammar message
  | rules {tree : Node} {e : ScopeError} : Node.ofText code = .ok tree → tree.check = .error e →
      FailsFirst code .rules e.message

/-- Either the code is accepted or a first phase fails, with a message. -/
theorem accepted_or_failsFirst (code : String) :
    (∃ tree, Node.ofText code = .ok tree ∧ tree.check = .ok ()) ∨
      ∃ phase message, FailsFirst code phase message := by
  cases ht : Token.ofText code with
  | error e => exact .inr ⟨_, _, .characters ht⟩
  | ok tokens =>
    cases hn : Node.ofTokens tokens with
    | error e =>
      obtain ⟨t, c, rfl⟩ := found_of_ofTokens (lexed_of_ofText ht) hn
      exact .inr ⟨_, _, .grammar ht hn rfl⟩
    | ok tree =>
      have htree := ofText_of_ofTokens ht hn
      cases hc : tree.check with
      | error e => exact .inr ⟨_, _, .rules htree hc⟩
      | ok _ => exact .inl ⟨tree, htree, hc⟩

/-! ## The diagnosis -/

namespace Diagnosis

variable {code : String}

theorem ofCode_of_accepted {tree : Node} (hn : Node.ofText code = .ok tree)
    (hc : tree.check = .ok ()) : ofCode code = .clean := by
  obtain ⟨tokens, ht, hn⟩ := exists_ofTokens_of_ofText hn
  unfold ofCode
  split_ifs
  · rfl
  · simp only [ht, hn, hc]

/-- Code that is not blank is found faulty for the first phase that fails on it, in the line that
the message is about. -/
theorem ofCode_eq_of_failsFirst (hcode : Text.isAllBlank code.toList = false) {phase : Phase}
    {message : String} (h : FailsFirst code phase message) :
    ∃ advice, ofCode code = .faulty message (lineOf message.toList code.toList) advice := by
  unfold ofCode
  rw [if_neg (by simp [hcode])]
  cases h with
  | characters ht =>
    simp only [ht, lexicalFault, not_wantsSemicolon (plain_of_ofText ht)]
    exact ⟨_, rfl⟩
  | grammar ht hn hm =>
    simp only [ht, hn, hm]
    exact ⟨_, rfl⟩
  | @rules tree e hn hc =>
    obtain ⟨tokens, ht, hn⟩ := exists_ofTokens_of_ofText hn
    obtain ⟨advice, hadvice⟩ := exists_ruleAdvice? e.message
    simp only [ht, hn, hc, hadvice]
    exact ⟨_, rfl⟩

theorem ofCode_of_failsFirst (hcode : Text.isAllBlank code.toList = false) {phase : Phase}
    {message : String} (h : FailsFirst code phase message) :
    ∃ line advice, ofCode code = .faulty message line advice := by
  obtain ⟨advice, hadvice⟩ := ofCode_eq_of_failsFirst hcode h
  exact ⟨_, advice, hadvice⟩

end Diagnosis

/-! ## The build -/

namespace Builder

variable {b : Builder} {code input : String}

/-- A build of code on which a phase fails reports the error of the phase. -/
theorem compile_of_failsFirst (output : Option String) (hname : isSourceName input = true)
    (hread : b.disk.readText input = .ok code) {phase : Phase} {message : String}
    (h : FailsFirst code phase message) : (b.compile input output).1 = false ∧
      ∃ progress, (b.compile input output).2.report =
        b.report ++ progress ++ "\n" ++ (phase.label ++ message) ++ "\n" := by
  have hfails :
      ∃ e b', examine input b = .error e b' ∧ e.report input = phase.label ++ message := by
    cases h with
    | characters ht =>
      obtain ⟨b', hb'⟩ := examine_of_lexical hname hread ht
      exact ⟨_, b', hb', rfl⟩
    | grammar ht hn hm =>
      obtain ⟨b', hb'⟩ := examine_of_grammar hname hread ht hn
      rw [hm] at hb'
      exact ⟨_, b', hb', rfl⟩
    | rules hn hc =>
      obtain ⟨b', hb'⟩ := examine_of_rules hname hread hn hc
      exact ⟨_, b', hb', rfl⟩
  obtain ⟨e, b', hb', hreport⟩ := hfails
  obtain ⟨progress, hprogress⟩ := (quiet_examine input b b' (.inr ⟨e, hb'⟩)).2
  rw [compile_of_refused hb', hreport, hprogress]
  exact ⟨rfl, progress, rfl⟩

end Builder

open Builder

/-- The diagnosis of code that is not blank finds it clean exactly when a build of it succeeds, and
otherwise its message is the error of the first phase that fails, as the build reports it. The
builder has its configuration, and the output can be written. -/
theorem diagnosis_agrees {b : Builder} {code input : String} {output : Option String}
    (hcode : ∃ c ∈ code.toList, Text.isBlank c = false) (hname : ∃ stem, input = stem ++ ".dpp")
    (hread : b.disk.readText input = .ok code) (hconfigured : b.Configured)
    (hopens : b.disk.Accepts (output.getD (defaultOutput input)))
    (htakes : ∀ text, b.disk.Takes (output.getD (defaultOutput input)) text) :
    (Diagnosis.ofCode code = .clean ↔ (b.compile input output).1 = true) ∧
    ∀ message line advice, Diagnosis.ofCode code = .faulty message line advice →
      ∃ phase progress, FailsFirst code phase message ∧ (b.compile input output).2.report =
        b.report ++ progress ++ "\n" ++ (phase.label ++ message) ++ "\n" := by
  have hblank : Text.isAllBlank code.toList = false := by
    obtain ⟨c, hc, hkept⟩ := hcode
    rw [Text.isAllBlank, List.all_eq_false]
    exact ⟨c, hc, by simp [hkept]⟩
  rcases accepted_or_failsFirst code with ⟨tree, hn, hc⟩ | ⟨phase, message, hfails⟩
  · have hclean := Diagnosis.ofCode_of_accepted hn hc
    have hbuilt : (b.compile input output).1 = true := by
      obtain ⟨text, path, -, ⟨-, hok, -⟩ | ⟨hcut, -, -⟩⟩ :=
        compile_of_buildable ⟨hname, ⟨code, tree, hread, hn, hc⟩, hopens⟩ hconfigured
      · exact hok
      · exact absurd (htakes text) hcut
    refine ⟨iff_of_true hclean hbuilt, fun message line advice hfaulty => ?_⟩
    rw [hclean] at hfaulty
    cases hfaulty
  · obtain ⟨line, advice, hfaulty⟩ := Diagnosis.ofCode_of_failsFirst hblank hfails
    obtain ⟨hfailed, progress, hreport⟩ :=
      compile_of_failsFirst output (isSourceName_iff.mpr hname) hread hfails
    refine ⟨iff_of_false (by simp [hfaulty]) (by simp [hfailed]), ?_⟩
    intro message' line' advice' hfaulty'
    rw [hfaulty] at hfaulty'
    cases hfaulty'
    exact ⟨phase, progress, hfails, hreport⟩

/-- A disk with a source file that assigns to a name before it is declared, and with a file for the
spellings. -/
def undeclaredDisk : Disk :=
  ⟨"/home", [(["a.dpp"], .file (.text "x = 1;")), (["spellings"], .file (.text ""))], []⟩

def undeclaredBuilder : Builder :=
  .fresh ⟨"spellings", fun _ => .ok Dialect.standardSource⟩ undeclaredDisk

theorem accepts_undeclaredDisk : undeclaredDisk.Accepts "out/a.c" :=
  @Disk.accepts_of_writable undeclaredDisk (undeclaredDisk.put ["out"] .directory) ["out", "a.c"]
    "out/a.c" rfl rfl

theorem configured_undeclaredBuilder : undeclaredBuilder.Configured := by
  have hread : undeclaredDisk.readText "spellings" = .ok "" := by decide +kernel
  exact ⟨Dialect.standard, ⟨"", Dialect.standardSource, hread, rfl, rfl⟩, rfl⟩

theorem diagnosis_agrees_undeclared :
    undeclaredDisk.readText "a.dpp" = .ok "x = 1;" ∧
    (undeclaredBuilder.compile "a.dpp" (some "out/a.c")).1 = false ∧
    ∃ phase progress, FailsFirst "x = 1;" phase "Variable x not declared" ∧
      (undeclaredBuilder.compile "a.dpp" (some "out/a.c")).2.report =
        "" ++ progress ++ "\n" ++ (phase.label ++ "Variable x not declared") ++ "\n" := by
  have hread : undeclaredDisk.readText "a.dpp" = .ok "x = 1;" := by decide +kernel
  have hfaulty : Diagnosis.ofCode "x = 1;" = .faulty "Variable x not declared" 1
      (Diagnosis.declarationsOf "x") := by decide +kernel
  have hagrees := @diagnosis_agrees undeclaredBuilder "x = 1;" "a.dpp" (some "out/a.c")
    ⟨'x', by decide, by decide⟩ ⟨"a", by decide⟩ hread configured_undeclaredBuilder
    accepts_undeclaredDisk fun _ _ _ _ _ => rfl
  refine ⟨hread, ?_, hagrees.2 _ _ _ hfaulty⟩
  have hfailed := hagrees.1.not.mp (by simp [hfaulty])
  simpa using hfailed

end DrawPlus
