import DrawPlus.Proofs.Scanning.Rendering

/-!
# Whatever separates the lexemes

A sentence is what tokens say one after the other, with each point directly between two words. It is
written down with separators of one's choice: a blank, and then any mix of blanks and comments that
are closed. Reading gives the sentence back, whichever separators were chosen (`ofText_render`).

The points bind: a word with all the points and words after it is one lexeme, so a sentence is gone
through lexeme by lexeme (`Sentence.begins`), and each one stops where its separator begins.
-/

namespace DrawPlus

/-! ## Sentences -/

/-- What a token other than a point can say. -/
inductive Sayable : Kind × Value → Prop
  | word {w : String} : IsWord w → Sayable (.ofWord w, w)
  | integer {n : ℕ} : n < 10 ^ maxIntegerDigits → Sayable (.number, .int n)
  | sign {k : Kind} {w : String} : k.sign? = some w → k ≠ .modulo → k ≠ .dot → Sayable (k, w)

/-- What tokens say one after the other, with each point directly between two words. -/
inductive Sentence : List (Kind × Value) → Prop
  | nil : Sentence []
  | cons {k : Kind × Value} {ks : List (Kind × Value)} : Sayable k → Sentence ks →
      Sentence (k :: ks)
  | joined {v w : String} {ks : List (Kind × Value)} : IsWord v → IsWord w →
      Sentence ((.ofWord w, w) :: ks) →
      Sentence ((.ofWord v, v) :: (.dot, ".") :: (.ofWord w, w) :: ks)

/-! ## Separators -/

/-- Any mix of blanks, closed block comments, and line comments up to their line feeds. -/
inductive Filler : List Char → Prop
  | nil : Filler []
  | blank {c : Char} {s : List Char} : isGap c = true → Filler s → Filler (c :: s)
  | block {body s : List Char} : ¬['*', '/'] <:+: body → Filler s →
      Filler ('/' :: '*' :: (body ++ '*' :: '/' :: s))
  | line {body s : List Char} : '\n' ∉ body → Filler s → Filler ('/' :: '/' :: (body ++ '\n' :: s))

/-- A blank, and then any mix of blanks and comments. -/
def Separator (s : List Char) : Prop := ∃ c rest, s = c :: rest ∧ isGap c = true ∧ Filler rest

/-- The lexemes in order, with nothing around a point. Between two others stands a separator, which
is chosen by the number of lexemes behind it. -/
def render (separator : ℕ → List Char) : List (Kind × Value) → List Char
  | [] => []
  | [k] => k.2.display.toList
  | k :: k' :: ks => k.2.display.toList ++
      ((if k.1 = .dot ∨ k'.1 = .dot then [] else separator (ks.length + 1)) ++
        render separator (k' :: ks))

/-- What is written after a lexeme, up to the end. -/
def renderAfter (separator : ℕ → List Char) : List (Kind × Value) → List Char
  | [] => []
  | k :: ks => separator (ks.length + 1) ++ render separator (k :: ks)

namespace Sentence

variable {k : Kind × Value} {ks : List (Kind × Value)} (separator : ℕ → List Char)

theorem ofWord_ne_dot (w : String) : Kind.ofWord w ≠ .dot :=
  Scan.ofWord_ne (by decide) (by decide) w

theorem ne_dot_of_sayable (h : Sayable k) : k.1 ≠ .dot := by
  cases h with
  | word hw => exact ofWord_ne_dot _
  | integer hn => simp
  | sign hw hm hd => exact hd

theorem head_ne_dot (h : Sentence (k :: ks)) : k.1 ≠ .dot := by
  cases h with
  | cons hk _ => exact ne_dot_of_sayable hk
  | joined _ _ _ => exact ofWord_ne_dot _

/-- What is no point is written, and then a separator if more is to come. -/
theorem render_cons (hk : k.1 ≠ .dot) (hks : Sentence ks) :
    render separator (k :: ks) = k.2.display.toList ++ renderAfter separator ks := by
  cases ks with
  | nil => simp [render, renderAfter]
  | cons k' ks => simp [render, renderAfter, hk, head_ne_dot hks]

theorem render_joined (v : String) {w : String} :
    render separator ((.ofWord v, v) :: (.dot, ".") :: (.ofWord w, w) :: ks) =
      v.toList ++ '.' :: render separator ((.ofWord w, w) :: ks) := by
  simp [render, Value.display]

/-! ## A sentence lexeme by lexeme -/

/-- A sentence that begins with a word begins with all that points join to it. -/
theorem exists_words (h : Sentence ks) {w : String} {tail : List (Kind × Value)}
    (hks : ks = (.ofWord w, .text w) :: tail) :
    ∃ more rest, (∀ v ∈ more, IsWord v) ∧ ks = (Lexeme.words w more).said ++ rest ∧
      Sentence rest ∧
      render separator ks = (Lexeme.words w more).text ++ renderAfter separator rest := by
  induction h generalizing w tail with
  | nil => cases hks
  | @cons k ks hk hrest ih =>
    cases hks
    refine ⟨[], ks, by simp, rfl, hrest, ?_⟩
    rw [render_cons separator (ofWord_ne_dot w) hrest]
    simp [Lexeme.text, Lexeme.dotted, Value.display]
  | @joined v w' ks hv hw hrest ih =>
    simp only [List.cons.injEq, Prod.mk.injEq, Value.text.injEq] at hks
    obtain ⟨⟨-, rfl⟩, -⟩ := hks
    obtain ⟨more, rest, hmore, hsaid, hsentence, htext⟩ := ih rfl
    refine ⟨w' :: more, rest, List.forall_mem_cons.mpr ⟨hw, hmore⟩, ?_, hsentence, ?_⟩
    · rw [hsaid]
      simp [Lexeme.said]
    · rw [render_joined, htext]
      simp [Lexeme.text, Lexeme.dotted]

/-- Every operator and delimiter but the percent sign and the point can be read. -/
theorem legible_sign {k : Kind} {w : String} (h : k.sign? = some w) (hm : k ≠ .modulo)
    (hd : k ≠ .dot) : (Lexeme.sign k).Legible := by
  -- the first character of the spelling decides, alone or with an equals sign after it
  cases k with
  | modulo => exact absurd rfl hm
  | dot => exact absurd rfl hd
  | plus | minus | times | slash | less | greater | assign =>
    exact .operator (w.toList.headD ' ') (by cases h; decide) (by cases h; decide)
  | plusEqual | minusEqual | timesEqual | slashEqual | lessEqual | greaterEqual | equal
  | notEqual =>
    exact .operatorEqual (w.toList.headD ' ') (by cases h; decide) (by cases h; decide)
  | semicolon | comma | leftParen | rightParen | leftBrace | rightBrace =>
    exact .delimiter (w.toList.headD ' ') (by cases h; decide)
  | _ => cases h

/-- A sentence begins with a lexeme that can be read, and the rest of it is a sentence. -/
def Begins (separator : ℕ → List Char) (ks : List (Kind × Value)) : Prop :=
  ∃ (l : Lexeme) (rest : List (Kind × Value)), l.Legible ∧ ks = l.said ++ rest ∧ Sentence rest ∧
    render separator ks = l.text ++ renderAfter separator rest

theorem begins_word {w : String} (hw : IsWord w) (h : Sentence ((.ofWord w, .text w) :: ks)) :
    Begins separator ((.ofWord w, .text w) :: ks) := by
  obtain ⟨more, rest, hmore, hsaid, hrest, htext⟩ := exists_words separator h rfl
  exact ⟨.words w more, rest, .words hw hmore, hsaid, hrest, htext⟩

theorem begins (h : Sentence (k :: ks)) : Begins separator (k :: ks) := by
  cases h with
  | cons hk hrest =>
    have htext := render_cons separator (ne_dot_of_sayable hk) hrest
    cases hk with
    | word hw => exact begins_word separator hw (.cons (.word hw) hrest)
    | @integer n hn => exact ⟨.number (.int n), ks, .number hn, rfl, hrest, htext⟩
    | @sign k w hsign hm hd =>
      refine ⟨.sign k, ks, legible_sign hsign hm hd, ?_, hrest, ?_⟩
      · simp [Lexeme.said, hsign]
      · rw [htext]
        simp [Lexeme.text, hsign, Value.display]
  | joined hv hw hrest => exact begins_word separator hv (.joined hv hw hrest)

theorem length_said_pos (l : Lexeme) : 0 < l.said.length := by
  cases l <;> simp [Lexeme.said]

end Sentence

namespace Scan

/-! ## Reading over separators -/

theorem outcome_filler {s : List Char} (h : Filler s) (before rest : List Char) :
    outcome before (s ++ rest) = outcome (before ++ s) rest := by
  induction h generalizing before with
  | nil => simp
  | @blank c s hc _ ih =>
    rw [List.cons_append, outcome_blank hc, ih]
    simp
  | @block body s hbody _ ih =>
    have hgap := @outcome_gap _ (s ++ rest) (.block hbody) before
    rw [ih] at hgap
    simpa using hgap
  | @line body s hbody _ ih =>
    have hgap := @outcome_gap _ ('\n' :: (s ++ rest)) (.line hbody (.inr rfl)) before
    rw [outcome_blank rfl, ih] at hgap
    simpa using hgap

theorem outcome_separator {s : List Char} (h : Separator s) (before rest : List Char) :
    outcome before (s ++ rest) = outcome (before ++ s) rest := by
  obtain ⟨c, s, rfl, hc, hs⟩ := h
  exact outcome_filler (.blank hc hs) before rest

theorem stops_renderAfter {separator : ℕ → List Char} (hsep : ∀ i, Separator (separator i))
    (ks : List (Kind × Value)) : Stops (renderAfter separator ks) := by
  intro d hd
  cases ks with
  | nil => cases hd
  | cons k ks =>
    obtain ⟨c, rest, hs, hc, -⟩ := hsep (ks.length + 1)
    rw [renderAfter, hs] at hd
    cases hd
    exact hc

/-! ## Reading sentences -/

/-- A sentence is read as what it says, wherever it is written. -/
theorem map_said_outcome_render {separator : ℕ → List Char} (hsep : ∀ i, Separator (separator i))
    {ks : List (Kind × Value)} (hks : Sentence ks) (before : List Char) :
    (outcome before (render separator ks)).map (List.map Token.said) =
      .ok (ks ++ [(.endOfInput, .absent)]) := by
  induction hn : ks.length using Nat.strong_induction_on generalizing ks before with
  | _ n ih =>
    subst hn
    by_cases hne : ks = []
    · subst hne
      rw [render, outcome_end]
      rfl
    obtain ⟨l, rest, hl, rfl, hrest, htext⟩ : Sentence.Begins separator ks := by
      obtain ⟨k, tail, rfl⟩ := List.exists_cons_of_ne_nil hne
      exact hks.begins separator
    have hshorter : rest.length < (l.said ++ rest).length := by
      simpa using Sentence.length_said_pos l
    have hitem := outcome_item (item_of_legible hl (stops_renderAfter hsep rest)) before
    -- what follows the lexeme reads as the rest of the sentence, over the separator if there is one
    have hafter :
        (outcome (before ++ l.text) (renderAfter separator rest)).map (List.map Token.said) =
        .ok (rest ++ [(.endOfInput, .absent)]) := by
      cases rest with
      | nil =>
        rw [renderAfter, outcome_end]
        rfl
      | cons k rest =>
        rw [renderAfter, outcome_separator (hsep _)]
        exact ih _ hshorter hrest _ rfl
    rw [htext, hitem]
    cases hread : outcome (before ++ l.text) (renderAfter separator rest) with
    | error e =>
      rw [hread] at hafter
      cases hafter
    | ok ts =>
      simp only [hread, Except.map, Except.ok.injEq] at hafter
      simp [Except.map, hafter, Lexeme.map_said_behind]

end Scan

/-- Reading a sentence gives it back with the closing token after it, whichever separators were
chosen. -/
theorem ofText_render {separator : ℕ → List Char} (hsep : ∀ i, Separator (separator i))
    {ks : List (Kind × Value)} (hks : Sentence ks) :
    (Token.ofText (String.ofList (render separator ks))).map (List.map Token.said) =
      .ok (ks ++ [(.endOfInput, .absent)]) := by
  rw [Scan.ofText_eq_outcome, String.toList_ofList]
  exact Scan.map_said_outcome_render hsep hks []

/-- A line feed after signs that would open a comment, and comments with stars and slashes in
them. -/
theorem ofText_render_commented :
    let separator : ℕ → List Char := fun i => '\r' :: "/*/ * **///x/*\n".toList ++
      List.replicate i '\t'
    let ks : List (Kind × Value) := [(.ofWord "c", "c"), (.dot, "."), (.ofWord "move", "move"),
      (.slash, "/"), (.times, "*"), (.number, .int 10), (.assign, "="), (.equal, "==")]
    (∀ i, Separator (separator i)) ∧ Sentence ks ∧
      (Token.ofText (String.ofList (render separator ks))).map (List.map Token.said) =
        .ok (ks ++ [(.endOfInput, .absent)]) := by
  intro separator ks
  have htabs : ∀ i, Filler (List.replicate i '\t') := by
    intro i
    induction i with
    | zero => exact .nil
    | succ i ih => exact .blank rfl ih
  have hsep : ∀ i, Separator (separator i) := fun i =>
    ⟨'\r', _, rfl, rfl, @Filler.block "/ * *".toList _ (by decide)
      (@Filler.line "x/*".toList _ (by decide) (htabs i))⟩
  have hc : IsWord "c" := ⟨'c', [], rfl, by simp [isWordStart_of_ascii], by simp⟩
  have hmove : IsWord "move" := ⟨'m', ['o', 'v', 'e'], rfl, by simp [isWordStart_of_ascii],
    by simp [isWordChar_of_ascii]⟩
  have hten : 10 < 10 ^ maxIntegerDigits := by
    calc 10 < 10 ^ 2 := by norm_num
      _ ≤ 10 ^ maxIntegerDigits := Nat.pow_le_pow_right (by norm_num) (by decide)
  have hks : Sentence ks :=
    .joined hc hmove <| .cons (.word hmove) <| .cons (.sign rfl (by decide) (by decide)) <|
      .cons (.sign rfl (by decide) (by decide)) <| .cons (.integer hten) <|
      .cons (.sign rfl (by decide) (by decide)) <| .cons (.sign rfl (by decide) (by decide)) .nil
  exact ⟨hsep, hks, ofText_render hsep hks⟩

end DrawPlus
