import DrawPlus.Diagnosis.Check
import DrawPlus.Proofs.Characters
import DrawPlus.Proofs.Scanning.Items

/-!
# Phrases in messages

Advice is chosen by phrases that occur in a message and takes names from its pieces. Two facts keep
this from going wrong. A message that asks for a name always has a piece at the place where the name
is looked for, since the phrase itself cuts the message. And no message about the characters of a
text asks for a semicolon: it would have to show two capital letters that such messages do not have.
-/

namespace DrawPlus

namespace Text

/-! ## Where a phrase occurs -/

theorem append_of_cut? {phrase text before after : List Char}
    (h : cut? phrase text = some (before, after)) : text = before ++ phrase ++ after := by
  induction text generalizing before after with
  | nil =>
    unfold cut? at h
    split_ifs at h with hempty
    cases h
    simp [List.isEmpty_iff.mp hempty]
  | cons c rest ih =>
    unfold cut? at h
    split_ifs at h with hprefix
    · cases h
      obtain ⟨tail, htail⟩ := List.isPrefixOf_iff_prefix.mp hprefix
      simp [← htail]
    · obtain ⟨⟨front, back⟩, hcut, heq⟩ := Option.map_eq_some_iff.mp h
      cases heq
      rw [ih hcut]
      rfl

theorem infix_of_hasPhrase {phrase text : List Char} (h : hasPhrase phrase text = true) :
    phrase <:+: text := by
  obtain ⟨⟨before, after⟩, hcut⟩ := Option.isSome_iff_exists.mp h
  exact ⟨before, after, (append_of_cut? hcut).symm⟩

/-! ## Pieces and fields -/

theorem pieces_ne_nil (mark : Char) (text : List Char) : pieces mark text ≠ [] := by
  cases text with
  | nil => simp [pieces]
  | cons c rest =>
    unfold pieces
    split_ifs
    · simp
    · split <;> simp

theorem one_lt_length_pieces {mark : Char} {text : List Char} (h : mark ∈ text) :
    1 < (pieces mark text).length := by
  induction text with
  | nil => cases h
  | cons c rest ih =>
    unfold pieces
    split_ifs with hc
    · simpa using List.length_pos_iff.mpr (pieces_ne_nil mark rest)
    · have hrest : mark ∈ rest := (List.mem_cons.mp h).resolve_left (Ne.symm hc)
      cases hpieces : pieces mark rest with
      | nil => exact absurd hpieces (pieces_ne_nil mark rest)
      | cons first others => simpa [hpieces] using ih hrest

theorem fieldsFrom_ne_nil {field : List Char} (h : field ≠ []) (text : List Char) :
    fieldsFrom field text ≠ [] := by
  induction text generalizing field with
  | nil => simp [fieldsFrom, h]
  | cons c rest ih =>
    unfold fieldsFrom
    split_ifs with hc hempty
    · exact absurd (List.isEmpty_iff.mp hempty) h
    · simp
    · exact ih (by simp)

/-- A blank between two other characters sets two fields apart. -/
theorem one_lt_length_fieldsFrom {c blank d : Char} (hc : isBlank c = false)
    (hblank : isBlank blank = true) (hd : isBlank d = false) (before field after : List Char) :
    1 < (fieldsFrom field (before ++ c :: blank :: d :: after)).length := by
  induction before generalizing field with
  | nil =>
    have hrest := List.length_pos_iff.mpr (fieldsFrom_ne_nil (List.cons_ne_nil d []) after)
    simpa [fieldsFrom, hc, hblank, hd] using hrest
  | cons e before ih =>
    rw [List.cons_append, fieldsFrom]
    split_ifs
    · exact ih []
    · have := ih []
      simp only [List.length_cons]
      omega
    · exact ih _

end Text

namespace Diagnosis

open Text

theorem missingName?_ne_none {text : List Char}
    (h : hasPhrase "not declared".toList text = true) : missingName? text ≠ none := by
  unfold missingName?
  dsimp only
  split_ifs with hmark
  · have hlength := one_lt_length_pieces (List.contains_iff_mem.mp hmark)
    simpa [secondPiece?] using hlength
  · obtain ⟨before, after, rfl⟩ := infix_of_hasPhrase h
    have hlength := @one_lt_length_fieldsFrom 't' ' ' 'd' (by decide) (by decide) (by decide)
      (before ++ ['n', 'o']) [] ("eclared".toList ++ after)
    simpa [fields] using hlength

theorem secondPiece?_ne_none {mark : Char} {phrase text : List Char} (hmark : mark ∈ phrase)
    (h : hasPhrase phrase text = true) : secondPiece? mark text ≠ none := by
  have hlength := one_lt_length_pieces ((infix_of_hasPhrase h).subset hmark)
  simpa [secondPiece?] using hlength

theorem exists_ruleAdvice? (message : String) : ∃ advice, ruleAdvice? message = some advice := by
  unfold ruleAdvice?
  dsimp only
  split_ifs with hdeclared htaken htype hcursor hmethod
  · obtain ⟨name, hname⟩ := Option.ne_none_iff_exists'.mp (missingName?_ne_none hdeclared)
    exact ⟨_, by rw [hname]; rfl⟩
  · exact ⟨_, rfl⟩
  · exact ⟨_, rfl⟩
  · obtain ⟨name, hname⟩ := Option.ne_none_iff_exists'.mp
      (@secondPiece?_ne_none ' ' _ _ (by decide) hcursor)
    exact ⟨_, by rw [hname]; rfl⟩
  · exact ⟨_, rfl⟩
  · exact ⟨_, rfl⟩

end Diagnosis

/-! ## Messages about characters -/

/-- What the error quotes as a numeral consists of digits and points. -/
def LexicalError.Plain : LexicalError → Prop
  | .numeral (.notInteger text) | .numeral (.notDecimal text) =>
    ∀ c ∈ text, Text.isDigit c = true ∨ c = '.'
  | _ => True

namespace Scan

theorem plain_natural {text : List Char} (ht : ∀ c ∈ text, Text.isDigit c = true ∨ c = '.')
    {error : NumeralError} (h : Numeral.natural text = .error error) :
    (LexicalError.numeral error).Plain := by
  unfold Numeral.natural at h
  dsimp only at h
  split_ifs at h <;> cases h
  · trivial
  · exact ht

theorem plain_decimal {text : List Char} (ht : ∀ c ∈ text, Text.isDigit c = true ∨ c = '.')
    {error : NumeralError} (h : Numeral.decimal text = .error error) :
    (LexicalError.numeral error).Plain := by
  unfold Numeral.decimal at h
  dsimp only at h
  split at h
  · split_ifs at h
    cases h
    exact ht
  · cases h
    exact ht

theorem plain_halt {rest read : List Char} {f : Fault} (h : Halt rest read f) (before : List Char) :
    (f.after (before ++ read)).Plain := by
  cases h with
  | stranger | mark | strayDot | secondPoint => trivial
  | integer hne hw ha he => exact plain_natural (fun c hc => .inl (hw c hc)) he
  | decimal hne hwhole hfraction ha he =>
    refine plain_decimal ?_ he
    rw [List.forall_mem_append, List.forall_mem_cons]
    exact ⟨fun c hc => .inl (hwhole c hc), .inr rfl, fun c hc => .inl (hfraction c hc)⟩

theorem plain_outcome (before rest : List Char) :
    ∀ {e : LexicalError}, outcome before rest = .error e → e.Plain := by
  induction before, rest using reading_induction with
  | done before =>
    intro e h
    rw [outcome_end] at h
    cases h
  | item before w after l hitem ih => exact fun h => ih ((outcome_item_eq_error hitem).mp h)
  | mark before d more hd ih =>
    intro e h
    rw [outcome_mark hd] at h
    exact ih h
  | halt before rest read f hhalt =>
    intro e h
    rw [outcome_halt hhalt] at h
    cases h
    exact plain_halt hhalt before

end Scan

theorem plain_of_ofText {source : String} {e : LexicalError} (h : Token.ofText source = .error e) :
    e.Plain := by
  rw [Scan.ofText_eq_outcome] at h
  exact Scan.plain_outcome [] source.toList h

/-- How many times the letter occurs that opens the names of kinds in messages. -/
def capitals (text : String) : ℕ := text.toList.count 'T'

theorem capitals_append (a b : String) : capitals (a ++ b) = capitals a + capitals b := by
  rw [capitals, String.toList_append, List.count_append, capitals, capitals]

theorem capitals_toString (n : ℕ) : capitals (toString n) = 0 := by
  rw [capitals, List.count_eq_zero]
  intro h
  have hdigit := @Nat.isDigit_of_mem_toDigits 10 n 'T' (by norm_num) le_rfl (by simpa using h)
  cases hdigit

theorem capitals_ofList {text : List Char} (h : ∀ c ∈ text, Text.isDigit c = true ∨ c = '.') :
    capitals (String.ofList text) = 0 := by
  have hletter : Text.isDigit 'T' = false := Text.isDigit_of_ascii (by decide)
  rw [capitals, String.toList_ofList, List.count_eq_zero]
  intro hmem
  rcases h _ hmem with hdigit | hpoint
  · rw [hletter] at hdigit
    cases hdigit
  · cases hpoint

theorem capitals_placeText (line column : ℕ) :
    capitals (LexicalError.placeText line column) = 0 := by
  rw [LexicalError.placeText, capitals_append, capitals_append, capitals_append, capitals_toString,
    capitals_toString]
  decide

theorem capitals_take {text : String} (h : capitals text = 0) (n : ℕ) :
    capitals (String.ofList (text.toList.take n)) = 0 := by
  rw [capitals, List.count_eq_zero] at h ⊢
  rw [String.toList_ofList]
  exact fun hmem => h (List.mem_of_mem_take hmem)

theorem capitals_char (c : Char) : capitals c.toString ≤ 1 := by
  have h : c.toString.toList = [c] := by simp
  rw [capitals, h]
  exact List.count_le_length

-- The messages are unfolded by `change`: the equations of their definitions take long to make.

theorem capitals_numeral {error : NumeralError} (h : (LexicalError.numeral error).Plain) :
    capitals error.message = 0 := by
  have hquote : capitals "'" = 0 := by decide
  cases error with
  | notInteger text =>
    have hfront : capitals "invalid literal for int() with base 10: " = 0 := by decide
    have htext : capitals ("'" ++ String.ofList text ++ "'") = 0 := by
      rw [capitals_append, capitals_append, capitals_ofList h, hquote]
    change capitals ("invalid literal for int() with base 10: " ++
      String.ofList (("'" ++ String.ofList text ++ "'").toList.take 200)) = 0
    rw [capitals_append, capitals_take htext, hfront]
  | notDecimal text =>
    have hfront : capitals "could not convert string to float: '" = 0 := by decide
    change capitals ("could not convert string to float: '" ++ String.ofList text ++ "'") = 0
    rw [capitals_append, capitals_append, capitals_ofList h, hquote, hfront]
  | tooLong digits =>
    have hfront : capitals "Exceeds the limit (" = 0 := by decide
    have hmiddle : capitals " digits) for integer string conversion: value has " = 0 := by decide
    have hback :
        capitals " digits; use sys.set_int_max_str_digits() to increase the limit" = 0 := by decide
    change capitals ("Exceeds the limit (" ++ toString maxIntegerDigits ++
      " digits) for integer string conversion: value has " ++ toString digits ++
      " digits; use sys.set_int_max_str_digits() to increase the limit") = 0
    rw [capitals_append, capitals_append, capitals_append, capitals_append, capitals_toString,
      capitals_toString, hfront, hmiddle, hback]

/-- A message about characters shows the letter once at most, as the character that it is about. -/
theorem capitals_message_le {e : LexicalError} (h : e.Plain) : capitals e.message ≤ 1 := by
  cases e with
  | unexpected c line column =>
    have hfront : capitals "Unexpected character '" = 0 := by decide
    have hquote : capitals "'" = 0 := by decide
    have hshown : capitals (c.elim "None" Char.toString) ≤ 1 := by
      cases c with
      | none => decide
      | some c => exact capitals_char c
    have hmessage : (LexicalError.unexpected c line column).message = "Unexpected character '" ++
        c.elim "None" Char.toString ++ "'" ++ LexicalError.placeText line column := by
      cases c <;> rfl
    rw [hmessage, capitals_append, capitals_append, capitals_append, capitals_placeText, hfront,
      hquote]
    omega
  | strayDot line column =>
    have hfront : capitals "Unexpected character after '.'" = 0 := by decide
    change capitals ("Unexpected character after '.'" ++ LexicalError.placeText line column) ≤ 1
    rw [capitals_append, capitals_placeText, hfront]
    exact Nat.zero_le 1
  | secondPoint line column =>
    have hfront : capitals "Invalid number format" = 0 := by decide
    change capitals ("Invalid number format" ++ LexicalError.placeText line column) ≤ 1
    rw [capitals_append, capitals_placeText, hfront]
    exact Nat.zero_le 1
  | numeral error => exact (capitals_numeral h).trans_le (Nat.zero_le 1)

theorem not_wantsSemicolon {e : LexicalError} (h : e.Plain) :
    Diagnosis.wantsSemicolon e.message.toList = false := by
  have hcount {phrase : List Char} (hphrase : 2 ≤ phrase.count 'T') :
      Text.hasPhrase phrase e.message.toList = false := by
    by_contra hmentioned
    have hle := (Text.infix_of_hasPhrase (by simpa using hmentioned)).sublist.count_le 'T'
    have hfew := capitals_message_le h
    unfold capitals at hfew
    omega
  rw [Diagnosis.wantsSemicolon, hcount (by decide), hcount (by decide)]
  rfl

end DrawPlus
