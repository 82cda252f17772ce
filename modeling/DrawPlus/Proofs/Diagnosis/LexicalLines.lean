import DrawPlus.Proofs.Diagnosis.Agreement
import DrawPlus.Proofs.Diagnosis.NamedLine

/-!
# The line of an error about characters

A text is read item by item up to the first character at which no item begins. The line of that
character is the one that a reader of the message wants to see. The message names another place, the
one at which the error was found: for a point after a word and for an exclamation mark this is one
character further on, and an exclamation mark before a delimiter is passed over altogether. And the
messages about numerals name no place at all.

So the line that the diagnosis gives is the right one exactly if there is no line feed between the
two places, or, for numerals, if the character stands in the first line (`lexical_line_iff`).
-/

namespace DrawPlus

/-! ## The first character at which nothing can be read -/

/-- A text is made of items up to a place, which parts it in two. -/
inductive Itemized (text : List Char) : List Char → List Char → Prop
  | start : Itemized text [] text
  | item {before w after : List Char} {l : Option Lexeme} : Itemized text before (w ++ after) →
      Item w after l → Itemized text (before ++ w) after

/-- No item begins the text: no token, no blank and no comment. -/
def Unreadable (rest : List Char) : Prop :=
  rest ≠ [] ∧ ∀ w after l, rest = w ++ after → ¬Item w after l

/-- Reading on from the beginning of the first text fails, with a fault that is found when the
second one has been read. -/
inductive Raises : List Char → List Char → Fault → Prop
  | halt {rest read : List Char} {f : Fault} : Halt rest read f → Raises rest read f
  | item {w after read : List Char} {l : Option Lexeme} {f : Fault} : Item w after l →
      Raises after read f → Raises (w ++ after) (w ++ read) f
  | mark {d : Char} {more read : List Char} {f : Fault} : (Kind.ofDelimiter? d).isSome = true →
      Raises (d :: more) read f → Raises ('!' :: d :: more) ('!' :: read) f

namespace Scan

/-- Reading fails at a place if it fails at all, and then with the fault that is found from
there. -/
theorem raises_of_outcome {before rest : List Char} {e : LexicalError}
    (h : outcome before rest = .error e) :
    ∃ read f, Raises rest read f ∧ e = f.after (before ++ read) := by
  induction before, rest using reading_induction generalizing e with
  | done before =>
    rw [outcome_end] at h
    cases h
  | item before w after l hitem ih =>
    obtain ⟨read, f, hraises, rfl⟩ := ih ((outcome_item_eq_error hitem).mp h)
    exact ⟨w ++ read, f, .item hitem hraises, by rw [List.append_assoc]⟩
  | mark before d more hd ih =>
    rw [outcome_mark hd] at h
    obtain ⟨read, f, hraises, rfl⟩ := ih h
    exact ⟨'!' :: read, f, .mark hd hraises, by rw [List.append_assoc, List.singleton_append]⟩
  | halt before rest read f hhalt =>
    rw [outcome_halt hhalt] at h
    cases h
    exact ⟨read, f, .halt hhalt, rfl⟩

/-- What is read of the items before a place does not matter for how reading fails after it. -/
theorem outcome_of_itemized {text before rest : List Char} (h : Itemized text before rest)
    {e : LexicalError} (herror : outcome [] text = .error e) : outcome before rest = .error e := by
  induction h with
  | start => exact herror
  | item _ hitem ih => exact (outcome_item_eq_error hitem).mp ih

theorem unreadable_of_mark {d : Char} (hd : (Kind.ofDelimiter? d).isSome = true)
    (more : List Char) :
    Unreadable ('!' :: d :: more) := by
  refine ⟨by simp, fun w after l hrest hitem => ?_⟩
  have hhead : (w ++ after).head? = some '!' := by rw [← hrest]; rfl
  cases hitem with
  | gap hgap => cases hgap <;> simp_all
  | words hf hm ha =>
    obtain ⟨c, rest, hw, hc, -⟩ := hf
    obtain rfl : c = '!' := by simpa [hw] using hhead
    simp [isWordStart_of_ascii] at hc
  | integer hne hw ha hn =>
    obtain ⟨c, hc, hdigit⟩ := exists_head?_of_digits hne hw after
    obtain rfl : c = '!' := by simpa [hhead] using hc.symm
    simp [Text.isDigit_of_ascii] at hdigit
  | decimal hne hwhole hfraction ha hx =>
    obtain ⟨c, hc, hdigit⟩ := exists_head?_of_digits hne hwhole _
    rw [List.append_assoc, hc] at hhead
    obtain rfl : c = '!' := by simpa using hhead
    simp [Text.isDigit_of_ascii] at hdigit
  | operator hc hk hequal hcomment =>
    obtain rfl := (List.cons.inj hrest).1
    cases hk
  | operatorEqual hc hk =>
    obtain rfl := (List.cons.inj (List.cons.inj hrest).2).1
    cases hd
  | delimiter hk =>
    obtain rfl := (List.cons.inj hrest).1
    cases hk

theorem unreadable_of_halt {rest read : List Char} {f : Fault} (h : Halt rest read f) :
    Unreadable rest := by
  refine ⟨?_, fun w after l hrest => not_item_of_halt h hrest l⟩
  obtain ⟨c, last, hc, -⟩ := exists_item_error h []
  rintro rfl
  cases hc

/-- Where reading fails there is a first character at which nothing can be read. -/
theorem exists_unreadable {text before rest : List Char} (h : Itemized text before rest)
    {e : LexicalError} (herror : outcome before rest = .error e) :
    ∃ before rest, Itemized text before rest ∧ Unreadable rest := by
  induction before, rest using reading_induction generalizing e with
  | done before =>
    rw [outcome_end] at herror
    cases herror
  | item before w after l hitem ih =>
    exact ih (.item h hitem) ((outcome_item_eq_error hitem).mp herror)
  | mark before d more hd ih => exact ⟨before, _, h, unreadable_of_mark hd more⟩
  | halt before rest read f hhalt => exact ⟨before, rest, h, unreadable_of_halt hhalt⟩

end Scan

/-! ## The line that a message names -/

/-- The line that an error is given with. -/
def LexicalError.line? : LexicalError → Option ℕ
  | .unexpected _ line _ => some line
  | .strayDot line _ => some line
  | .secondPoint line _ => some line
  | .numeral _ => none

namespace Diagnosis

open Text LexicalError

variable (line column : ℕ)

theorem toList_placeText : (placeText line column).toList = ' ' :: ("at line".toList ++
    ' ' :: (Nat.toDigits 10 line ++ ',' :: (" column ".toList ++ Nat.toDigits 10 column))) := by
  simp [placeText]

/-- A character of a place is a digit or one of its letters. -/
theorem notMem_placeText {c : Char} (hdigit : c.isDigit = false)
    (hletter : c ∉ " at line , column ".toList) : c ∉ (placeText line column).toList := by
  have hparts : " at line , column ".toList =
      ' ' :: ("at line".toList ++ ' ' :: ',' :: " column ".toList) := by simp
  rw [hparts] at hletter
  rw [toList_placeText]
  simpa only [List.mem_cons, List.mem_append, notMem_toDigits hdigit, false_or, or_false] using
    hletter

theorem afterPhrase?_placeText {before : List Char}
    (h : ¬"at line".toList <:+: before ++ ' ' :: "at lin".toList) :
    afterPhrase? "at line".toList (before ++ (placeText line column).toList) =
      some (' ' :: (Nat.toDigits 10 line ++ ',' ::
        (" column ".toList ++ Nat.toDigits 10 column))) := by
  have hafter : 'a' ∉ ' ' :: (Nat.toDigits 10 line ++
      ',' :: (" column ".toList ++ Nat.toDigits 10 column)) := by
    simp [notMem_toDigits]
  have hfirst := @afterPhrase?_first "at line".toList (before ++ [' ']) _ (by simpa using h)
    (not_infix_of_notMem (by simp) hafter)
  rw [toList_placeText]
  simpa using hfirst

theorem toList_unexpected (c : Option Char) :
    (LexicalError.unexpected c line column).message.toList =
    "Unexpected character ".toList ++ '\'' :: ((c.elim "None" Char.toString).toList ++
      '\'' :: (placeText line column).toList) := by
  have hmessage : (LexicalError.unexpected c line column).message = "Unexpected character '" ++
      c.elim "None" Char.toString ++ "'" ++ placeText line column := by
    cases c <;> rfl
  rw [hmessage]
  simp

theorem toList_strayDot : (LexicalError.strayDot line column).message.toList =
    "Unexpected character after ".toList ++ '\'' :: (".".toList ++
      '\'' :: (placeText line column).toList) := by
  have hmessage : (LexicalError.strayDot line column).message =
      "Unexpected character after '.'" ++ placeText line column := rfl
  rw [hmessage]
  simp

theorem toList_secondPoint : (LexicalError.secondPoint line column).message.toList =
    "Invalid number format".toList ++ (placeText line column).toList := by
  have hmessage : (LexicalError.secondPoint line column).message =
      "Invalid number format" ++ placeText line column := rfl
  rw [hmessage, String.toList_append]

/-- What an error shows of a character is too short for any phrase. -/
theorem not_infix_shown (c : Option Char) {phrase : List Char} (hlong : 4 < phrase.length) :
    ¬phrase <:+: (c.elim "None" Char.toString).toList := by
  intro hoccurs
  have hle := hoccurs.length_le
  have hshort : (c.elim "None" Char.toString).toList.length ≤ 4 := by
    cases c <;> simp
  omega

theorem not_infix_unexpected (c : Option Char) {phrase : List Char} {x : Char}
    (hquote : '\'' ∉ phrase) (hlong : 4 < phrase.length)
    (hfront : ¬phrase <:+: "Unexpected character ".toList) (hx : x ∈ phrase)
    (hdigit : x.isDigit = false) (hletter : x ∉ " at line , column ".toList) :
    ¬phrase <:+: (LexicalError.unexpected c line column).message.toList := by
  rw [toList_unexpected, infix_fence hquote, infix_fence hquote]
  have hplace := not_infix_of_notMem hx (notMem_placeText line column hdigit hletter)
  exact not_or.mpr ⟨hfront, not_or.mpr ⟨not_infix_shown c hlong, hplace⟩⟩

/-- No error about a numeral speaks of a line. -/
theorem not_infix_numeral {error : NumeralError} (h : (LexicalError.numeral error).Plain) :
    ¬"line".toList <:+: error.message.toList := by
  have hblank : ' ' ∉ "line".toList := by decide
  have hquoted {text : List Char} (ht : ∀ c ∈ text, Text.isDigit c = true ∨ c = '.') :
      'l' ∉ ("'" ++ String.ofList text ++ "'").toList := by
    have hl : Text.isDigit 'l' = false := Text.isDigit_of_ascii (by decide)
    intro hmem
    obtain hmem : 'l' ∈ text := by simpa using hmem
    rcases ht _ hmem with hdigit | hpoint
    · rw [hl] at hdigit
      cases hdigit
    · cases hpoint
  cases error with
  | notInteger text =>
    have hmessage : (NumeralError.notInteger text).message.toList =
        "invalid literal for int() with base 10:".toList ++
          ' ' :: ("'" ++ String.ofList text ++ "'").toList.take 200 := by
      change ("invalid literal for int() with base 10: " ++
        String.ofList (("'" ++ String.ofList text ++ "'").toList.take 200)).toList = _
      simp
    rw [hmessage, infix_fence hblank]
    refine not_or.mpr ⟨by decide, not_infix_of_notMem (c := 'l') (by simp) fun hmem => ?_⟩
    exact hquoted h (List.mem_of_mem_take hmem)
  | notDecimal text =>
    have hmessage : (NumeralError.notDecimal text).message.toList =
        "could not convert string to float:".toList ++
          ' ' :: ("'" ++ String.ofList text ++ "'").toList := by
      change ("could not convert string to float: '" ++ String.ofList text ++ "'").toList = _
      simp
    rw [hmessage, infix_fence hblank]
    exact not_or.mpr ⟨by decide, not_infix_of_notMem (by simp) (hquoted h)⟩
  | tooLong digits =>
    have hmessage : (NumeralError.tooLong digits).message.toList =
        "Exceeds the limit (4300 digits) for integer string conversion: value has".toList ++
          ' ' :: (Nat.toDigits 10 digits ++
            ' ' :: "digits; use sys.set_int_max_str_digits() to increase the limit".toList) := by
      change ("Exceeds the limit (4300 digits) for integer string conversion: value has " ++
        toString digits ++
          " digits; use sys.set_int_max_str_digits() to increase the limit").toList = _
      simp
    rw [hmessage, infix_fence hblank, infix_fence hblank]
    refine not_or.mpr ⟨?_, not_or.mpr ⟨?_, ?_⟩⟩
    · simp [List.infix_cons_iff]
    · exact not_infix_of_notMem (c := 'l') (by simp) (notMem_toDigits (by decide) digits)
    · simp [List.infix_cons_iff]

/-! ## The line of an error -/

theorem namedLine_message {e : LexicalError} (h : e.Plain) :
    namedLine e.message.toList = e.line?.elim 1 asNamed := by
  cases e with
  | unexpected c line column =>
    apply namedLine_of_at
    rw [toList_unexpected, afterPhrase?_fence (by decide) (by decide),
      afterPhrase?_fence (by decide) (not_infix_shown c (by decide))]
    have hplace := @afterPhrase?_placeText line column [] (by decide)
    rwa [List.nil_append] at hplace
  | strayDot line column =>
    apply namedLine_of_at
    rw [toList_strayDot, afterPhrase?_fence (by decide) (by decide),
      afterPhrase?_fence (by decide) (by decide)]
    have hplace := @afterPhrase?_placeText line column [] (by decide)
    rwa [List.nil_append] at hplace
  | secondPoint line column =>
    apply namedLine_of_at
    rw [toList_secondPoint]
    exact afterPhrase?_placeText line column (by decide)
  | numeral error => exact namedLine_of_not_infix (not_infix_numeral h)

/-- The line of an error about characters is the one that it is given with, and the first one if it
is about a numeral. -/
theorem lineOf_message {e : LexicalError} (h : e.Plain) (code : List Char) :
    lineOf e.message.toList code = e.line?.elim 1 asNamed := by
  rw [← namedLine_message h]
  cases e with
  | unexpected c line column =>
    apply lineOf_of_not_infix
    · exact not_infix_unexpected line column c (x := 'M') (by decide) (by decide) (by decide)
        (by decide)
        (by decide) (by decide)
    · exact not_infix_unexpected line column c (x := 'T') (by decide) (by decide) (by decide)
        (by decide)
        (by decide) (by decide)
  | strayDot line column =>
    have hplace {x : Char} := @notMem_placeText line column x
    rw [toList_strayDot]
    apply lineOf_of_not_infix
    · exact not_infix_of_notMem (c := 'M') (by decide) (by simp [hplace])
    · exact not_infix_of_notMem (c := 'T') (by decide) (by simp [hplace])
  | secondPoint line column =>
    have hplace {x : Char} := @notMem_placeText line column x
    rw [toList_secondPoint]
    apply lineOf_of_not_infix
    · exact not_infix_of_notMem (c := 'M') (by decide) (by simp [hplace])
    · exact not_infix_of_notMem (c := 'T') (by decide) (by simp [hplace])
  | numeral error =>
    have hfirst := namedLine_message h
    rw [hfirst]
    exact lineOf_of_first hfirst code

theorem exists_faulty_of_lexical {code : String} {e : LexicalError}
    (hcode : Text.isAllBlank code.toList = false) (h : Token.ofText code = .error e) :
    ∃ message advice, ofCode code = .faulty message (e.line?.elim 1 asNamed) advice := by
  obtain ⟨advice, hfaulty⟩ := ofCode_eq_of_failsFirst hcode (.characters h)
  rw [lineOf_message (plain_of_ofText h)] at hfaulty
  exact ⟨_, advice, hfaulty⟩

end Diagnosis

/-! ## When the line is right -/

def Fault.isNumeral : Fault → Bool
  | .numeral _ => true
  | _ => false

theorem Fault.line?_after (f : Fault) (read : List Char) :
    (f.after read).line? = if f.isNumeral then none else some (Text.endLine read) := by
  cases f <;> rfl

/-- The line that an error is given in a diagnosis: where it is found, or the first one. -/
theorem Fault.elim_line?_after (f : Fault) (read : List Char) :
    (f.after read).line?.elim 1 Diagnosis.asNamed =
      if f.isNumeral ∨ 10 ^ maxIntegerDigits ≤ Text.endLine read then 1
      else (Text.endLine read : Int) := by
  rw [line?_after]
  cases f.isNumeral with
  | true => rw [if_pos rfl, if_pos (.inl rfl), Option.elim_none]
  | false =>
    rw [if_neg (by simp), Option.elim_some, Diagnosis.asNamed]
    by_cases hlong : 10 ^ maxIntegerDigits ≤ Text.endLine read
    · rw [if_neg (Nat.not_lt.mpr hlong), if_pos (.inr hlong)]
    · rw [if_pos (Nat.not_le.mp hlong), if_neg (by simpa using hlong)]

/-- The diagnosis of code that cannot be read gives the line in which the error is found, and the
first one for an error about a numeral or with too large a line number. So it gives the line of the
first character at which nothing can be read exactly if no line feed is read from there up to where
the error is found, or if this is the first line. -/
theorem lexical_line_iff {code : String} {e : LexicalError}
    (hcode : ∃ c ∈ code.toList, Text.isBlank c = false) (h : Token.ofText code = .error e) :
    (∃ before rest, Itemized code.toList before rest ∧ Unreadable rest) ∧
    ∀ before rest, Itemized code.toList before rest → Unreadable rest →
      ∃ message line advice read f, Diagnosis.ofCode code = .faulty message line advice ∧
        Raises rest read f ∧
        (line = if f.isNumeral ∨ 10 ^ maxIntegerDigits ≤ Text.endLine (before ++ read) then 1
          else (Text.endLine (before ++ read) : Int)) ∧
        (line = Text.endLine before ↔
          if f.isNumeral ∨ 10 ^ maxIntegerDigits ≤ Text.endLine (before ++ read)
          then Text.endLine before = 1 else '\n' ∉ read) := by
  have hblank : Text.isAllBlank code.toList = false := by
    obtain ⟨c, hc, hkept⟩ := hcode
    rw [Text.isAllBlank, List.all_eq_false]
    exact ⟨c, hc, by simp [hkept]⟩
  obtain ⟨message, advice, hfaulty⟩ := Diagnosis.exists_faulty_of_lexical hblank h
  rw [Scan.ofText_eq_outcome] at h
  refine ⟨Scan.exists_unreadable .start h, fun before rest hplace _ => ?_⟩
  obtain ⟨read, f, hraises, rfl⟩ := Scan.raises_of_outcome (Scan.outcome_of_itemized hplace h)
  refine ⟨message, _, advice, read, f, hfaulty, hraises, f.elim_line?_after _, ?_⟩
  rw [Fault.elim_line?_after, ← Text.endLine_append_eq_iff before]
  split_ifs
  · omega
  · omega

/-- A character in the second line that begins nothing. -/
theorem lexical_line_iff_stranger : (∃ c ∈ "x\n @".toList, Text.isBlank c = false) ∧
    Token.ofText "x\n @" = .error (.unexpected '@' 2 2) ∧
    (∃ before rest, Itemized "x\n @".toList before rest ∧ Unreadable rest) ∧
    ∀ before rest, Itemized "x\n @".toList before rest → Unreadable rest →
      ∃ message line advice read f, Diagnosis.ofCode "x\n @" = .faulty message line advice ∧
        Raises rest read f ∧
        (line = if f.isNumeral ∨ 10 ^ maxIntegerDigits ≤ Text.endLine (before ++ read) then 1
          else (Text.endLine (before ++ read) : Int)) ∧
        (line = Text.endLine before ↔
          if f.isNumeral ∨ 10 ^ maxIntegerDigits ≤ Text.endLine (before ++ read)
          then Text.endLine before = 1 else '\n' ∉ read) := by
  have hcode : ∃ c ∈ "x\n @".toList, Text.isBlank c = false := ⟨'x', by simp, by decide⟩
  have herror : Token.ofText "x\n @" = .error (.unexpected '@' 2 2) := by decide +kernel
  exact ⟨hcode, herror, lexical_line_iff hcode herror⟩

/-- Three codes that are given the wrong line: the first line has the point after a word, or the
exclamation mark, and the second line is given; and a figure of the second line is put on the
first. -/
theorem lexical_lines_wrong :
    (Unreadable "a.\n".toList ∧
      ∃ message advice, Diagnosis.ofCode "a.\n" = .faulty message 2 advice) ∧
    (Unreadable "!\n".toList ∧
      ∃ message advice, Diagnosis.ofCode "!\n" = .faulty message 2 advice) ∧
    Itemized "\n²".toList ['\n'] ['²'] ∧ Unreadable ['²'] ∧
      ∃ message advice, Diagnosis.ofCode "\n²" = .faulty message 1 advice := by
  have hword : IsWord "a" := ⟨'a', [], rfl, by simp [isWordStart_of_ascii], by simp⟩
  have hdot : Halt "a.\n".toList "a.\n".toList .strayDot :=
    @Halt.strayDot "a" [] ['\n'] hword (by simp) (by simp [isWordStart_of_ascii])
  have hmark : Halt "!\n".toList "!\n".toList (.unexpected '\n') :=
    @Halt.mark ['\n'] (by simp [Kind.ofDelimiter?])
  have hdigit : Text.isDigit '²' = true := by decide
  have hfigure : Halt ['²'] ['²'] (.numeral (.notInteger ['²'])) :=
    @Halt.integer ['²'] [] _ (by simp) (by simpa using hdigit) (by simp [EndsNumber]) rfl
  have htwo : Diagnosis.asNamed 2 = 2 := if_pos <| by
    calc 2 < 10 ^ 1 := by norm_num
      _ ≤ 10 ^ maxIntegerDigits := Nat.pow_le_pow_right (by norm_num) (by decide)
  have hdotline := @Diagnosis.exists_faulty_of_lexical "a.\n" (.strayDot 2 0) (by decide)
    (by decide +kernel)
  have hmarkline := @Diagnosis.exists_faulty_of_lexical "!\n" (.unexpected '\n' 2 0) (by decide)
    (by decide +kernel)
  have hfigureline := @Diagnosis.exists_faulty_of_lexical "\n²" (.numeral (.notInteger ['²']))
    (by decide) (by decide +kernel)
  simp only [LexicalError.line?, Option.elim_some, htwo] at hdotline hmarkline
  refine ⟨⟨Scan.unreadable_of_halt hdot, hdotline⟩, ⟨Scan.unreadable_of_halt hmark, hmarkline⟩, ?_,
    Scan.unreadable_of_halt hfigure, hfigureline⟩
  exact @Itemized.item "\n²".toList [] ['\n'] ['²'] none .start (.gap (.blank (by simp)))

end DrawPlus
