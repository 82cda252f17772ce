import DrawPlus.Proofs.Scanning.Cut

/-!
# Reading a text item by item

A text that is not empty begins in one of three ways, whatever has been read before it. It begins
with an item, which is a gap or a lexeme that goes on for as long as it can; or with an exclamation
mark right before a delimiter, which is passed over; or with something at which reading halts
(`begins_cons`). What reading does in each case is said by one equation each (`outcome_item`,
`outcome_mark`, `outcome_halt`, and `outcome_end` for the empty text), and nothing else has to be
known of it: what follows goes through a text by these cases (`reading_induction`) and does not look
at the reading of characters. The first such result is that the tokens of a text are lexed
(`lexed_of_ofText`).
-/

namespace DrawPlus

variable {c : Char} {w rest : List Char} {r : Reader} {l : Option Lexeme} {k : Kind} {f : Fault}
  {ts : List Token} {e : LexicalError}

/-! ## Lexemes and their tokens -/

/-- The token of a lexeme that is written right behind a text. -/
def Token.behind (before : List Char) (kind : Kind) (value : Value) : Token :=
  ⟨kind, value, Text.endLine before, Text.endColumn before + 1⟩

inductive Lexeme where
  /-- a word, and the words that points join to it -/
  | words (first : String) (more : List String)
  | number (v : Value)
  /-- an operator or a delimiter -/
  | sign (k : Kind)

namespace Lexeme

/-- The words that points join to another. -/
def dotted (more : List String) : List Char := more.flatMap fun w => '.' :: w.toList

def text : Lexeme → List Char
  | .words first more => first.toList ++ dotted more
  | .number v => v.display.toList
  | .sign k => (k.sign?.getD "").toList

/-- The tokens of points and words that are written right behind a text. -/
def dottedBehind : List Char → List String → List Token
  | _, [] => []
  | before, w :: more => .behind before .dot "." :: .behind (before ++ ['.']) (.ofWord w) w ::
      dottedBehind (before ++ '.' :: w.toList) more

/-- The tokens of a lexeme that is written right behind a text. -/
def behind (before : List Char) : Lexeme → List Token
  | .words first more => .behind before (.ofWord first) first ::
      dottedBehind (before ++ first.toList) more
  | .number v => [.behind before .number v]
  | .sign k => [.behind before k (k.sign?.getD "")]

end Lexeme

/-! ## What stands at the beginning of a text -/

/-- The text goes on with no digit and no point. -/
def EndsNumber (after : List Char) : Prop := ∀ d, after.head? = some d → isNumberChar d = false

/-- The text goes on with no character of a word and no point. -/
def EndsName (after : List Char) : Prop :=
  ∀ d, after.head? = some d → isWordChar d = false ∧ d ≠ '.'

/-- The first text is an item in front of the second one: a gap, or a lexeme that goes on for as
long as it can. -/
inductive Item : List Char → List Char → Option Lexeme → Prop
  | gap {w after : List Char} : Gap w after → Item w after none
  | words {first : String} {more : List String} {after : List Char} : IsWord first →
      (∀ w ∈ more, IsWord w) → EndsName after →
      Item (first.toList ++ Lexeme.dotted more) after (some (.words first more))
  | integer {w after : List Char} {n : ℕ} : w ≠ [] → (∀ d ∈ w, Text.isDigit d = true) →
      EndsNumber after → Numeral.natural w = .ok n → Item w after (some (.number (.int n)))
  | decimal {whole fraction after : List Char} {x : Double} : whole ≠ [] →
      (∀ d ∈ whole, Text.isDigit d = true) → (∀ d ∈ fraction, Text.isDigit d = true) →
      EndsNumber after → Numeral.decimal (whole ++ '.' :: fraction) = .ok x →
      Item (whole ++ '.' :: fraction) after (some (.number (.double x)))
  | operator {c : Char} {k : Kind} {after : List Char} : isSignStart c = true →
      Kind.ofSign? c = some k → after.head? ≠ some '=' →
      (c = '/' → ∀ d ∈ ['/', '*'], after.head? ≠ some d) → Item [c] after (some (.sign k))
  | operatorEqual {c : Char} {k : Kind} {after : List Char} : isSignStart c = true →
      Kind.ofSignEqual? c = some k → Item [c, '='] after (some (.sign k))
  | delimiter {c : Char} {k : Kind} {after : List Char} : Kind.ofDelimiter? c = some k →
      Item [c] after (some (.sign k))

inductive Fault where
  | unexpected (c : Option Char)
  | strayDot
  | secondPoint
  | numeral (error : NumeralError)

/-- The error for a fault that is found when the text has been read. -/
def Fault.after (read : List Char) : Fault → LexicalError
  | .unexpected c => .unexpected c (Text.endLine read) (Text.endColumn read)
  | .strayDot => .strayDot (Text.endLine read) (Text.endColumn read)
  | .secondPoint => .secondPoint (Text.endLine read) (Text.endColumn read)
  | .numeral error => .numeral error

/-- No item begins with the character. -/
structure BeginsNothing (c : Char) : Prop where
  gap : isGap c = false
  word : isWordStart c = false
  digit : Text.isDigit c = false
  sign : isSignStart c = false
  delimiter : Kind.ofDelimiter? c = none

/-- Reading halts at the beginning of the first text, with a fault that is found when the second one
has been read. -/
inductive Halt : List Char → List Char → Fault → Prop
  | stranger {c : Char} (rest : List Char) : BeginsNothing c → Halt (c :: rest) [c] (.unexpected c)
  /-- the fault is found at the character after the exclamation mark -/
  | mark {rest : List Char} :
      (∀ d, rest.head? = some d → d ≠ '=' ∧ Kind.ofDelimiter? d = none) →
      Halt ('!' :: rest) ('!' :: rest.take 1) (.unexpected rest.head?)
  /-- the fault is found at the character after the point -/
  | strayDot {first : String} {more : List String} {rest : List Char} : IsWord first →
      (∀ w ∈ more, IsWord w) → (∀ d, rest.head? = some d → isWordStart d = false) →
      Halt (first.toList ++ (Lexeme.dotted more ++ '.' :: rest))
        (first.toList ++ (Lexeme.dotted more ++ '.' :: rest.take 1)) .strayDot
  | secondPoint {whole fraction : List Char} (rest : List Char) : whole ≠ [] →
      (∀ d ∈ whole, Text.isDigit d = true) → (∀ d ∈ fraction, Text.isDigit d = true) →
      Halt (whole ++ '.' :: (fraction ++ '.' :: rest)) (whole ++ '.' :: (fraction ++ ['.']))
        .secondPoint
  | integer {w after : List Char} {e : NumeralError} : w ≠ [] →
      (∀ d ∈ w, Text.isDigit d = true) → EndsNumber after → Numeral.natural w = .error e →
      Halt (w ++ after) w (.numeral e)
  | decimal {whole fraction after : List Char} {e : NumeralError} : whole ≠ [] →
      (∀ d ∈ whole, Text.isDigit d = true) → (∀ d ∈ fraction, Text.isDigit d = true) →
      EndsNumber after → Numeral.decimal (whole ++ '.' :: fraction) = .error e →
      Halt (whole ++ '.' :: fraction ++ after) (whole ++ '.' :: fraction) (.numeral e)

namespace Scan

open Reader

/-! ## A text begins in one of three ways -/

theorem isWord_takeWhile (hc : isWordStart c = true) (rest : List Char) :
    IsWord (String.ofList ((c :: rest).takeWhile isWordChar)) := by
  refine ⟨c, rest.takeWhile isWordChar, ?_, hc, fun d hd => List.mem_takeWhile_imp hd⟩
  simp [isWordChar_of_isWordStart hc]

/-- Where a word ends, points and words follow up to something else, or up to a point that no word
follows. -/
theorem dotted_split {rest : List Char} (h : ∀ d, rest.head? = some d → isWordChar d = false) :
    ∃ more after, rest = Lexeme.dotted more ++ after ∧ (∀ w ∈ more, IsWord w) ∧
      (EndsName after ∨ ∃ tail, after = '.' :: tail ∧
        ∀ d, tail.head? = some d → isWordStart d = false) := by
  induction hn : rest.length using Nat.strong_induction_on generalizing rest with
  | _ n ih =>
    subst hn
    by_cases hpoint : rest.head? = some '.'
    · obtain ⟨tail, rfl⟩ := List.head?_eq_some_iff.mp hpoint
      by_cases hword : ∃ c, tail.head? = some c ∧ isWordStart c = true
      · obtain ⟨c, hc, hstart⟩ := hword
        obtain ⟨tail, rfl⟩ := List.head?_eq_some_iff.mp hc
        have hshorter := (List.dropWhile_suffix isWordChar (l := c :: tail)).length_le
        obtain ⟨more, after, hsplit, hmore, hafter⟩ :=
          ih _ (Nat.lt_succ_of_le hshorter) (fun d hd => head?_dropWhile hd) rfl
        refine ⟨String.ofList ((c :: tail).takeWhile isWordChar) :: more, after, ?_, ?_, hafter⟩
        · have htail := List.takeWhile_append_dropWhile (p := isWordChar) (l := c :: tail)
          rw [hsplit] at htail
          simpa [Lexeme.dotted] using htail.symm
        · rw [List.forall_mem_cons]
          exact ⟨isWord_takeWhile hstart tail, hmore⟩
      · refine ⟨[], '.' :: tail, rfl, by simp, .inr ⟨tail, rfl, fun d hd => ?_⟩⟩
        by_contra hd'
        exact hword ⟨d, hd, by simpa using hd'⟩
    · refine ⟨[], rest, rfl, by simp, .inl fun d hd => ⟨h d hd, ?_⟩⟩
      rintro rfl
      exact hpoint hd

/-- What one of the three ways is, said of a text that begins with the character. -/
def Begins (rest : List Char) : Prop :=
  (∃ w after l, rest = w ++ after ∧ Item w after l) ∨
    (∃ d more, rest = '!' :: d :: more ∧ (Kind.ofDelimiter? d).isSome = true) ∨
    ∃ read f, Halt rest read f

theorem begins_item {after : List Char} (h : Item w after l) :
    Begins (w ++ after) := .inl ⟨w, after, l, rfl, h⟩

theorem begins_halt {read : List Char} (h : Halt rest read f) : Begins rest :=
  .inr (.inr ⟨read, f, h⟩)

theorem begins_word (hc : isWordStart c = true) (rest : List Char) : Begins (c :: rest) := by
  obtain ⟨more, after, hsplit, hmore, hafter⟩ :=
    @dotted_split ((c :: rest).dropWhile isWordChar) fun d hd => head?_dropWhile hd
  have hrest := List.takeWhile_append_dropWhile (p := isWordChar) (l := c :: rest)
  have hfirst := isWord_takeWhile hc rest
  rw [hsplit] at hrest
  rw [← hrest]
  rcases hafter with hends | ⟨tail, rfl, htail⟩
  · have hbegins := begins_item (.words hfirst hmore hends)
    simpa using hbegins
  · have hbegins := begins_halt (.strayDot hfirst hmore htail)
    simpa using hbegins

theorem begins_digit (hc : Text.isDigit c = true) (rest : List Char) : Begins (c :: rest) := by
  have hne : (c :: rest).takeWhile Text.isDigit ≠ [] := by simp [hc]
  have hwhole : ∀ d ∈ (c :: rest).takeWhile Text.isDigit, Text.isDigit d = true := fun d hd =>
    List.mem_takeWhile_imp hd
  have hends := number_stops (c :: rest)
  have hsplit := List.takeWhile_append_dropWhile (p := Text.isDigit) (l := c :: rest)
  generalize (c :: rest).takeWhile Text.isDigit = whole at *
  generalize (c :: rest).dropWhile Text.isDigit = tail at *
  rw [← hsplit]
  by_cases hpoint : tail.head? = some '.'
  · obtain ⟨tail, rfl⟩ := List.head?_eq_some_iff.mp hpoint
    have hfraction : ∀ d ∈ tail.takeWhile Text.isDigit, Text.isDigit d = true := fun d hd =>
      List.mem_takeWhile_imp hd
    have hafter := number_stops tail
    rw [← List.takeWhile_append_dropWhile (p := Text.isDigit) (l := tail)]
    generalize tail.takeWhile Text.isDigit = fraction at *
    generalize tail.dropWhile Text.isDigit = after at *
    by_cases hsecond : after.head? = some '.'
    · obtain ⟨after, rfl⟩ := List.head?_eq_some_iff.mp hsecond
      exact begins_halt (.secondPoint after hne hwhole hfraction)
    · cases hvalue : Numeral.decimal (whole ++ '.' :: fraction) with
      | ok x =>
        have hbegins := begins_item (.decimal hne hwhole hfraction (hafter hsecond) hvalue)
        simpa using hbegins
      | error e =>
        have hbegins := begins_halt (.decimal hne hwhole hfraction (hafter hsecond) hvalue)
        simpa using hbegins
  · cases hvalue : Numeral.natural whole with
    | ok n => exact begins_item (.integer hne hwhole (hends hpoint) hvalue)
    | error e => exact begins_halt (.integer hne hwhole (hends hpoint) hvalue)

theorem begins_lineComment (rest : List Char) : Begins ('/' :: '/' :: rest) := by
  have hbody : '\n' ∉ rest.takeWhile (· != '\n') := by
    intro hmem
    have hne := List.mem_takeWhile_imp hmem
    simp at hne
  have hafter :
      rest.dropWhile (· != '\n') = [] ∨ (rest.dropWhile (· != '\n')).head? = some '\n' := by
    cases hd : rest.dropWhile (· != '\n') with
    | nil => exact .inl rfl
    | cons d ds =>
      have hfeed := @head?_dropWhile (· != '\n') rest d (by rw [hd]; rfl)
      exact .inr (by simpa using hfeed)
  have hbegins := begins_item (.gap (.line hbody hafter))
  simpa using hbegins

theorem begins_blockComment (rest : List Char) : Begins ('/' :: '*' :: rest) := by
  obtain ⟨body, after, rfl, hbody, -⟩ | ⟨hbody, -⟩ := skipBlock_between [] rest
  · have hbegins := begins_item (@Item.gap _ after (.block hbody))
    simpa using hbegins
  · have hbegins := begins_item (.gap (.unclosed hbody))
    simpa using hbegins

theorem begins_sign (hc : isSignStart c = true) (rest : List Char)
    (hcomment : c = '/' → ∀ d ∈ ['/', '*'], rest.head? ≠ some d) : Begins (c :: rest) := by
  obtain ⟨-, -, hequal, halone⟩ := signs_spec c (isSignStart_iff.mp hc)
  by_cases hrest : rest.head? = some '='
  · obtain ⟨rest, rfl⟩ := List.head?_eq_some_iff.mp hrest
    obtain ⟨k, hk⟩ := Option.ne_none_iff_exists'.mp hequal
    exact begins_item (.operatorEqual hc hk)
  cases hk : Kind.ofSign? c with
  | some k => exact begins_item (.operator hc hk hrest hcomment)
  | none =>
    obtain rfl := halone hk
    by_cases hdelimiter : ∃ d, rest.head? = some d ∧ (Kind.ofDelimiter? d).isSome = true
    · obtain ⟨d, hd, hsome⟩ := hdelimiter
      obtain ⟨more, rfl⟩ := List.head?_eq_some_iff.mp hd
      exact .inr (.inl ⟨d, more, rfl, hsome⟩)
    · refine begins_halt (.mark fun d hd => ⟨?_, ?_⟩)
      · rintro rfl
        exact hrest hd
      · by_contra hsome
        exact hdelimiter ⟨d, hd, Option.isSome_iff_ne_none.mpr hsome⟩

/-- A text that is not empty begins with an item, with a mark that is passed over, or with something
at which reading halts. -/
theorem begins_cons (c : Char) (rest : List Char) : Begins (c :: rest) := by
  by_cases hgap : isGap c = true
  · exact begins_item (w := [c]) (.gap (.blank (isGap_iff.mp hgap)))
  by_cases hword : isWordStart c = true
  · exact begins_word hword rest
  by_cases hdigit : Text.isDigit c = true
  · exact begins_digit hdigit rest
  by_cases hsign : isSignStart c = true
  · by_cases hline : c = '/' ∧ rest.head? = some '/'
    · obtain ⟨rfl, hrest⟩ := hline
      obtain ⟨rest, rfl⟩ := List.head?_eq_some_iff.mp hrest
      exact begins_lineComment rest
    by_cases hblock : c = '/' ∧ rest.head? = some '*'
    · obtain ⟨rfl, hrest⟩ := hblock
      obtain ⟨rest, rfl⟩ := List.head?_eq_some_iff.mp hrest
      exact begins_blockComment rest
    · refine begins_sign hsign rest fun hc => ?_
      simp_all
  cases hk : Kind.ofDelimiter? c with
  | some k => exact begins_item (w := [c]) (.delimiter hk)
  | none =>
    simp only [Bool.not_eq_true] at hgap hword hdigit hsign
    exact begins_halt (.stranger rest ⟨hgap, hword, hdigit, hsign, hk⟩)

theorem ne_nil_of_item {after : List Char} (h : Item w after l) : w ≠ [] := by
  cases h with
  | gap hgap => cases hgap <;> simp
  | words hf hm ha =>
    obtain ⟨c, rest, hw, -⟩ := hf
    simp [hw]
  | integer hne hw ha hn => exact hne
  | decimal hne hwhole hfraction ha hx => simp
  | operator hc hk hequal hcomment => simp
  | operatorEqual hc hk => simp
  | delimiter hk => simp

/-- A property of all places in a text is shown by going from each place to the next one. -/
theorem reading_induction {motive : List Char → List Char → Prop}
    (done : ∀ before, motive before [])
    (item : ∀ before w after l, Item w after l → motive (before ++ w) after →
      motive before (w ++ after))
    (mark : ∀ before d more, (Kind.ofDelimiter? d).isSome = true →
      motive (before ++ ['!']) (d :: more) → motive before ('!' :: d :: more))
    (halt : ∀ before rest read f, Halt rest read f → motive before rest)
    (before rest : List Char) : motive before rest := by
  induction hn : rest.length using Nat.strong_induction_on generalizing before rest with
  | _ n ih =>
    subst hn
    cases rest with
    | nil => exact done before
    | cons c rest =>
      obtain ⟨w, after, l, hrest, hitem⟩ | ⟨d, more, hrest, hd⟩ | ⟨read, f, hhalt⟩ :=
        begins_cons c rest
      · have hpos := List.length_pos_of_ne_nil (ne_nil_of_item hitem)
        rw [hrest] at ih ⊢
        exact item before w after l hitem (ih _ (by simpa using hpos) _ _ rfl)
      · rw [hrest] at ih ⊢
        exact mark before d more hd (ih _ (by simp) _ _ rfl)
      · exact halt before (c :: rest) read f hhalt

/-! ## Reading on -/

/-- The tokens `ts` in front of those that are read. -/
def prepend (ts : List Token) : EStateM.Result LexicalError Reader (List Token) →
    EStateM.Result LexicalError Reader (List Token)
  | .ok more last => .ok (ts ++ more) last
  | .error e last => .error e last

@[simp] theorem prepend_ok (ts more : List Token) (last : Reader) :
    prepend ts (.ok more last) = .ok (ts ++ more) last := rfl

@[simp] theorem prepend_error (ts : List Token) (e : LexicalError) (last : Reader) :
    prepend ts (.error e last) = .error e last := rfl

@[simp] theorem prepend_nil (x : EStateM.Result LexicalError Reader (List Token)) :
    prepend [] x = x := by
  cases x <;> rfl

theorem tokens_of_item {after : Reader} (hc : r.current = some c) (hi : item c r = .ok ts after) :
    tokens r = prepend ts (tokens after) := by
  rw [tokens]
  split
  case h_1 hnone => exact absurd (hc.symm.trans hnone) (Option.some_ne_none c)
  case h_2 d hd =>
    obtain rfl := Option.some.inj (hc.symm.trans hd)
    split
    case h_1 e mid he => cases hi.symm.trans he
    case h_2 us mid hus =>
      cases hi.symm.trans hus
      cases tokens after <;> rfl

theorem tokens_of_item_error {after : Reader} (hc : r.current = some c)
    (hi : item c r = .error e after) : tokens r = .error e after := by
  rw [tokens]
  split
  case h_1 hnone => exact absurd (hc.symm.trans hnone) (Option.some_ne_none c)
  case h_2 d hd =>
    obtain rfl := Option.some.inj (hc.symm.trans hd)
    split
    case h_1 e' mid he =>
      cases hi.symm.trans he
      rfl
    case h_2 us mid hus => cases hi.symm.trans hus

/-! ## Which rule reads a character -/

theorem gap_spec {d : Char} (h : isGap d = true) :
    isWordChar d = false ∧ Text.isDigit d = false ∧ d ∉ ['.', '=', '/', '*'] := by
  simp only [isGap_iff, List.mem_cons, List.not_mem_nil, or_false] at h
  rcases h with rfl | rfl | rfl | rfl <;> simp [isWordChar_of_ascii, Text.isDigit_of_ascii]

theorem isGap_of_isWordChar (h : isWordChar c = true) : isGap c = false := by
  by_contra hgap
  rw [(gap_spec (by simpa using hgap)).1] at h
  cases h

theorem isWordChar_of_digit (h : Text.isDigit c = true) : isWordChar c = true := by
  simp [isWordChar, h]

theorem item_of_word {r mid last : Reader} {c : Char} {first : Token} {rest : List Token}
    (hc : isWordStart c = true) (hw : word r = .ok first mid)
    (hd : dottedWords mid = .ok rest last) : item c r = .ok (first :: rest) last := by
  have hgap := isGap_of_isWordChar (isWordChar_of_isWordStart hc)
  have hslash : c ≠ '/' := by
    rintro rfl
    simp [isWordStart_of_ascii] at hc
  simp [item, hgap, hslash, hc, hw, hd]

theorem item_of_word_error {mid last : Reader} {first : Token} (hc : isWordStart c = true)
    (hw : word r = .ok first mid) (hd : dottedWords mid = .error e last) :
    item c r = .error e last := by
  have hgap := isGap_of_isWordChar (isWordChar_of_isWordStart hc)
  have hslash : c ≠ '/' := by
    rintro rfl
    simp [isWordStart_of_ascii] at hc
  simp [item, hgap, hslash, hc, hw, hd]

theorem item_of_digit {after : Reader} {v : Value} (hc : Text.isDigit c = true)
    (h : number r = .ok v after) : item c r = .ok [⟨.number, v, r.line, r.column⟩] after := by
  have hgap := isGap_of_isWordChar (isWordChar_of_digit hc)
  have hslash : c ≠ '/' := by
    rintro rfl
    simp [Text.isDigit_of_ascii] at hc
  simp [item, hgap, hslash, isWordStart_of_digit hc, hc, h]

theorem item_of_digit_error {after : Reader} (hc : Text.isDigit c = true)
    (h : number r = .error e after) : item c r = .error e after := by
  have hgap := isGap_of_isWordChar (isWordChar_of_digit hc)
  have hslash : c ≠ '/' := by
    rintro rfl
    simp [Text.isDigit_of_ascii] at hc
  simp [item, hgap, hslash, isWordStart_of_digit hc, hc, h]

theorem sign_spec (hc : isSignStart c = true) :
    isGap c = false ∧ isWordStart c = false ∧ Text.isDigit c = false := by
  simp only [isSignStart_iff, List.mem_cons, List.not_mem_nil, or_false] at hc
  rcases hc with rfl | rfl | rfl | rfl | rfl | rfl | rfl | rfl <;>
    simp [isGap, isWordStart_of_ascii, Text.isDigit_of_ascii]

theorem item_of_sign {after : Reader} (hc : isSignStart c = true)
    (hpeek : c = '/' → ∀ d ∈ ['/', '*'], r.peek ≠ some d) (h : r.takeSign = ((some k, w), after)) :
    item c r = .ok [⟨k, .text (String.ofList w), r.line, r.column⟩] after := by
  have hcomment : ¬(c = '/' ∧ (r.peek = some '/' ∨ r.peek = some '*')) := by
    rintro ⟨rfl, hp | hp⟩
    · exact hpeek rfl '/' (by simp) hp
    · exact hpeek rfl '*' (by simp) hp
  simp [item, sign_spec hc, hc, hcomment, h]

/-- What begins nothing else is left to the rule for delimiters. -/
theorem item_eq_delimiter (hgap : isGap c = false) (hword : isWordStart c = false)
    (hdigit : Text.isDigit c = false) (hsign : isSignStart c = false) (r : Reader) :
    item c r = delimiter r := by
  have hslash : c ≠ '/' := by
    rintro rfl
    cases hsign
  simp [item, hgap, hslash, hword, hdigit, hsign]

theorem delimiter_spec (hk : Kind.ofDelimiter? c = some k) :
    isGap c = false ∧ isWordStart c = false ∧ Text.isDigit c = false ∧ isSignStart c = false := by
  unfold Kind.ofDelimiter? at hk
  split at hk <;> cases hk <;>
    simp [isGap, isSignStart, isWordStart_of_ascii, Text.isDigit_of_ascii]

theorem item_mark (hc : r.current = some '!') (h : r.advance.current ≠ some '=') :
    item '!' r = delimiter r.advance := by
  have hsign : r.takeSign = ((none, ['!']), r.advance) := by
    simp [takeSign, hc, h, Kind.ofSign?]
  simp [item, sign_spec (c := '!') rfl, hsign, isSignStart]

/-! ## Reading gaps -/

theorem item_blanks (before rest : List Char) (hc : isGap c = true) :
    item c (between before (c :: rest)) = .ok [] (between (before ++ (c :: rest).takeWhile isGap)
      ((c :: rest).dropWhile isGap)) := by
  simp [item, hc, skipGaps, Reader.dropWhile]

theorem tokens_blanks (before rest : List Char) : tokens (between before rest) =
    tokens (between (before ++ rest.takeWhile isGap) (rest.dropWhile isGap)) := by
  cases rest with
  | nil => simp
  | cons c rest =>
    by_cases hc : isGap c = true
    · rw [tokens_of_item rfl (item_blanks before rest hc), prepend_nil]
    · simp [hc]

/-- A run that what follows does not go on with. -/
theorem takeWhile_append_stop {p : Char → Bool} {w after : List Char} (hw : ∀ d ∈ w, p d = true)
    (ha : ∀ d, after.head? = some d → p d = false) :
    (w ++ after).takeWhile p = w ∧ (w ++ after).dropWhile p = after := by
  rw [List.takeWhile_append_of_pos hw, List.dropWhile_append_of_pos hw]
  cases after with
  | nil => simp
  | cons d after => simp [ha d rfl]

theorem skipBlock_closed {cs : List Char} (h : ¬['*', '/'] <:+: cs) (before after : List Char) :
    (between before (cs ++ '*' :: '/' :: after)).skipBlock =
      between (before ++ (cs ++ ['*', '/'])) after := by
  induction cs generalizing before with
  | nil =>
    rw [skipBlock]
    simp
  | cons c cs ih =>
    obtain ⟨hrest, -, hopen⟩ := open_of_not_infix_cons h
    rw [List.cons_append, skipBlock_step (hopen _), ih hrest]
    simp

theorem skipBlock_open {cs : List Char} (h : ¬['*', '/'] <:+: cs) (before : List Char) :
    (between before cs).skipBlock = between (before ++ cs) [] := by
  obtain ⟨body, after, rfl, -⟩ | ⟨-, heq⟩ := skipBlock_between before cs
  · exact absurd ⟨body, after, by simp⟩ h
  · exact heq

theorem item_comment {after : List Char} (h : Gap w after) (hw : w.head? = some '/')
    (before : List Char) :
    item '/' (between before (w ++ after)) = .ok [] (between (before ++ w) after) := by
  have hgap : isGap '/' = false := rfl
  cases h with
  | blank hc =>
    obtain rfl : _ = '/' := by simpa using hw
    simp at hc
  | @line cs after hcs ha =>
    obtain ⟨htake, hdrop⟩ := @takeWhile_append_stop (· != '\n') cs after
      (by simpa using fun d hd => ne_of_mem_of_not_mem hd hcs) (by
        intro d hd
        rcases ha with rfl | ha
        · cases hd
        · rw [ha] at hd
          cases hd
          rfl)
    simp [item, hgap, skipComment, Reader.dropWhile, htake, hdrop]
  | @block cs after hcs =>
    have hskip := skipBlock_closed hcs (before ++ ['/', '*']) after
    simpa [item, hgap, skipComment] using hskip
  | @unclosed cs hcs =>
    have hskip := skipBlock_open hcs (before ++ ['/', '*'])
    simpa [item, hgap, skipComment] using hskip

/-! ## Reading words -/

theorem isWordChar_of_isWord {w : String} (h : IsWord w) : ∀ d ∈ w.toList, isWordChar d = true := by
  obtain ⟨c, rest, hw, hc, hrest⟩ := h
  rw [hw, List.forall_mem_cons]
  exact ⟨isWordChar_of_isWordStart hc, hrest⟩

theorem ne_feed_of_isWordChar (h : isWordChar c = true) : c ≠ '\n' := by
  rintro rfl
  simp [isWordChar_of_ascii] at h

theorem behind_between (hc : c ≠ '\n') (before rest : List Char) (k : Kind) (v : Value) :
    (⟨k, v, (between before (c :: rest)).line, (between before (c :: rest)).column⟩ : Token) =
      .behind before k v := by
  simp [Token.behind, line_between hc, column_between hc]

theorem head?_dotted (more : List String) {after : List Char}
    (ha : ∀ d, after.head? = some d → isWordChar d = false) :
    ∀ d, (Lexeme.dotted more ++ after).head? = some d → isWordChar d = false := by
  intro d hd
  cases more with
  | nil => exact ha d hd
  | cons v more =>
    cases hd
    simp [isWordChar_of_ascii]

theorem takeWord_between {w : String} (hw : IsWord w) (before : List Char) {after : List Char}
    (ha : ∀ d, after.head? = some d → isWordChar d = false) :
    (between before (w.toList ++ after)).takeWord =
      (w.toList, between (before ++ w.toList) after) := by
  obtain ⟨htake, hdrop⟩ := takeWhile_append_stop (isWordChar_of_isWord hw) ha
  rw [takeWord, takeWhile_between, htake, hdrop]

theorem word_between {w : String} (hw : IsWord w) (before : List Char) {after : List Char}
    (ha : ∀ d, after.head? = some d → isWordChar d = false) :
    word (between before (w.toList ++ after)) =
      .ok (.behind before (.ofWord w) w) (between (before ++ w.toList) after) := by
  have htake := takeWord_between hw before ha
  obtain ⟨c, rest, hlist, hc, -⟩ := hw
  have hplace := behind_between (ne_feed_of_isWordChar (isWordChar_of_isWordStart hc)) before
    (rest ++ after) (.ofWord w) w
  rw [word, htake]
  rw [← List.cons_append, ← hlist] at hplace
  simp [← hplace]

/-- A point and a word are read, and then what follows them. -/
theorem dottedWords_cons {w : String} (hw : IsWord w) (before : List Char) {after : List Char}
    (ha : ∀ d, after.head? = some d → isWordChar d = false) :
    dottedWords (between before ('.' :: (w.toList ++ after))) =
      prepend [.behind before .dot ".", .behind (before ++ ['.']) (.ofWord w) w]
        (dottedWords (between (before ++ '.' :: w.toList) after)) := by
  have htake := takeWord_between hw (before ++ ['.']) ha
  obtain ⟨c, rest, hlist, hc, -⟩ := hw
  have hdot := behind_between (c := '.') (by decide) before (w.toList ++ after) .dot (.text ".")
  have hword := behind_between (ne_feed_of_isWordChar (isWordChar_of_isWordStart hc))
    (before ++ ['.']) (rest ++ after) (.ofWord w) w
  have hhead : (w.toList ++ after).head? = some c := by simp [hlist]
  rw [← List.cons_append, ← hlist] at hword
  rw [dottedWords]
  simp only [current_between, List.head?_cons, advance_between, dite_true, hhead, hc, if_true,
    htake, String.ofList_toList, hdot, hword, List.append_assoc, List.singleton_append]
  cases dottedWords (between (before ++ '.' :: w.toList) after) <;> rfl

theorem dottedWords_between {more : List String} (hm : ∀ w ∈ more, IsWord w) (before : List Char)
    {after : List Char} (ha : EndsName after) :
    dottedWords (between before (Lexeme.dotted more ++ after)) =
      .ok (Lexeme.dottedBehind before more) (between (before ++ Lexeme.dotted more) after) := by
  induction more generalizing before with
  | nil =>
    have hpoint : after.head? ≠ some '.' := fun hd => (ha '.' hd).2 rfl
    rw [dottedWords]
    simp [Lexeme.dotted, Lexeme.dottedBehind, hpoint]
  | cons w more ih =>
    rw [List.forall_mem_cons] at hm
    have hstep := dottedWords_cons hm.1 before (head?_dotted more fun d hd => (ha d hd).1)
    rw [ih hm.2] at hstep
    simpa [Lexeme.dotted, Lexeme.dottedBehind] using hstep

/-- The words before a stray point are read, and then the point is found to be one. -/
theorem dottedWords_stray {more : List String} (hm : ∀ w ∈ more, IsWord w) (before : List Char)
    (hrest : ∀ d, rest.head? = some d → isWordStart d = false) :
    dottedWords (between before (Lexeme.dotted more ++ '.' :: rest)) =
      .error (Fault.strayDot.after (before ++ (Lexeme.dotted more ++ '.' :: rest.take 1)))
        (between (before ++ (Lexeme.dotted more ++ ['.'])) rest) := by
  induction more generalizing before with
  | nil =>
    rw [dottedWords]
    cases rest with
    | nil =>
      simp [Lexeme.dotted, Fault.after]
      simp [between]
    | cons d rest =>
      simp [Lexeme.dotted, Fault.after, hrest d rfl]
      simp [between]
  | cons w more ih =>
    rw [List.forall_mem_cons] at hm
    have hstep := dottedWords_cons hm.1 before
      (@head?_dotted more ('.' :: rest) (by simp [isWordChar_of_ascii]))
    rw [ih hm.2] at hstep
    simpa [Lexeme.dotted] using hstep

/-! ## Reading numbers, operators and delimiters -/

theorem ne_feed_of_digit (h : Text.isDigit c = true) : c ≠ '\n' :=
  ne_feed_of_isWordChar (isWordChar_of_digit h)

theorem isDigit_of_endsNumber {after : List Char} (h : EndsNumber after) :
    ∀ d, after.head? = some d → Text.isDigit d = false := by
  intro d hd
  have hnumber := h d hd
  simp only [isNumberChar, Bool.or_eq_false_iff] at hnumber
  exact hnumber.1

theorem head?_ne_point {after : List Char} (h : EndsNumber after) : after.head? ≠ some '.' := by
  intro hd
  have hnumber := h '.' hd
  simp [isNumberChar] at hnumber

theorem takeDigits_between {after : List Char} (hw : ∀ d ∈ w, Text.isDigit d = true)
    (ha : ∀ d, after.head? = some d → Text.isDigit d = false) (before : List Char) :
    (between before (w ++ after)).takeWhile Text.isDigit = (w, between (before ++ w) after) := by
  obtain ⟨htake, hdrop⟩ := takeWhile_append_stop hw ha
  rw [takeWhile_between, htake, hdrop]

theorem takeWhole_between (hw : ∀ d ∈ w, Text.isDigit d = true) (before rest : List Char) :
    (between before (w ++ '.' :: rest)).takeWhile Text.isDigit =
      (w, between (before ++ w) ('.' :: rest)) :=
  takeDigits_between hw (by simp [Text.isDigit_of_ascii]) before

theorem item_number {after : List Char} {v : Value} (hc : w.head? = some c)
    (hdigit : Text.isDigit c = true) (before : List Char)
    (h : number (between before (w ++ after)) = .ok v (between (before ++ w) after)) :
    item c (between before (w ++ after)) = .ok [.behind before .number v]
      (between (before ++ w) after) := by
  obtain ⟨w, rfl⟩ := List.head?_eq_some_iff.mp hc
  have hitem := item_of_digit hdigit h
  rwa [List.cons_append, behind_between (ne_feed_of_digit hdigit)] at hitem

theorem exists_head?_of_digits (hne : w ≠ []) (hw : ∀ d ∈ w, Text.isDigit d = true)
    (rest : List Char) : ∃ c, (w ++ rest).head? = some c ∧ Text.isDigit c = true := by
  obtain ⟨c, w, rfl⟩ := List.exists_cons_of_ne_nil hne
  exact ⟨c, rfl, hw c (by simp)⟩

theorem item_operator {after : List Char} (hc : isSignStart c = true)
    (hcomment : c = '/' → ∀ d ∈ ['/', '*'], (w ++ after).head? ≠ some d) (before : List Char)
    (hsign : k.sign? = some (String.ofList (c :: w)))
    (h : (between before (c :: (w ++ after))).takeSign =
      ((some k, c :: w), between (before ++ c :: w) after)) :
    item c (between before (c :: (w ++ after))) = .ok [.behind before k (k.sign?.getD "")]
      (between (before ++ c :: w) after) := by
  obtain ⟨-, hfeed, -, -⟩ := signs_spec c (isSignStart_iff.mp hc)
  have hitem := item_of_sign (r := between before (c :: (w ++ after))) hc hcomment h
  rw [behind_between hfeed] at hitem
  simpa [hsign] using hitem

theorem delimiter_between (hk : Kind.ofDelimiter? c = some k) (before after : List Char) :
    delimiter (between before (c :: after)) =
      .ok [.behind before k (k.sign?.getD "")] (between (before ++ [c]) after) := by
  have hplace := behind_between (mem_fences_of_ofDelimiter? hk).2 before after k (.text c.toString)
  simp only [delimiter, current_between, List.head?_cons, hk, hplace, advance_between,
    sign?_of_ofDelimiter? hk, Option.getD_some]

theorem item_delimiter (hk : Kind.ofDelimiter? c = some k) (before after : List Char) :
    item c (between before (c :: after)) = .ok [.behind before k (k.sign?.getD "")]
      (between (before ++ [c]) after) := by
  obtain ⟨hgap, hword, hdigit, hsign⟩ := delimiter_spec hk
  rw [item_eq_delimiter hgap hword hdigit hsign, delimiter_between hk]

/-- An item is read as the tokens of its lexeme, and reading goes on as behind it. After a blank all
the blanks that follow have been passed too. -/
theorem exists_item_ok {after : List Char} (h : Item w after l) (before : List Char) :
    ∃ c last, (w ++ after).head? = some c ∧
      item c (between before (w ++ after)) = .ok (l.elim [] (Lexeme.behind before)) last ∧
      tokens last = tokens (between (before ++ w) after) := by
  cases h with
  | gap hgap =>
    cases hgap with
    | @blank c after hc =>
      have hc := isGap_iff.mpr hc
      refine ⟨c, _, rfl, item_blanks before after hc, ?_⟩
      rw [tokens_blanks (before ++ [c])]
      simp [hc]
    | line hcs ha => exact ⟨_, _, rfl, item_comment (.line hcs ha) rfl before, rfl⟩
    | block hcs => exact ⟨_, _, rfl, item_comment (.block hcs) rfl before, rfl⟩
    | unclosed hcs => exact ⟨_, _, rfl, item_comment (.unclosed hcs) rfl before, rfl⟩
  | @words first more after hf hm ha =>
    have hword := word_between hf before (head?_dotted more fun d hd => (ha d hd).1)
    have hdotted := dottedWords_between hm (before ++ first.toList) ha
    obtain ⟨c, rest, hw, hc, -⟩ := hf
    have hitem := item_of_word hc hword hdotted
    rw [← List.append_assoc, List.append_assoc before] at hitem
    exact ⟨c, _, by simp [hw], hitem, rfl⟩
  | @integer _ _ n hne hw ha hn =>
    obtain ⟨c, hc, hdigit⟩ := exists_head?_of_digits hne hw []
    have hnumber : number (between before (w ++ after)) =
        .ok (.int n) (between (before ++ w) after) := by
      simp [number, takeDigits_between hw (isDigit_of_endsNumber ha), head?_ne_point ha, hn]
    rw [List.append_nil] at hc
    exact ⟨c, _, by simp [hc], item_number hc hdigit before hnumber, rfl⟩
  | @decimal whole fraction after x hne hwhole hfraction ha hx =>
    obtain ⟨c, hc, hdigit⟩ := exists_head?_of_digits hne hwhole ('.' :: fraction)
    have hnumber : number (between before (whole ++ '.' :: fraction ++ after)) =
        .ok (.double x) (between (before ++ (whole ++ '.' :: fraction)) after) := by
      simp [number, takeWhole_between hwhole,
        takeDigits_between hfraction (isDigit_of_endsNumber ha), head?_ne_point ha, hx]
    exact ⟨c, _, by simp only [List.head?_append, hc, Option.some_or],
      item_number hc hdigit before hnumber, rfl⟩
  | @operator c k after hc hk hequal hcomment =>
    have hsign : (between before (c :: ([] ++ after))).takeSign =
        ((some k, [c]), between (before ++ [c]) after) := by
      simp [takeSign, hk, hequal]
    exact ⟨c, _, rfl, item_operator (w := []) hc hcomment before (sign?_of_ofSign? hk) hsign, rfl⟩
  | @operatorEqual c k after hc hk =>
    have hsign : (between before (c :: (['='] ++ after))).takeSign =
        ((some k, [c, '=']), between (before ++ [c, '=']) after) := by
      simp [takeSign, hk]
    exact ⟨c, _, rfl, item_operator hc (by simp) before (sign?_of_ofSignEqual? hk) hsign, rfl⟩
  | @delimiter c k after hk => exact ⟨c, _, rfl, item_delimiter hk before after, rfl⟩

theorem exists_item_error {read : List Char} (h : Halt rest read f) (before : List Char) :
    ∃ c last, rest.head? = some c ∧
      item c (between before rest) = .error (f.after (before ++ read)) last := by
  cases h with
  | @stranger c rest hc =>
    refine ⟨c, between before (c :: rest), rfl, ?_⟩
    rw [item_eq_delimiter hc.gap hc.word hc.digit hc.sign, delimiter]
    simp only [current_between, List.head?_cons, hc.delimiter]
    rfl
  | @mark rest hrest =>
    have hequal : rest.head? ≠ some '=' := fun hd => (hrest '=' hd).1 rfl
    refine ⟨'!', between (before ++ ['!']) rest, rfl, ?_⟩
    rw [item_mark rfl (by simpa using hequal), advance_between, delimiter]
    cases rest with
    | nil =>
      simp [Fault.after]
      simp [between]
    | cons d rest => simp [Fault.after, between, (hrest d rfl).2]
  | @strayDot first more rest hf hm hrest =>
    have hword := word_between hf before
      (@head?_dotted more ('.' :: rest) (by simp [isWordChar_of_ascii]))
    have hdotted := dottedWords_stray hm (before ++ first.toList) hrest
    obtain ⟨c, tail, hw, hc, -⟩ := hf
    have hitem := item_of_word_error hc hword hdotted
    rw [List.append_assoc before] at hitem
    exact ⟨c, _, by simp [hw], hitem⟩
  | @secondPoint whole fraction rest hne hwhole hfraction =>
    obtain ⟨c, hc, hdigit⟩ := exists_head?_of_digits hne hwhole ('.' :: (fraction ++ '.' :: rest))
    have hnumber : number (between before (whole ++ '.' :: (fraction ++ '.' :: rest))) =
        .error (Fault.secondPoint.after (before ++ (whole ++ '.' :: (fraction ++ ['.']))))
          (between (before ++ (whole ++ '.' :: fraction)) ('.' :: rest)) := by
      simp [number, takeWhole_between hwhole, takeWhole_between hfraction, Fault.after]
      simp [between]
    exact ⟨c, _, hc, item_of_digit_error hdigit hnumber⟩
  | @integer _ after e hne hw ha he =>
    obtain ⟨c, hc, hdigit⟩ := exists_head?_of_digits hne hw after
    have hnumber : number (between before (read ++ after)) =
        .error (.numeral e) (between (before ++ read) after) := by
      simp [number, takeDigits_between hw (isDigit_of_endsNumber ha), head?_ne_point ha, he]
    exact ⟨c, _, hc, item_of_digit_error hdigit hnumber⟩
  | @decimal whole fraction after e hne hwhole hfraction ha he =>
    obtain ⟨c, hc, hdigit⟩ := exists_head?_of_digits hne hwhole ('.' :: fraction ++ after)
    have hnumber : number (between before (whole ++ '.' :: fraction ++ after)) =
        .error (.numeral e) (between (before ++ (whole ++ '.' :: fraction)) after) := by
      simp [number, takeWhole_between hwhole,
        takeDigits_between hfraction (isDigit_of_endsNumber ha), head?_ne_point ha, he]
    exact ⟨c, _, by rw [List.append_assoc, hc], item_of_digit_error hdigit hnumber⟩

theorem not_item_of_halt {read : List Char} (h : Halt rest read f) {after : List Char}
    (hrest : rest = w ++ after) (l : Option Lexeme) : ¬Item w after l := by
  intro hitem
  obtain ⟨c, last, hc, hok, -⟩ := exists_item_ok hitem []
  obtain ⟨d, last', hd, herror⟩ := exists_item_error h []
  rw [← hrest] at hc hok
  obtain rfl : c = d := by simpa [hc] using hd
  rw [hok] at herror
  cases herror

/-! ## What reading a text gives -/

/-- What reading a text gives that stands behind another one. -/
def outcome (before rest : List Char) : Except LexicalError (List Token) :=
  match tokens (between before rest) with
  | .ok ts _ => .ok ts
  | .error e _ => .error e

theorem ofText_eq_outcome (source : String) : Token.ofText source = outcome [] source.toList := by
  rw [Token.ofText, ofText_eq_between]
  rfl

theorem map_append_map (ts us : List Token) (x : Except LexicalError (List Token)) :
    (x.map (us ++ ·)).map (ts ++ ·) = x.map (ts ++ us ++ ·) := by
  cases x <;> simp [Except.map]

theorem outcome_of_item {before before' rest' : List Char} {last : Reader}
    (hc : rest.head? = some c) (h : item c (between before rest) = .ok ts last)
    (hlast : tokens last = tokens (between before' rest')) :
    outcome before rest = (outcome before' rest').map (ts ++ ·) := by
  rw [outcome, outcome, tokens_of_item hc h, hlast]
  cases tokens (between before' rest') <;> rfl

theorem outcome_item {after : List Char} (h : Item w after l) (before : List Char) :
    outcome before (w ++ after) =
      (outcome (before ++ w) after).map (l.elim [] (Lexeme.behind before) ++ ·) := by
  obtain ⟨c, last, hc, hitem, hlast⟩ := exists_item_ok h before
  exact outcome_of_item hc hitem hlast

theorem outcome_item_eq_ok {after : List Char} (h : Item w after l) {before : List Char}
    (hts : outcome before (w ++ after) = .ok ts) : ∃ more, outcome (before ++ w) after = .ok more ∧
      l.elim [] (Lexeme.behind before) ++ more = ts := by
  rw [outcome_item h] at hts
  cases hmore : outcome (before ++ w) after with
  | error e =>
    rw [hmore] at hts
    cases hts
  | ok more =>
    rw [hmore] at hts
    cases hts
    exact ⟨more, rfl, rfl⟩

theorem outcome_item_eq_error {after : List Char} (h : Item w after l) {before : List Char} :
    outcome before (w ++ after) = .error e ↔ outcome (before ++ w) after = .error e := by
  rw [outcome_item h]
  cases outcome (before ++ w) after <;> simp [Except.map]

theorem outcome_gap {w after : List Char} (h : Gap w after) (before : List Char) :
    outcome before (w ++ after) = outcome (before ++ w) after := by
  rw [outcome_item (.gap h)]
  cases outcome (before ++ w) after <;> rfl

theorem outcome_blank (hc : isGap c = true) (before rest : List Char) :
    outcome before (c :: rest) = outcome (before ++ [c]) rest :=
  @outcome_gap [c] rest (.blank (isGap_iff.mp hc)) before

theorem outcome_end (before : List Char) : outcome before [] =
    .ok [⟨.endOfInput, .absent, Text.endLine before, Text.endColumn before⟩] := by
  rw [outcome, tokens]
  simp [between]

/-- A mark before a delimiter is passed over. -/
theorem outcome_mark {d : Char} (hd : (Kind.ofDelimiter? d).isSome = true)
    (before more : List Char) :
    outcome before ('!' :: d :: more) = outcome (before ++ ['!']) (d :: more) := by
  obtain ⟨k, hk⟩ := Option.isSome_iff_exists.mp hd
  have hequal : d ≠ '=' := by
    rintro rfl
    cases hk
  have hitem : item '!' (between before ('!' :: d :: more)) =
      delimiter (between (before ++ ['!']) (d :: more)) := by
    rw [item_mark rfl (by simpa using hequal), advance_between]
  rw [outcome_of_item rfl (hitem.trans (delimiter_between hk (before ++ ['!']) more)) rfl,
    outcome_of_item rfl (item_delimiter hk (before ++ ['!']) more) rfl]

theorem outcome_halt {read : List Char} (h : Halt rest read f) (before : List Char) :
    outcome before rest = .error (f.after (before ++ read)) := by
  obtain ⟨c, last, hc, hitem⟩ := exists_item_error h before
  rw [outcome, tokens_of_item_error hc hitem]

/-! ## The tokens carry what they are read from -/

/-- A word is a name or a keyword, and its token says which. -/
theorem faithful_word {w : String} (hw : IsWord w) (before : List Char) :
    (Token.behind before (.ofWord w) w).Faithful := by
  cases hk : keywords.lookup w with
  | none => simpa [Token.behind, Kind.ofWord, hk] using Token.Faithful.name ⟨hw, hk⟩
  | some kind =>
    obtain ⟨front, back, heq, -⟩ := List.lookup_eq_some_iff.mp hk
    have hmem : (w, kind) ∈ keywords := by simp [heq]
    simpa [Token.behind, Kind.ofWord, hk] using Token.Faithful.keyword hmem

theorem faithful_dottedBehind {more : List String} (hm : ∀ w ∈ more, IsWord w)
    (before : List Char) : ∀ t ∈ Lexeme.dottedBehind before more, t.Faithful := by
  induction more generalizing before with
  | nil => simp [Lexeme.dottedBehind]
  | cons w more ih =>
    rw [List.forall_mem_cons] at hm
    rw [Lexeme.dottedBehind, List.forall_mem_cons, List.forall_mem_cons]
    exact ⟨.sign rfl, faithful_word hm.1 _, ih hm.2 _⟩

theorem faithful_sign {w : String} (h : k.sign? = some w) (before : List Char) :
    ∀ t ∈ (Lexeme.sign k).behind before, t.Faithful := by
  simpa [Lexeme.behind, Token.behind, h] using Token.Faithful.sign h

/-- One item gives tokens that carry what they were read from. -/
theorem faithful_item {after : List Char} (h : Item w after l) (before : List Char) :
    ∀ t ∈ l.elim [] (Lexeme.behind before), t.Faithful := by
  cases h with
  | gap hgap => simp
  | words hf hm ha =>
    rw [Option.elim_some, Lexeme.behind, List.forall_mem_cons]
    exact ⟨faithful_word hf before, faithful_dottedBehind hm _⟩
  | integer hne hw ha hn => simpa [Lexeme.behind, Token.behind] using Token.Faithful.integer _
  | decimal hne hwhole hfraction ha hx =>
    simpa [Lexeme.behind, Token.behind] using
      Token.Faithful.decimal (Numeral.isMeasure_of_decimal hx)
  | operator hc hk hequal hcomment => exact faithful_sign (sign?_of_ofSign? hk) before
  | operatorEqual hc hk => exact faithful_sign (sign?_of_ofSignEqual? hk) before
  | delimiter hk => exact faithful_sign (sign?_of_ofDelimiter? hk) before

/-- A text gives a lexed list: the tokens of its items one after the other, and the closing
token. -/
theorem lexed_outcome (before rest : List Char) :
    ∀ {ts : List Token}, outcome before rest = .ok ts → Token.Lexed ts := by
  induction before, rest using reading_induction with
  | done before =>
    intro ts h
    rw [outcome_end] at h
    cases h
    exact ⟨[], _, rfl, rfl, by simp⟩
  | item before w after l hitem ih =>
    intro ts h
    obtain ⟨more, hmore, rfl⟩ := outcome_item_eq_ok hitem h
    obtain ⟨body, closing, rfl, hk, hbody⟩ := ih hmore
    refine ⟨_ ++ body, closing, (List.append_assoc ..).symm, hk, ?_⟩
    rw [List.forall_mem_append]
    exact ⟨faithful_item hitem before, hbody⟩
  | mark before d more hd ih =>
    intro ts h
    rw [outcome_mark hd] at h
    exact ih h
  | halt before rest read f hhalt =>
    intro ts h
    rw [outcome_halt hhalt] at h
    cases h

end Scan

theorem lexed_of_ofText {source : String} (h : Token.ofText source = .ok ts) : Token.Lexed ts := by
  rw [Scan.ofText_eq_outcome] at h
  exact Scan.lexed_outcome [] source.toList h

end DrawPlus
