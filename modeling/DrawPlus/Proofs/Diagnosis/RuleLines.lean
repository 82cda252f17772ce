import DrawPlus.Proofs.Diagnosis.GrammarLines
import DrawPlus.Proofs.Scope.Refusals

/-!
# The line of an error about a rule

The messages about broken rules tell no line, and most of them speak of none, so that the first line
is found in them. But some show a name of the program, and a name can have `line` in it: whatever
follows there is taken for the number of a line, if it is one (`namedLine_of_name?`).
-/

namespace DrawPlus

open Text

variable {e : ScopeError} {d : List Char} {n : ℕ}

/-- The name reads like a line with its number: the number stands after the first `line` in it, and
before the next one or the end of the name. -/
def ReadsAsLine (w : String) (n : ℕ) : Prop :=
  ∃ before digits after, w.toList = before ++ "line".toList ++ (digits ++ after) ∧
    ¬"line".toList <:+: before ++ "lin".toList ∧ (after = [] ∨ "line".toList <+: after) ∧
    Numeral.natural digits = .ok n

/-! ## Numbers in names -/

theorem Numeral.isDigit_of_length_leadingDigits (h : (leadingDigits d).length = d.length) :
    ∀ c ∈ d, Text.isDigit c = true := by
  induction d with
  | nil => simp
  | cons c d ih =>
    cases hc : decimalValue? c with
    | none => simp [leadingDigits_of_none hc] at h
    | some v =>
      rw [leadingDigits_of_some hc, List.length_cons, List.length_cons] at h
      rw [List.forall_mem_cons]
      exact ⟨isDigit_of_decimalValue? hc, ih (by omega)⟩

theorem Numeral.digits_of_natural (h : natural d = .ok n) :
    d ≠ [] ∧ ∀ c ∈ d, Text.isDigit c = true := by
  have hle := length_leadingDigits_le d
  unfold natural at h
  dsimp only at h
  split_ifs at h with _ hshort
  simp only [Bool.or_eq_true, List.isEmpty_iff, decide_eq_true_eq, not_or] at hshort
  constructor
  · rintro rfl
    exact hshort.1 rfl
  · exact isDigit_of_length_leadingDigits (by omega)

theorem letter_notMem_digits (h : ∀ c ∈ d, Text.isDigit c = true) {c : Char}
    (hc : Text.isDigit c = false) : c ∉ d := by
  intro hmem
  rw [h c hmem] at hc
  cases hc

/-- What is read is what stands between the first `line` and the next one. -/
theorem readsAsLine_iff {w : String} : ReadsAsLine w n ↔
    ∃ d, afterPhrase? "line".toList w.toList = some d ∧ Numeral.natural d = .ok n := by
  constructor
  · rintro ⟨before, digits, after, hw, hfirst, hafter, hn⟩
    have hdigits := (Numeral.digits_of_natural hn).2
    have hl : 'l' ∉ digits := letter_notMem_digits hdigits (isDigit_of_ascii (by decide))
    have he : 'e' ∉ digits := letter_notMem_digits hdigits (isDigit_of_ascii (by decide))
    refine ⟨digits, ?_, hn⟩
    have hcut := @cut?_first "line".toList before hfirst (digits ++ after)
    rw [afterPhrase?_eq, hw, hcut, Option.map_some]
    rcases hafter with rfl | ⟨rest, rfl⟩
    · have hnone : ¬"line".toList <:+: digits := not_infix_of_notMem (by decide) hl
      rw [List.append_nil, cut?_eq_none_iff.mpr hnone]
      rfl
    · have hnext := @cut?_first "line".toList digits
        (not_infix_of_notMem (c := 'e') (by decide) (by simp [he])) rest
      rw [List.append_assoc] at hnext
      rw [hnext]
      rfl
  · rintro ⟨d, hd, hn⟩
    rw [afterPhrase?_eq] at hd
    obtain ⟨⟨before, rest⟩, hcut, rfl⟩ := Option.map_eq_some_iff.mp hd
    have happend := append_of_cut? hcut
    have hfirst := not_infix_of_cut? (by decide) hcut
    cases hnext : cut? "line".toList rest with
    | none =>
      rw [hnext] at hn
      exact ⟨before, rest, [], by rwa [List.append_nil], hfirst, .inl rfl, hn⟩
    | some cut =>
      rw [hnext] at hn
      have hrest := append_of_cut? hnext
      refine ⟨before, cut.1, "line".toList ++ cut.2, ?_, hfirst, .inr (List.prefix_append _ _), hn⟩
      rw [happend, hrest, List.append_assoc cut.1]

/-! ## The wording of messages about names -/

namespace Diagnosis

/-- What stands before a name in the messages about names, and what stands behind it. -/
def wordings : List (String × Option String) :=
  [("Identifier", some "already declared"), ("Variable", some "already declared"),
    ("Variable", some "not declared"), ("Type mismatch in initialization of", none),
    ("Type mismatch in assignment to", none), ("Identifier", some "is not a cursor")]

/-- What stands behind a name, with the blank between them. -/
def behind (words : Option String) : List Char := words.elim [] fun w => ' ' :: w.toList

theorem exists_wording {w : String} (h : e.name? = some (.text w)) :
    ∃ around ∈ wordings, e.message.toList =
      around.1.toList ++ ' ' :: (w.toList ++ behind around.2) := by
  cases e with
  | nameTaken name =>
    obtain rfl : name = .text w := Option.some.inj h
    refine ⟨("Identifier", some "already declared"), by simp [wordings], ?_⟩
    change ("Identifier " ++ w ++ " already declared").toList = _
    simp [behind]
  | variableTaken name =>
    obtain rfl : name = .text w := Option.some.inj h
    refine ⟨("Variable", some "already declared"), by simp [wordings], ?_⟩
    change ("Variable " ++ w ++ " already declared").toList = _
    simp [behind]
  | undeclared name =>
    obtain rfl : name = .text w := Option.some.inj h
    refine ⟨("Variable", some "not declared"), by simp [wordings], ?_⟩
    change ("Variable " ++ w ++ " not declared").toList = _
    simp [behind]
  | initializer name =>
    obtain rfl : name = .text w := Option.some.inj h
    refine ⟨("Type mismatch in initialization of", none), by simp [wordings], ?_⟩
    change ("Type mismatch in initialization of " ++ w).toList = _
    simp [behind]
  | assignment name =>
    obtain rfl : name = .text w := Option.some.inj h
    refine ⟨("Type mismatch in assignment to", none), by simp [wordings], ?_⟩
    change ("Type mismatch in assignment to " ++ w).toList = _
    simp [behind]
  | notCursor name =>
    obtain rfl : name = .text w := Option.some.inj h
    refine ⟨("Identifier", some "is not a cursor"), by simp [wordings], ?_⟩
    change ("Identifier " ++ w ++ " is not a cursor").toList = _
    simp [behind]
  | _ => cases h

section

variable {around : String × Option String} {w : List Char}

/-- A phrase of two words is not in a message about a name if it is not in the wording, and the name
stands at neither of the two words. -/
theorem not_infix_message (hmem : around ∈ wordings) (hw : ' ' ∉ w) {p q : List Char}
    (hp : ' ' ∉ p) (hq : ' ' ∉ q)
    (hbefore : ∀ around ∈ wordings, ¬p ++ ' ' :: q <:+: around.1.toList ∧ ¬p <:+ around.1.toList)
    (hbehind : ∀ around ∈ wordings, ∀ b ∈ around.2,
      ¬p ++ ' ' :: q <:+: b.toList ∧ ¬q <+: b.toList) :
    ¬p ++ ' ' :: q <:+: around.1.toList ++ ' ' :: (w ++ behind around.2) := by
  have hname : ¬p ++ ' ' :: q <:+: w := not_infix_of_notMem (by simp) hw
  intro hoccurs
  rcases infix_around hp hq hoccurs with hoccurs | hoccurs | ⟨hsuffix, -⟩
  · exact (hbefore around hmem).1 hoccurs
  · cases hb : around.2 with
    | none =>
      rw [hb, behind, Option.elim_none, List.append_nil] at hoccurs
      exact hname hoccurs
    | some b =>
      rw [hb, behind, Option.elim_some] at hoccurs
      obtain ⟨hinside, hstart⟩ := hbehind around hmem b hb
      rcases infix_around hp hq hoccurs with hoccurs | hoccurs | ⟨-, hstarts⟩
      · exact hname hoccurs
      · exact hinside hoccurs
      · exact hstart hstarts
  · exact (hbefore around hmem).2 hsuffix

theorem notMem_message (hmem : around ∈ wordings) {c : Char} (hc : c ≠ ' ') (hw : c ∉ w)
    (hwordings : ∀ around ∈ wordings, c ∉ around.1.toList ∧ ∀ b ∈ around.2, c ∉ b.toList) :
    c ∉ around.1.toList ++ ' ' :: (w ++ behind around.2) := by
  obtain ⟨hbefore, hbehind⟩ := hwordings around hmem
  cases hb : around.2 with
  | none => simp [behind, hbefore, hw, hc]
  | some b => simp [behind, hbefore, hw, hc, hbehind b hb]

/-! ## The number in the name -/

theorem cut?_append_behind (hmem : around ∈ wordings) (h : ¬"line".toList <:+: w) :
    cut? "line".toList (w ++ behind around.2) = none := by
  have hbehind : ∀ around ∈ wordings, ∀ b ∈ around.2, ¬"line".toList <:+: b.toList := by
    decide
  rw [cut?_eq_none_iff]
  cases hb : around.2 with
  | none => rwa [behind, Option.elim_none, List.append_nil]
  | some b =>
    rw [behind, Option.elim_some, infix_fence (by decide)]
    exact not_or.mpr ⟨h, hbehind around hmem b hb⟩

/-- What follows `line` in the message is what follows it in the name, with or without the words
behind the name. -/
theorem afterPhrase?_message (hmem : around ∈ wordings) :
    afterPhrase? "line".toList (around.1.toList ++ ' ' :: (w ++ behind around.2)) =
        afterPhrase? "line".toList w ∨
      afterPhrase? "line".toList (around.1.toList ++ ' ' :: (w ++ behind around.2)) =
        (afterPhrase? "line".toList w).map (· ++ behind around.2) := by
  have hbefore : ∀ around ∈ wordings, ¬"line".toList <:+: around.1.toList := by decide
  rw [afterPhrase?_fence (by decide) (hbefore around hmem), afterPhrase?_eq, afterPhrase?_eq]
  cases hcut : cut? "line".toList w with
  | none =>
    rw [cut?_append_behind hmem (cut?_eq_none_iff.mp hcut)]
    exact .inl rfl
  | some cut =>
    have hfirst := not_infix_of_cut? (by decide) hcut
    have hwhole := @cut?_first "line".toList cut.1 hfirst (cut.2 ++ behind around.2)
    rw [← List.append_assoc, ← append_of_cut? hcut] at hwhole
    rw [hwhole]
    simp only [Option.map_some]
    cases hnext : cut? "line".toList cut.2 with
    | none =>
      rw [cut?_append_behind hmem (cut?_eq_none_iff.mp hnext)]
      exact .inr rfl
    | some next =>
      have hsecond := not_infix_of_cut? (by decide) hnext
      have hrest := @cut?_first "line".toList next.1 hsecond (next.2 ++ behind around.2)
      rw [← List.append_assoc, ← append_of_cut? hnext] at hrest
      rw [hrest]
      exact .inl rfl

theorem mem_of_afterPhrase? {phrase text : List Char} (h : afterPhrase? phrase text = some d) :
    ∀ c ∈ d, c ∈ text := by
  rw [afterPhrase?_eq] at h
  obtain ⟨cut, hcut, rfl⟩ := Option.map_eq_some_iff.mp h
  intro c hc
  rw [append_of_cut? hcut]
  cases hnext : cut? phrase cut.2 with
  | none =>
    rw [hnext] at hc
    exact List.mem_append_right _ hc
  | some next =>
    rw [hnext] at hc
    rw [append_of_cut? hnext]
    simp_all

/-- The only field that can consist of digits is the one in front. -/
theorem digitField?_fields (hd : ∀ c ∈ d, isBlank c = false) {words : Option String}
    (hwords : ∀ b ∈ words, digitField? (fields b.toList) = none) :
    digitField? (fields (d ++ behind words)) =
      if d ≠ [] ∧ ∀ c ∈ d, Text.isDigit c = true then some d else none := by
  have hfields : fields (d ++ behind words) =
      (if d = [] then [] else [d]) ++ (words.elim [] fun b => fields b.toList) := by
    rw [fields, fieldsFrom_append hd, List.nil_append]
    cases words with
    | none => by_cases hnil : d = [] <;> simp [behind, fieldsFrom, hnil]
    | some b =>
      have hblank : isBlank ' ' = true := by decide
      by_cases hnil : d = [] <;> simp [behind, fieldsFrom, hblank, hnil, fields]
  have hrest : digitField? (words.elim [] fun b => fields b.toList) = none := by
    cases words with
    | none => rfl
    | some b => exact hwords b rfl
  rw [hfields]
  by_cases hnil : d = []
  · simpa [hnil] using hrest
  · unfold digitField? at hrest ⊢
    rw [if_neg hnil, List.singleton_append, List.find?_cons, hrest]
    by_cases hall : ∀ c ∈ d, Text.isDigit c = true
    · have htest : (!d.isEmpty && d.all Text.isDigit) = true := by simpa [hnil] using hall
      rw [htest, if_pos ⟨hnil, hall⟩]
    · have htest : (!d.isEmpty && d.all Text.isDigit) = false := by simpa [hnil] using hall
      rw [htest, if_neg fun h => hall h.2]

end

theorem not_infix_at_message {around : String × Option String} (hmem : around ∈ wordings)
    {w : List Char} (hw : ' ' ∉ w) :
    ¬"at line".toList <:+: around.1.toList ++ ' ' :: (w ++ behind around.2) := by
  have hphrase : "at line".toList = "at".toList ++ ' ' :: "line".toList := by decide
  rw [hphrase]
  exact not_infix_message hmem hw (by decide) (by decide) (by decide) (by decide)

/-- The line that is found in a message about a name is the one that the name reads like, or else
the first one. -/
theorem namedLine_of_name? {w : String} (hw : IsName w) (h : e.name? = some (.text w)) :
    namedLine e.message.toList =
      ((afterPhrase? "line".toList w.toList).bind fun d =>
        (Numeral.natural d).toOption.map fun n => (n : Int)).getD 1 := by
  obtain ⟨around, hmem, hmessage⟩ := exists_wording h
  have hequals : '=' ∉ around.1.toList ++ ' ' :: (w.toList ++ behind around.2) :=
    notMem_message hmem (by decide) (hw.notMem (by simp [isWordChar_of_ascii])) (by decide)
  rw [hmessage, namedLine_of_word
    (not_infix_at_message hmem (hw.notMem (by simp [isWordChar_of_ascii])))
    (not_infix_of_notMem (by decide) hequals)]
  cases hd : afterPhrase? "line".toList w.toList with
  | none =>
    rcases @afterPhrase?_message around w.toList hmem with hnone | hnone <;> rw [hnone, hd] <;> rfl
  | some d =>
    have hfields : ∀ around ∈ wordings, ∀ b ∈ around.2, digitField? (fields b.toList) = none := by
      decide
    -- the words behind the name are in or out, and have no digits
    obtain ⟨words, hwords, hrest⟩ : ∃ words : Option String,
        (∀ b ∈ words, digitField? (fields b.toList) = none) ∧ afterPhrase? "line".toList
          (around.1.toList ++ ' ' :: (w.toList ++ behind around.2)) = some (d ++ behind words) := by
      rcases @afterPhrase?_message around w.toList hmem with hsome | hsome
      · exact ⟨none, by simp, by rw [hsome, hd]; simp [behind]⟩
      · exact ⟨around.2, hfields around hmem, by rw [hsome, hd]; rfl⟩
    have hblank : ∀ c ∈ d, isBlank c = false := fun c hc =>
      isBlank_of_isWordChar (hw.chars c (mem_of_afterPhrase? hd c hc))
    rw [hrest, Option.bind_some, Option.bind_some, digitField?_fields hblank hwords]
    split_ifs with hdigits
    · rw [Option.bind_some, Numeral.integer?_of_digits hdigits.2]
    · cases hn : Numeral.natural d with
      | ok n => exact absurd (Numeral.digits_of_natural hn) hdigits
      | error error => rfl

theorem namedLine_of_readsAsLine {w : String} (hw : IsName w) (h : e.name? = some (.text w))
    (hn : ReadsAsLine w n) : namedLine e.message.toList = n := by
  obtain ⟨d, hd, hn⟩ := readsAsLine_iff.mp hn
  rw [namedLine_of_name? hw h, hd, Option.bind_some, hn]
  rfl

theorem namedLine_of_not_readsAsLine {w : String} (hw : IsName w) (h : e.name? = some (.text w))
    (hn : ∀ n, ¬ReadsAsLine w n) : namedLine e.message.toList = 1 := by
  rw [namedLine_of_name? hw h]
  cases hd : afterPhrase? "line".toList w.toList with
  | none => rfl
  | some d =>
    cases hnatural : Numeral.natural d with
    | error error => simp [hnatural, Except.toOption]
    | ok n => exact absurd (readsAsLine_iff.mpr ⟨d, hd, hnatural⟩) (hn n)

/-- No semicolon is said to be missing in a message about a name, so that its line is not moved. -/
theorem lineOf_of_name? {w : String} (hw : IsName w) (h : e.name? = some (.text w))
    (code : List Char) : lineOf e.message.toList code = namedLine e.message.toList := by
  obtain ⟨around, hmem, hmessage⟩ := exists_wording h
  have hphrase : "Missing semicolon".toList = "Missing".toList ++ ' ' :: "semicolon".toList := by
    decide
  have hpoint : '.' ∉ around.1.toList ++ ' ' :: (w.toList ++ behind around.2) :=
    notMem_message hmem (by decide) (hw.notMem (by simp [isWordChar_of_ascii])) (by decide)
  rw [hmessage]
  apply lineOf_of_not_infix
  · rw [hphrase]
    exact not_infix_message hmem (hw.notMem (by simp [isWordChar_of_ascii])) (by decide) (by decide)
      (by decide) (by decide)
  · exact not_infix_of_notMem (by decide) hpoint

/-! ## The other messages -/

section

variable {m : Value} {types : List Kind}

/-- One of the methods has `line` in its name, and takes one argument: the number of a line again,
but of the first one. -/
theorem namedLine_arity (hm : (m, types) ∈ Check.methods) {front : List Char}
    (hfront : front ∈ ["Method ".toList, "Shape ".toList]) :
    namedLine (front ++ (m.display.toList ++ (" expects ".toList ++
      (Nat.toDigits 10 types.length ++ " parameters".toList)))) = 1 := by
  have hall : ∀ entry ∈ Check.methods, ∀ front ∈ ["Method ".toList, "Shape ".toList],
      namedLine (front ++ (entry.1.display.toList ++ (" expects ".toList ++
        (Nat.toDigits 10 entry.2.length ++ " parameters".toList)))) = 1 := by
    simp only [String.reduceToList]
    decide
  exact hall _ hm front hfront

theorem namedLine_argument (hm : (m, types) ∈ Check.methods) {front : List Char}
    (hfront : front ∈ ["Invalid parameter type for method ".toList,
      "Invalid parameter type for shape ".toList]) :
    namedLine (front ++ m.display.toList) = 1 := by
  have hall : ∀ entry ∈ Check.methods, ∀ front ∈ ["Invalid parameter type for method ".toList,
      "Invalid parameter type for shape ".toList],
      namedLine (front ++ entry.1.display.toList) = 1 := by
    simp only [String.reduceToList]
    decide
  exact hall _ hm front hfront

theorem namedLine_operands {left right : Option Kind} (hl : ScopeError.IsType left)
    (hr : ScopeError.IsType right) {front : List Char} (hfront : ¬"line".toList <:+: front) :
    namedLine (front ++ ':' :: (" ".toList ++ ((Kind.labelOrNone left).toList ++
      (" and ".toList ++ (Kind.labelOrNone right).toList)))) = 1 := by
  have hlabel {type : Option Kind} (htype : ScopeError.IsType type) :
      'l' ∉ (Kind.labelOrNone type).toList := by
    cases type with
    | none => decide
    | some k => exact Kind.notMem_label (htype k rfl)
  apply namedLine_of_not_infix
  rw [infix_fence (by decide)]
  refine not_or.mpr ⟨hfront, not_infix_of_notMem (c := 'l') (by decide) ?_⟩
  simp [hlabel hl, hlabel hr]

end

/-- A message that is about no name is about the first line. -/
theorem namedLine_of_isOrdinary (h : e.IsOrdinary) (hname : e.name? = none) :
    namedLine e.message.toList = 1 := by
  cases h with
  | name hsome =>
    rw [hname] at hsome
    cases hsome
  | @methodArity m types hm =>
    have hline := @namedLine_arity m types hm "Method ".toList (by simp)
    change namedLine ("Method " ++ m.display ++ " expects " ++ toString types.length ++
      " parameters").toList = 1
    simpa using hline
  | @shapeArity m types hm =>
    have hline := @namedLine_arity m types hm "Shape ".toList (by simp)
    change namedLine ("Shape " ++ m.display ++ " expects " ++ toString types.length ++
      " parameters").toList = 1
    simpa using hline
  | @methodArgument m types hm =>
    have hline := @namedLine_argument m types hm "Invalid parameter type for method ".toList
      (by simp)
    change namedLine ("Invalid parameter type for method " ++ m.display).toList = 1
    simpa using hline
  | @shapeArgument m types hm =>
    have hline := @namedLine_argument m types hm "Invalid parameter type for shape ".toList
      (by simp)
    change namedLine ("Invalid parameter type for shape " ++ m.display).toList = 1
    simpa using hline
  | @arithmetic left right hl hr =>
    have hline := @namedLine_operands left right hl hr
      "Invalid operand types for arithmetic operation".toList
      (by simp only [String.reduceToList]; decide)
    change namedLine ("Invalid operand types for arithmetic operation: " ++ Kind.labelOrNone left ++
      " and " ++ Kind.labelOrNone right).toList = 1
    simpa using hline
  | @comparison left right hl hr =>
    have hline := @namedLine_operands left right hl hr "Invalid operand types for comparison".toList
      (by simp only [String.reduceToList]; decide)
    change namedLine ("Invalid operand types for comparison: " ++ Kind.labelOrNone left ++
      " and " ++ Kind.labelOrNone right).toList = 1
    simpa using hline
  | coordinates => exact namedLine_of_not_infix (by decide)
  | components => exact namedLine_of_not_infix (by decide)
  | condition guard => exact namedLine_of_not_infix (by cases guard <;> decide)

end Diagnosis

end DrawPlus
