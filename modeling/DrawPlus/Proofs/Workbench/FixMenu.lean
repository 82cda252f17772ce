import DrawPlus.Proofs.Diagnosis.LineExists
import DrawPlus.Workbench.Editor

/-!
# The menu of a faulty line

Checking a text leaves one error mark, on the line of the fault, and keeps advice for that line. A
click on the line opens a menu with the message and the suggested fixes.

Advice is kept under the name of a mark, which carries the line alone, and each piece of advice
takes the place of the one before. The menu looks for it under another name, which carries the
position of the beginning of the line. So it never has a suggested fix (`menuAt?_check`), and it
offers what the diagnosis advises if and only if the diagnosis has no advice.
-/

namespace DrawPlus

/-! ## Lines and positions -/

theorem notMem_toString (line : Int) : '.' ∉ (toString line).toList := by
  cases line with
  | ofNat n =>
    change '.' ∉ (String.ofList (Nat.toDigits 10 n)).toList
    simp [Diagnosis.notMem_toDigits]
  | negSucc n =>
    change '.' ∉ ("-" ++ String.ofList (Nat.toDigits 10 (n + 1))).toList
    simp [Diagnosis.notMem_toDigits]

theorem linePart_origin {line : String} (h : '.' ∉ line.toList) :
    linePart (line ++ ".0") = line := by
  have hkeep : ∀ c ∈ line.toList, (c != '.') = true := by
    intro c hc
    simpa using ne_of_mem_of_not_mem hc h
  rw [linePart, String.toList_append, List.takeWhile_append_of_pos hkeep]
  simp

namespace Table

variable {α β : Type} [DecidableEq α] {key : α} {table : List (α × β)}

theorem lookup_append_self (h : key ∉ table.map Prod.fst) (value : β) :
    (table ++ [(key, value)]).lookup key = some value := by
  induction table with
  | nil => simp
  | cons entry rest ih =>
    rw [List.map_cons, List.mem_cons, not_or] at h
    rw [List.cons_append, lookup_cons_eq_ite, if_neg (Ne.symm h.1), ih h.2]

theorem insert_append_self (h : key ∉ table.map Prod.fst) (value value' : β) :
    insert key value' (table ++ [(key, value)]) = table ++ [(key, value')] := by
  induction table with
  | nil => simp [insert]
  | cons entry rest ih =>
    rw [List.map_cons, List.mem_cons, not_or] at h
    rw [List.cons_append, insert, if_neg (Ne.symm h.1), ih h.2, List.cons_append]

end Table

namespace Marks

variable {marks : Marks} {name line : String}

theorem onLine_append (marks others : Marks) (line : String) :
    onLine (marks ++ others) line = marks.onLine line ++ others.onLine line := by
  simp [onLine]

/-- A mark without a range is on no line. -/
theorem onLine_make (marks : Marks) (name line : String) :
    (marks.make name).onLine line = marks.onLine line := by
  unfold make
  split_ifs
  · rfl
  · rw [onLine_append]
    simp [onLine]

theorem onLine_delete (marks : Marks) (name line : String) :
    (marks.delete name).onLine line = (marks.onLine line).filter (· ≠ name) := by
  simp [onLine, delete, Table.erase, List.filter_map, List.filter_filter, Function.comp_def,
    Bool.and_comm]

theorem mem_names_of_mem_onLine (h : name ∈ marks.onLine line) : name ∈ marks.names := by
  obtain ⟨mark, hmark, rfl⟩ := List.mem_map.mp h
  exact List.mem_map_of_mem (List.mem_of_mem_filter hmark)

theorem make_of_notMem (h : name ∉ marks.names) : marks.make name = marks ++ [(name, [])] := by
  have hnew : Table.has name marks = false := by
    rw [Table.has, List.any_eq_false]
    intro mark hmark hname
    exact h (List.mem_map.mpr ⟨mark, hmark, by simpa using hname⟩)
  rw [make, if_neg (by simp [hnew])]

theorem cover_make (h : name ∉ marks.names) (range : Range) :
    (marks.make name).cover name range = marks ++ [(name, [range])] := by
  rw [make_of_notMem h, cover, ranges, Table.lookup_append_self h, Table.insert_append_self h]
  rfl

end Marks

namespace Highlights

def errorsOn (h : Highlights) (line : String) : List String :=
  (h.marks.onLine line).filter isError

/-- The marks that stay when the highlights are taken away are none of them. -/
theorem of_mem_clear {h : Highlights} {name : String} (hname : name ∈ h.clear.marks.names) :
    isError name = false ∧ isSuggestion name = false := by
  obtain ⟨mark, hmark, rfl⟩ := List.mem_map.mp hname
  have hkept := (List.mem_filter.mp hmark).2
  rwa [Bool.not_eq_true', Bool.or_eq_false_iff] at hkept

theorem errorsOn_clear (h : Highlights) (line : String) : h.clear.errorsOn line = [] := by
  rw [errorsOn, List.filter_eq_nil_iff]
  intro name hname
  simp [(of_mem_clear (Marks.mem_names_of_mem_onLine hname)).1]

theorem isError_errorStart (line : String) : isError (errorStart ++ line) = true := by
  simp [isError]

theorem isError_suggestionStart (line : String) : isError (suggestionStart ++ line) = false := by
  rw [isError, String.toList_append]
  rfl

theorem addError_clear (h : Highlights) {line : String} (hline : '.' ∉ line.toList)
    (message : String) : h.clear.addError (line ++ ".0") message =
      ⟨h.clear.marks ++ [(errorStart ++ line, [(line ++ ".0", line ++ ".end")])],
        [(errorStart ++ line, message)], []⟩ := by
  have hnew : errorStart ++ line ∉ h.clear.marks.names := by
    intro hmem
    have herror := (of_mem_clear hmem).1
    rw [isError_errorStart] at herror
    cases herror
  have hcover := Marks.cover_make hnew (line ++ ".0", line ++ ".end")
  simp only [addError, linePart_origin hline]
  rw [← hcover]
  rfl

/-- After all highlights have been taken away, an error is the only one, and it is on its line. -/
theorem errorsOn_addError (h : Highlights) {line : String} (hline : '.' ∉ line.toList)
    (message other : String) : (h.clear.addError (line ++ ".0") message).errorsOn other =
      if line = other then [errorStart ++ line] else [] := by
  have hclear := h.errorsOn_clear other
  rw [errorsOn] at hclear
  rw [addError_clear h hline, errorsOn, Marks.onLine_append, List.filter_append, hclear,
    List.nil_append]
  split_ifs with heq
  · subst heq
    simp [Marks.onLine, linePart_origin hline, isError_errorStart]
  · simp [Marks.onLine, linePart_origin hline, heq]

theorem errorsOn_addSuggestion (h : Highlights) (position : String) (texts : List String)
    (line : String) : (h.addSuggestion position texts).errorsOn line = h.errorsOn line := by
  unfold addSuggestion errorsOn
  dsimp only
  rw [Marks.onLine_make]
  split_ifs
  · rw [Marks.onLine_delete, List.filter_filter]
    refine List.filter_congr fun name _ => ?_
    by_cases heq : name = suggestionStart ++ linePart position
    · simp [heq, isError_suggestionStart]
    · simp [heq]
  · rfl

/-- The highlights with several pieces of advice put one after the other. -/
def withAdvice (h : Highlights) (position : String) (advice : List String) : Highlights :=
  advice.foldl (fun h text => h.addSuggestion position [text]) h

section

variable (h : Highlights) (position : String) (advice : List String)

theorem errorsOn_withAdvice (line : String) :
    (h.withAdvice position advice).errorsOn line = h.errorsOn line := by
  induction advice generalizing h with
  | nil => rfl
  | cons text rest ih => exact (ih _).trans (errorsOn_addSuggestion h position [text] line)

theorem errors_withAdvice : (h.withAdvice position advice).errors = h.errors := by
  induction advice generalizing h with
  | nil => rfl
  | cons text rest ih => exact ih (h.addSuggestion position [text])

/-- A suggestion for a line takes the place of the one before. -/
theorem suggestions_addSuggestion {previous : Option Suggestion}
    (hprevious : h.suggestions = previous.toList.map (suggestionStart ++ linePart position, ·))
    (texts : List String) : (h.addSuggestion position texts).suggestions =
      (some (Suggestion.several texts)).toList.map (suggestionStart ++ linePart position, ·) := by
  simp only [addSuggestion, hprevious]
  cases previous <;> simp [Table.insert]

/-- Only the last piece of advice stays. -/
theorem suggestions_withAdvice {previous : Option Suggestion}
    (hprevious : h.suggestions = previous.toList.map (suggestionStart ++ linePart position, ·)) :
    (h.withAdvice position advice).suggestions =
      ((advice.getLast?.map fun text => Suggestion.several [text]).or previous).toList.map
        (suggestionStart ++ linePart position, ·) := by
  induction advice generalizing h previous with
  | nil => exact hprevious
  | cons text rest ih =>
    refine (ih _ (suggestions_addSuggestion h position hprevious [text])).trans ?_
    rw [List.getLast?_cons]
    cases rest.getLast? <;> rfl

end

end Highlights

/-! ## Messages -/

theorem append_ne_empty_of_left {a : String} (h : a ≠ "") (b : String) : a ++ b ≠ "" := by
  simp [h]

theorem append_ne_empty_of_right {b : String} (h : b ≠ "") (a : String) : a ++ b ≠ "" := by
  simp [h]

theorem NumeralError.message_ne_empty (e : NumeralError) : e.message ≠ "" := by
  cases e with
  | notInteger => exact append_ne_empty_of_left (by decide) _
  | _ => exact append_ne_empty_of_right (by decide) _

theorem LexicalError.message_ne_empty (e : LexicalError) : e.message ≠ "" := by
  cases e with
  | numeral error => exact error.message_ne_empty
  | strayDot | secondPoint => exact append_ne_empty_of_left (by decide) _
  | unexpected => exact append_ne_empty_of_left (append_ne_empty_of_right (by decide) _) _

theorem ScopeError.message_ne_empty (e : ScopeError) : e.message ≠ "" := by
  cases e with
  | nameTaken | variableTaken | undeclared | notCursor | methodArity | shapeArity | condition =>
    exact append_ne_empty_of_right (by decide) _
  | arithmetic | comparison =>
    exact append_ne_empty_of_left (append_ne_empty_of_right (by decide) _) _
  | coordinates | components => exact fun h => absurd h (by decide)
  | _ => exact append_ne_empty_of_left (by decide) _

theorem FailsFirst.message_ne_empty {code message : String} {phase : Phase}
    (h : FailsFirst code phase message) : message ≠ "" := by
  cases h with
  | characters => exact LexicalError.message_ne_empty _
  | rules => exact ScopeError.message_ne_empty _
  | @grammar tokens e _ ht he hm =>
    obtain ⟨t, c, rfl⟩ := found_of_ofTokens (lexed_of_ofText ht) he
    obtain rfl := Option.some.inj hm
    exact append_ne_empty_of_left (append_ne_empty_of_right (by decide) _) _

/-! ## The menu after a check -/

namespace Editor

open Highlights

variable {e : Editor} {message : String} {line : Int} {advice : List String}

/-- What a check of a faulty text shows. -/
theorem highlights_check (h : Diagnosis.ofCode e.text = .faulty message line advice) :
    e.check.highlights =
      (e.highlights.clear.addError (toString line ++ ".0") message).withAdvice
        (toString line ++ ".0") advice := by
  have hblank : e.isBlank = false := by
    by_contra hblank
    rw [Bool.not_eq_false, isBlank] at hblank
    rw [Diagnosis.ofCode, if_pos hblank] at h
    cases h
  obtain ⟨-, hline⟩ := failsFirst_of_faulty h
  simp only [check, hblank, h, shown, hline]
  rfl

theorem errorsOn_check (h : Diagnosis.ofCode e.text = .faulty message line advice) (other : Int) :
    e.check.highlights.errorsOn (toString other) =
      if line = other then [errorStart ++ toString line] else [] := by
  rw [highlights_check h, errorsOn_withAdvice, errorsOn_addError _ (notMem_toString line)]
  exact if_congr Int.repr_inj rfl rfl

theorem suggestions_check (h : Diagnosis.ofCode e.text = .faulty message line advice) :
    e.check.highlights.suggestions = advice.getLast?.toList.map fun text =>
      (suggestionStart ++ toString line, .several [text]) := by
  have hnone : (e.highlights.clear.addError (toString line ++ ".0") message).suggestions =
      (none : Option Suggestion).toList.map
        (suggestionStart ++ linePart (toString line ++ ".0"), ·) := by
    rw [addError_clear _ (notMem_toString line)]
    rfl
  rw [highlights_check h, suggestions_withAdvice _ _ _ hnone,
    linePart_origin (notMem_toString line)]
  cases advice.getLast? <;> rfl

/-- Suggestions are looked for under a name that none is kept under. -/
theorem remedies_check (h : Diagnosis.ofCode e.text = .faulty message line advice) (other : Int)
    (shown : String) : e.check.remedies other shown =
      [.cascade "Error Details" [.command shown .none], .separator,
        .cascade "Suggested Fixes" [], .separator, .command "Ignore Error" .ignore] := by
  have hkey : suggestionStart ++ toString line ≠ suggestionStart ++ toString other ++ ".0" := by
    intro heq
    have hpoint : '.' ∈ (suggestionStart ++ toString line).toList := by
      rw [heq, String.toList_append, List.mem_append]
      exact .inr (by decide)
    rw [String.toList_append, List.mem_append] at hpoint
    exact hpoint.elim (by decide) (notMem_toString line)
  have hnone : e.check.highlights.suggestions.lookup
      (suggestionStart ++ toString other ++ ".0") = none := by
    rw [suggestions_check h]
    cases advice.getLast? with
    | none => rfl
    | some text => exact (Table.lookup_cons_eq_ite _ _ _).trans (if_neg hkey)
  rw [remedies, hnone]
  rfl

/-- After a check of a faulty text, a click on the line of the fault opens a menu with the message
and an empty list of suggested fixes, and a click elsewhere opens none. -/
theorem menuAt?_check (h : Diagnosis.ofCode e.text = .faulty message line advice) (y : Int) :
    e.check.menuAt? y = if line = e.check.lineAt y then
      some [.cascade "Error Details" [.command message .none], .separator,
        .cascade "Suggested Fixes" [], .separator, .command "Ignore Error" .ignore] else none := by
  have hnames := errorsOn_check h (e.check.lineAt y)
  rw [errorsOn] at hnames
  have herrors : e.check.highlights.errors = [(errorStart ++ toString line, message)] := by
    rw [highlights_check h, errors_withAdvice, addError_clear _ (notMem_toString line)]
  obtain ⟨⟨phase, hfails⟩, -⟩ := failsFirst_of_faulty h
  have hmessage := hfails.message_ne_empty
  unfold menuAt?
  dsimp only
  by_cases hline : line = e.check.lineAt y
  · rw [if_pos hline] at hnames
    have hfound : e.check.messageOf [errorStart ++ toString line] = some message := by
      simp [messageOf, herrors]
    rw [if_pos hline, hnames, if_neg (by simp), hfound,
      ← remedies_check h (e.check.lineAt y) message]
    split
    case h_1 => contradiction
    case h_2 hempty => exact absurd (Option.some.inj hempty) hmessage
    case h_3 heq => rw [Option.some.inj heq]
  · rw [if_neg hline] at hnames ⊢
    rw [hnames]
    rfl

end Editor

/-! ## Advice and offers -/

namespace MenuItem

variable {α : Type}

def label? : MenuItem α → Option String
  | .command label _ | .cascade label _ => some label
  | .separator => none

/-- The labels in the menu below a label. -/
def offers (label : String) (items : List (MenuItem α)) : List String :=
  ((below? label items).getD []).filterMap label?

end MenuItem

open Highlights MenuItem in
/-- After a check of a faulty text, a click on an error mark opens a menu on the line of the fault,
with its message. The suggested fixes in it are those that the diagnosis advises if and only if it
advises nothing, since there are none: of the advice the last piece is kept, and under a name by
which the menu does not look for it. -/
theorem suggested_fixes_eq_advice_iff {e : Editor} {message : String} {line y : Int}
    {advice : List String} (h : Diagnosis.ofCode e.text = .faulty message line advice)
    (hy : (e.check.highlights.marks.onLine (toString (e.check.lineAt y))).filter isError ≠ []) :
    e.check.lineAt y = line ∧
    e.check.highlights.suggestions = (advice.getLast?.toList.map fun text =>
      (suggestionStart ++ toString line, .several [text])) ∧
    ∃ items, e.check.menuAt? y = some items ∧ offers "Error Details" items = [message] ∧
      offers "Suggested Fixes" items = [] ∧
      (offers "Suggested Fixes" items = advice ↔ advice = []) := by
  have hnames := Editor.errorsOn_check h (e.check.lineAt y)
  have hline : line = e.check.lineAt y := by
    by_contra hne
    rw [if_neg hne] at hnames
    exact hy hnames
  have hmenu := Editor.menuAt?_check h y
  rw [if_pos hline] at hmenu
  exact ⟨hline.symm, Editor.suggestions_check h, _, hmenu, rfl, rfl, eq_comm⟩

open Highlights MenuItem in
/-- A fault of the grammar without advice. -/
theorem suggested_fixes_eq_advice_iff_unadvised :
    let e := Editor.ofText "y = ;"
    e.check.lineAt 0 = 1 ∧ ∃ items, e.check.menuAt? 0 = some items ∧
      offers "Suggested Fixes" items = [] := by
  intro e
  have hfaulty : Diagnosis.ofCode e.text = .faulty
      "Parser error at token Token(TokenType.SEMICOLON, ;, line=1, column=5): Invalid factor" 1
      [] := by
    decide +kernel
  have hmarked :
      (e.check.highlights.marks.onLine (toString (e.check.lineAt 0))).filter isError ≠ [] := by
    have hnames := Editor.errorsOn_check hfaulty (e.check.lineAt 0)
    rw [if_pos (by decide +kernel)] at hnames
    exact hnames.trans_ne (List.cons_ne_nil _ _)
  obtain ⟨hline, -, items, hmenu, -, -, hfixes⟩ := suggested_fixes_eq_advice_iff hfaulty hmarked
  exact ⟨hline, items, hmenu, hfixes.mpr rfl⟩

open MenuItem in
/-- Four declarations are advised for a missing name, and none of them is offered. -/
theorem suggested_fixes_missing :
    let e := Editor.ofText "x = 1;"
    Diagnosis.ofCode e.text = .faulty "Variable x not declared" 1 (Diagnosis.declarationsOf "x") ∧
    ∃ items, e.check.menuAt? 0 = some items ∧
      offers "Suggested Fixes" items ≠ Diagnosis.declarationsOf "x" := by
  intro e
  have hfaulty : Diagnosis.ofCode e.text = .faulty "Variable x not declared" 1
      (Diagnosis.declarationsOf "x") := by decide +kernel
  have hmenu := Editor.menuAt?_check hfaulty 0
  rw [if_pos (by decide +kernel)] at hmenu
  exact ⟨hfaulty, _, hmenu, (List.cons_ne_nil _ _).symm⟩

end DrawPlus
