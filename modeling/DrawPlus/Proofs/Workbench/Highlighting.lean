import DrawPlus.Proofs.Workbench.FixMenu

/-!
# Highlights and the last check

The highlights of an editor are kept three times: as marks of the text, as messages and as
suggestions. A check takes all of them away and puts those of its diagnosis in their place, a
replaced line is followed by a check, and other changes of the text leave the highlights alone. So
at every moment the three agree on one diagnosis (`Highlights.Mirrors`): that of the last check, or
none if the highlights were taken away since.
-/

namespace DrawPlus

/-! ## What a diagnosis shows -/

namespace Diagnosis

open Highlights

/-- The message of a fault, under the name of its mark. -/
def messages : Diagnosis → List (String × String)
  | .clean => []
  | .faulty message line _ => [(errorStart ++ toString line, message)]

/-- The advice that stays of a fault, under the name of its mark. -/
def suggestions : Diagnosis → List (String × Suggestion)
  | .clean => []
  | .faulty _ line advice => advice.getLast?.toList.map fun text =>
      (suggestionStart ++ toString line, .several [text])

theorem messages_eq_nil_iff {d : Diagnosis} : d.messages = [] ↔ d = .clean := by
  cases d <;> simp [messages]

theorem length_messages_le (d : Diagnosis) : d.messages.length ≤ 1 := by
  cases d <;> simp [messages]

theorem length_suggestions_le (d : Diagnosis) : d.suggestions.length ≤ 1 := by
  cases d with
  | clean => simp [suggestions]
  | faulty message line advice => cases h : advice.getLast? <;> simp [suggestions, h]

/-- Advice is shown for the line of the fault. -/
theorem exists_message_of_mem_suggestions {d : Diagnosis} {name : String}
    (h : name ∈ d.suggestions.map Prod.fst) : ∃ line : Int,
      name = suggestionStart ++ toString line ∧
        errorStart ++ toString line ∈ d.messages.map Prod.fst := by
  cases d with
  | clean => cases h
  | faulty message line advice =>
    refine ⟨line, ?_, List.mem_singleton_self _⟩
    simp only [suggestions, List.map_map, List.mem_map] at h
    obtain ⟨text, -, rfl⟩ := h
    rfl

end Diagnosis

namespace Highlights

/-- The highlights show a diagnosis and nothing else: the error marks are those of its messages, and
the suggestion marks those of its suggestions. -/
structure Mirrors (h : Highlights) (d : Diagnosis) : Prop where
  errors : h.errors = d.messages
  suggestions : h.suggestions = d.suggestions
  errorMarks : h.marks.names.filter isError = h.errors.map Prod.fst
  suggestionMarks : h.marks.names.filter isSuggestion = h.suggestions.map Prod.fst

end Highlights

/-! ## The marks of suggestions -/

theorem Marks.delete_append_self {marks : Marks} {name : String} (h : name ∉ marks.names)
    (ranges : List Range) : (marks ++ [(name, ranges)]).delete name = marks := by
  rw [delete, Table.erase, List.filter_append, List.filter_eq_self.mpr]
  · simp
  · intro mark hmark
    exact decide_eq_true fun heq => h (List.mem_map.mpr ⟨mark, hmark, heq⟩)

namespace Highlights

theorem isSuggestion_suggestionStart (line : String) :
    isSuggestion (suggestionStart ++ line) = true := by
  simp [isSuggestion]

theorem isSuggestion_errorStart (line : String) : isSuggestion (errorStart ++ line) = false := by
  rw [isSuggestion, String.toList_append]
  rfl

section

variable (h : Highlights) {position : String} {base : Marks} {previous : Option Suggestion}
  (hbase : suggestionStart ++ linePart position ∉ base.names)

include hbase

/-- A suggestion leaves the other marks and has one mark after them, whether or not there was one
before. -/
theorem marks_addSuggestion
    (hprevious : h.suggestions = previous.toList.map (suggestionStart ++ linePart position, ·))
    (hmarks : h.marks = base ++ h.suggestions.map fun entry => (entry.1, []))
    (texts : List String) : (h.addSuggestion position texts).marks =
      base ++ (h.addSuggestion position texts).suggestions.map fun entry => (entry.1, []) := by
  rw [suggestions_addSuggestion h position hprevious]
  rw [hprevious] at hmarks
  cases previous with
  | none => simp [addSuggestion, hprevious, hmarks, Table.has, Marks.make_of_notMem hbase]
  | some suggestion =>
    simp [addSuggestion, hprevious, hmarks, Table.has, Marks.delete_append_self hbase,
      Marks.make_of_notMem hbase]

theorem marks_withAdvice
    (hprevious : h.suggestions = previous.toList.map (suggestionStart ++ linePart position, ·))
    (hmarks : h.marks = base ++ h.suggestions.map fun entry => (entry.1, []))
    (advice : List String) : (h.withAdvice position advice).marks =
      base ++ (h.withAdvice position advice).suggestions.map fun entry => (entry.1, []) := by
  induction advice generalizing h previous with
  | nil => exact hmarks
  | cons text rest ih =>
    exact ih _ (suggestions_addSuggestion h position hprevious [text])
      (marks_addSuggestion h hbase hprevious hmarks [text])

end

theorem mirrors_fresh : fresh.Mirrors .clean :=
  ⟨rfl, rfl, by decide, by decide⟩

theorem mirrors_clear (h : Highlights) : h.clear.Mirrors .clean where
  errors := rfl
  suggestions := rfl
  errorMarks := List.filter_eq_nil_iff.mpr fun name hname => by simp [(of_mem_clear hname).1]
  suggestionMarks :=
    List.filter_eq_nil_iff.mpr fun name hname => by simp [(of_mem_clear hname).2]

end Highlights

/-! ## The highlights after a check -/

namespace Editor

open Highlights

/-- The marks after a check of a faulty text: those that are no highlights, the mark of the fault,
and that of the advice, if there is any. -/
theorem names_check {e : Editor} {message : String} {line : Int} {advice : List String}
    (h : Diagnosis.ofCode e.text = .faulty message line advice) : e.check.highlights.marks.names =
      e.highlights.clear.marks.names ++ [errorStart ++ toString line] ++
        e.check.highlights.suggestions.map Prod.fst := by
  have hadd := addError_clear e.highlights (notMem_toString line) message
  have hbase : suggestionStart ++ linePart (toString line ++ ".0") ∉
      (e.highlights.clear.addError (toString line ++ ".0") message).marks.names := by
    rw [hadd, linePart_origin (notMem_toString line), Marks.names, List.map_append, List.mem_append]
    rintro (hmem | hmem)
    · have hsuggestion := (of_mem_clear hmem).2
      rw [isSuggestion_suggestionStart] at hsuggestion
      cases hsuggestion
    · have herror := isError_suggestionStart (toString line)
      rw [List.mem_singleton.mp hmem, isError_errorStart] at herror
      cases herror
  have hnone : (e.highlights.clear.addError (toString line ++ ".0") message).suggestions = [] := by
    rw [hadd]
  have hmarks := @marks_withAdvice _ _ _ none hbase hnone
    (by rw [hnone, List.map_nil, List.append_nil]) advice
  rw [highlights_check h, hmarks, hadd]
  simp [Marks.names, Function.comp_def]

/-- A check shows its own diagnosis, whatever was shown before. -/
theorem mirrors_check (e : Editor) : e.check.highlights.Mirrors (Diagnosis.ofCode e.text) := by
  have hclear := mirrors_clear e.highlights
  cases h : Diagnosis.ofCode e.text with
  | clean =>
    have hcheck : e.check.highlights = e.highlights.clear := by
      unfold check
      split_ifs
      · rfl
      · simp only [h, shown]
        rfl
    rwa [hcheck]
  | faulty message line advice =>
    have herrors : e.check.highlights.errors = [(errorStart ++ toString line, message)] := by
      rw [highlights_check h, errors_withAdvice, addError_clear _ (notMem_toString line)]
    have hsuggestions := suggestions_check h
    have hkeys : ∀ name ∈ e.check.highlights.suggestions.map Prod.fst,
        name = suggestionStart ++ toString line := by
      rw [hsuggestions]
      cases advice.getLast? <;> simp
    refine ⟨herrors, hsuggestions, ?_, ?_⟩
    · have hother : (e.check.highlights.suggestions.map Prod.fst).filter isError = [] :=
        List.filter_eq_nil_iff.mpr fun name hname => by
          simp [hkeys name hname, isError_suggestionStart]
      rw [names_check h, List.filter_append, List.filter_append, hclear.errorMarks, hother, herrors]
      simp [Highlights.clear, isError_errorStart]
    · have hall : (e.check.highlights.suggestions.map Prod.fst).filter isSuggestion =
          e.check.highlights.suggestions.map Prod.fst :=
        List.filter_eq_self.mpr fun name hname => by
          simp [hkeys name hname, isSuggestion_suggestionStart]
      rw [names_check h, List.filter_append, List.filter_append, hclear.suggestionMarks, hall]
      simp [Highlights.clear, isSuggestion_errorStart]

/-! ## Acts -/

inductive Act where
  | edit (text : String)
  | check
  | replaceLine (line : Int) (new : String)
  | clear

def act (e : Editor) : Act → Editor
  | .edit text => { e with text := text }
  | .check => e.check
  | .replaceLine line new => e.replaceLine line new
  | .clear => e.clear

def acts (e : Editor) (as : List Act) : Editor := as.foldl act e

/-- The diagnosis that is shown after an act, if `d` was shown before. -/
def Act.shown (e : Editor) (d : Diagnosis) : Act → Diagnosis
  | .edit _ => d
  | .check => Diagnosis.ofCode e.text
  | .replaceLine line new => Diagnosis.ofCode (withLine e.text line new)
  | .clear => .clean

theorem mirrors_act {e : Editor} {d : Diagnosis} (h : e.highlights.Mirrors d) (a : Act) :
    (e.act a).highlights.Mirrors (a.shown e d) := by
  cases a with
  | edit => exact h
  | check => exact mirrors_check e
  | replaceLine line new => exact mirrors_check { e with text := withLine e.text line new }
  | clear => exact mirrors_clear e.highlights

theorem exists_mirrors_acts {e : Editor} {d : Diagnosis} (h : e.highlights.Mirrors d)
    (as : List Act) : ∃ d', (e.acts as).highlights.Mirrors d' := by
  induction as generalizing e d with
  | nil => exact ⟨d, h⟩
  | cons a as ih => exact ih (mirrors_act h a)

/-- After a check there is an error mark exactly if the text is written and faulty. -/
theorem any_isError_check_iff (e : Editor) :
    (∃ name ∈ e.check.highlights.marks.names, isError name = true) ↔
      e.isBlank = false ∧ Diagnosis.ofCode e.text ≠ .clean := by
  have hmirrors := mirrors_check e
  have hblank : Diagnosis.ofCode e.text ≠ .clean → e.isBlank = false := by
    intro hfaulty
    by_contra hblank
    exact hfaulty (if_pos (eq_true_of_ne_false hblank))
  calc (∃ name ∈ e.check.highlights.marks.names, isError name = true)
      ↔ e.check.highlights.marks.names.filter isError ≠ [] := by
        simp [List.filter_eq_nil_iff]
    _ ↔ Diagnosis.ofCode e.text ≠ .clean := by
        rw [hmirrors.errorMarks, hmirrors.errors, Ne, List.map_eq_nil_iff,
          Diagnosis.messages_eq_nil_iff]
    _ ↔ e.isBlank = false ∧ Diagnosis.ofCode e.text ≠ .clean := (and_iff_right_of_imp hblank).symm

/-- Whatever is done in an editor, the error marks are those with a message, and the suggestion
marks those with a suggestion. There is at most one of each, and a suggestion mark stands on a line
with an error mark. A check at this point leaves an error mark if and only if the text is not blank
and
faulty. -/
theorem highlights_acts (text : String) (as : List Act) :
    let e := (ofText text).acts as
    e.highlights.marks.names.filter isError = e.highlights.errors.map Prod.fst ∧
      e.highlights.marks.names.filter isSuggestion = e.highlights.suggestions.map Prod.fst ∧
      e.highlights.errors.length ≤ 1 ∧ e.highlights.suggestions.length ≤ 1 ∧
      (∀ name ∈ e.highlights.suggestions.map Prod.fst, ∃ line : Int,
        name = suggestionStart ++ toString line ∧
          errorStart ++ toString line ∈ e.highlights.errors.map Prod.fst) ∧
      ((∃ name ∈ e.check.highlights.marks.names, isError name = true) ↔
        e.isBlank = false ∧ Diagnosis.ofCode e.text ≠ .clean) := by
  intro e
  obtain ⟨d, hd⟩ := exists_mirrors_acts (e := ofText text) mirrors_fresh as
  refine ⟨hd.errorMarks, hd.suggestionMarks, ?_, ?_, ?_, any_isError_check_iff e⟩
  · rw [hd.errors]
    exact d.length_messages_le
  · rw [hd.suggestions]
    exact d.length_suggestions_le
  · rw [hd.errors, hd.suggestions]
    exact fun name => Diagnosis.exists_message_of_mem_suggestions

end Editor

end DrawPlus
