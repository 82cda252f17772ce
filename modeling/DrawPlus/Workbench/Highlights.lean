import DrawPlus.Workbench.Marks

/-!
# Highlighted errors and suggestions

An error is shown by a mark that covers its line, a suggestion by a mark without range. Both marks
carry the line in their names, and the messages and suggestions are kept under the names of the
marks. Clearing takes away every mark whose name begins like those of an error or a suggestion.
-/

namespace DrawPlus

inductive Suggestion where
  | single (text : String)
  | several (texts : List String)
deriving DecidableEq

def Suggestion.texts : Suggestion → List String
  | .single text => [text]
  | .several texts => texts

/-- The marks of a text with the messages and suggestions behind them. -/
structure Highlights where
  marks : Marks
  errors : List (String × String)
  suggestions : List (String × Suggestion)
deriving DecidableEq

namespace Highlights

/-- How the names of error marks begin. -/
def errorStart : String := "error_"

def suggestionStart : String := "suggestion_"

def isError (name : String) : Bool :=
  errorStart.toList.isPrefixOf name.toList

def isSuggestion (name : String) : Bool :=
  suggestionStart.toList.isPrefixOf name.toList

def fresh : Highlights := ⟨Marks.fresh, [], []⟩

def clear (h : Highlights) : Highlights :=
  ⟨h.marks.filter fun mark => !(isError mark.1 || isSuggestion mark.1), [], []⟩

def addError (h : Highlights) (position message : String) : Highlights :=
  let line := linePart position
  let name := errorStart ++ line
  let marks := if Table.has name h.errors then h.marks.delete name else h.marks
  { h with
    marks := (marks.make name).cover name (line ++ ".0", line ++ ".end")
    errors := Table.insert name message h.errors }

def addSuggestion (h : Highlights) (position : String) (texts : List String) : Highlights :=
  let name := suggestionStart ++ linePart position
  let marks := if Table.has name h.suggestions then h.marks.delete name else h.marks
  { h with
    marks := marks.make name
    suggestions := Table.insert name (.several texts) h.suggestions }

def mark (h : Highlights) (name : String) (ranges : List Range) : Highlights :=
  { h with marks := ranges.foldl (fun marks range => marks.cover name range) (h.marks.make name) }

def suggest (h : Highlights) (name : String) (suggestion : Suggestion) : Highlights :=
  { h with suggestions := Table.insert name suggestion h.suggestions }

end Highlights

end DrawPlus
