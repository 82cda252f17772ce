import DrawPlus.Diagnosis.Check
import DrawPlus.Workbench.Highlights
import DrawPlus.Workbench.Request

/-!
# The editor

An editor holds a text and its highlights. Checking the text replaces the highlights by those of the
fault found, if any. A click on a faulty line opens a menu, and a pointer over it a hint.

The text is laid out in lines fifteen units high; a point below the last line belongs to it.
-/

namespace DrawPlus

structure Editor where
  text : String
  highlights : Highlights
  /-- a hint was opened and not taken back since -/
  hint : Bool
  /-- a hint was opened at some time, so that leaving the editor closes it -/
  closesHint : Bool
  /-- the lines are numbered -/
  numbered : Bool

namespace Editor

def ofText (text : String) : Editor :=
  ⟨text, Highlights.fresh, false, false, true⟩

def lineHeight : Nat := 15

def lineCount (e : Editor) : Nat :=
  (Text.lines e.text.toList).length

def lineAt (e : Editor) (y : Int) : Int :=
  min (y.fdiv lineHeight + 1) e.lineCount

def isBlank (e : Editor) : Bool :=
  Text.isAllBlank e.text.toList

def clear (e : Editor) : Editor :=
  { e with highlights := e.highlights.clear }

/-- The highlights of a diagnosis of some code, on top of others. The fault is shown on the line
that its message names. Each suggestion for that line takes the place of the one before. -/
def shown (h : Highlights) (code : String) : Diagnosis → Highlights
  | .clean => h
  | .faulty message key advice =>
    let line := Diagnosis.lineOf message.toList code.toList
    let position := toString line ++ ".0"
    let marked := h.addError position message
    if line = key then advice.foldl (fun h text => h.addSuggestion position [text]) marked
    else marked

/-- Check the text and show what is found. -/
def check (e : Editor) : Editor :=
  let cleared := e.clear
  if e.isBlank then cleared
  else { cleared with highlights := shown cleared.highlights e.text (Diagnosis.ofCode e.text) }

/-- The text with a line replaced; a line that does not exist is put at the end. -/
def withLine (text : String) (line : Int) (new : String) : String :=
  let lines := (Text.lines text.toList).map String.ofList
  if 1 ≤ line ∧ line ≤ lines.length then
    "\n".intercalate (lines.set (line.toNat - 1) new)
  else text ++ new

def replaceLine (e : Editor) (line : Int) (new : String) : Editor :=
  { e with text := withLine e.text line new }.check

/-- The message of the first of some marks that has one. -/
def messageOf (e : Editor) (names : List String) : Option String :=
  names.findSome? fun name => e.highlights.errors.lookup name

def remedies (e : Editor) (line : Int) (message : String) : List (MenuItem Remedy) :=
  let key := Highlights.suggestionStart ++ toString line ++ ".0"
  let fixes := ((e.highlights.suggestions.lookup key).map Suggestion.texts).getD []
  [.cascade "Error Details" [.command message .none],
    .separator,
    .cascade "Suggested Fixes" (fixes.map fun text => .command text (.replaceLine line text)),
    .separator,
    .command "Ignore Error" .ignore]

/-- The menu that a click at a height opens; none on a line without error mark. The menu is empty if
the marks of the line have no message. -/
def menuAt? (e : Editor) (y : Int) : Option (List (MenuItem Remedy)) :=
  let line := e.lineAt y
  let names := (e.highlights.marks.onLine (toString line)).filter Highlights.isError
  if names.isEmpty then none
  else
    match e.messageOf names with
    | none | some "" => some []
    | some message => some (e.remedies line message)

def apply (e : Editor) : Remedy → Editor
  | .none => e
  | .replaceLine line text => e.replaceLine line text
  | .ignore => e.clear

/-- The text of the hint for a line: that of the first error mark whose first range starts there. -/
def hintFor? (e : Editor) (line : Int) : Option String :=
  e.highlights.marks.findSome? fun mark =>
    if Highlights.isError mark.1 then
      match mark.2 with
      | [] => none
      | range :: _ =>
        if Numeral.integer? (linePart range.1).toList = some line then
          some ((e.highlights.errors.lookup mark.1).getD "Syntax error")
        else none
    else none

/-- Move the pointer over a height; the last hint is taken back, and a hint for the line is opened
beside the pointer's place on the screen. -/
def hover (e : Editor) (y screenX screenY : Int) : List Request × Editor :=
  let closing := if e.hint then [Request.closeHint] else []
  match e.hintFor? (e.lineAt y) with
  | none => (closing, { e with hint := false })
  | some text =>
    let place := "+" ++ toString (screenX + 10) ++ "+" ++ toString (screenY + 10)
    (closing ++ [.hint place, .hintText text], { e with hint := true, closesHint := true })

/-- Move the pointer away. Nothing happens, and nothing is answered, before the first hint. -/
def leave? (e : Editor) : Option (List Request) :=
  if e.closesHint then some (if e.hint then [.closeHint] else []) else none

def selectAll (e : Editor) : Editor :=
  { e with highlights := { e.highlights with
      marks := e.highlights.marks.cover "sel" ("1.0", "end") } }

/-- The numbers beside the first lines: where they stand and what they say. -/
def lineNumbers (e : Editor) (visible : Nat) : List (Nat × Nat × String) :=
  if e.numbered then
    (List.range (min e.lineCount visible)).map fun i => (35, lineHeight * i, toString (i + 1))
  else []

end Editor

/-- The streams of a program beside an editor, each of which may be missing: what can be read, and
what was written. -/
structure Streams where
  readable : Option String
  written : Option String
deriving DecidableEq

namespace Streams

def write (s : Streams) (line : String) : Streams :=
  { s with written := s.written.map (· ++ line ++ "\n") }

def read (s : Streams) : String :=
  s.readable.getD ""

end Streams

end DrawPlus
