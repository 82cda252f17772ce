import DrawPlus.Number.Numeral
import DrawPlus.Text.Basic

/-!
# The line an error message is about

The line is read off the wording of the message: after `at line`, else after `line=`, else the
first number after `line`; a message without a number is about the first line. When a semicolon is
missing and the line before does not end in one, the line before is meant.
-/

namespace DrawPlus.Diagnosis

def beforeComma (text : List Char) : List Char :=
  text.takeWhile (· != ',')

/-- The first field that consists of digits. -/
def digitField? (fields : List (List Char)) : Option (List Char) :=
  fields.find? fun field => !field.isEmpty && field.all Text.isDigit

/-- The line that a message names. -/
def namedLine (message : List Char) : Int :=
  let found : Option Int :=
    match Text.afterPhrase? "at line".toList message with
    | some rest => Numeral.integer? (Text.trim (beforeComma rest))
    | none =>
      match Text.afterPhrase? "line=".toList message with
      | some rest => Numeral.integer? (beforeComma rest)
      | none => do
        let rest ← Text.afterPhrase? "line".toList message
        let field ← digitField? (Text.fields rest)
        Numeral.integer? field
  found.getD 1

/-- The message says that a semicolon is missing. -/
def missesSemicolon (message : List Char) : Bool :=
  Text.hasPhrase "Missing semicolon".toList message ||
    Text.hasPhrase "Expected TokenType.SEMICOLON".toList message

/-- The line has text that does not end in a semicolon. -/
def isUnfinished (line : List Char) : Bool :=
  let text := Text.trim line
  !text.isEmpty && text.getLast? != some ';'

/-- The line that a message about some code is about. -/
def lineOf (message code : List Char) : Int :=
  let line := namedLine message
  if missesSemicolon message && 1 < line then
    let lines := Text.lines code
    match if line ≤ lines.length then lines[line.toNat - 2]? else none with
    | some previous => if isUnfinished previous then line - 1 else line
    | none => line
  else line

end DrawPlus.Diagnosis
