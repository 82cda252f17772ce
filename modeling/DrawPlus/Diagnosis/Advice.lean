import DrawPlus.Text.Case
import DrawPlus.Text.Basic

/-!
# Advice on errors

Advice is chosen by phrases in the message, after the message has been put into lower case; names
taken from the message are therefore in lower case too.
-/

namespace DrawPlus.Diagnosis

/-- The second of the pieces that a character cuts a text into. -/
def secondPiece? (mark : Char) (text : List Char) : Option (List Char) :=
  (Text.pieces mark text)[1]?

/-- The name that a message about a missing declaration mentions: what stands between apostrophes,
or else the second word. -/
def missingName? (message : List Char) : Option (List Char) :=
  let apostrophe := Char.ofNat 0x27
  if message.contains apostrophe then secondPiece? apostrophe message
  else (Text.fields message)[1]?

def declarationsOf (name : String) : List String :=
  ["var int " ++ name ++ " = 0;", "var float " ++ name ++ " = 0.0;",
    "var string " ++ name ++ " = \"\";", "cursor " ++ name ++ " = create_cursor(0, 0);"]

/-- Advice on a broken rule; none when the message lacks the name that the advice needs. -/
def ruleAdvice? (message : String) : Option (List String) :=
  let text := Text.lower message.toList
  let mentions (phrase : String) : Bool := Text.hasPhrase phrase.toList text
  if mentions "not declared" then
    (missingName? text).map fun name => declarationsOf (String.ofList name)
  else if mentions "already declared" then
    some ["Use a different variable name", "Remove the duplicate declaration"]
  else if mentions "type mismatch" then
    some ["Check variable types", "Make sure types are compatible"]
  else if mentions "is not a cursor" then
    (secondPiece? ' ' text).map fun name =>
      ["Declare the cursor first:",
        "cursor " ++ String.ofList name ++ " = create_cursor(x, y);"]
  else if mentions "invalid cursor method" then
    some ["Available methods:", "move(distance)", "rotate(angle)", "color(COLOR)",
      "thickness(value)", "visible(bool)"]
  else some []

def grammarAdvice (message : String) : List String :=
  let text := Text.lower message.toList
  if Text.hasPhrase "unexpected token".toList text then
    ["Check syntax", "Ensure all statements end with semicolon (;)",
      "Verify parentheses and braces"]
  else if Text.hasPhrase "expected type".toList text then
    ["Use a valid type: int, float, string, bool, or color",
      "Example: var int myVariable = 0;"]
  else []

/-- The message tells of something else in the place of a semicolon. -/
def wantsSemicolon (message : List Char) : Bool :=
  Text.hasPhrase "got TokenType.VAR".toList message ||
    Text.hasPhrase "Expected TokenType.SEMICOLON".toList message

/-- The last of the first `count` lines that has text, with its number and its text. -/
def lastWritten? (lines : List (List Char)) : Nat → Option (Nat × List Char)
  | 0 => none
  | count + 1 =>
    let text := Text.trim (lines.getD count [])
    if text.isEmpty then lastWritten? lines count else some (count + 1, text)

def semicolonAdvice (text : List Char) : List String :=
  ["Add semicolon (;) at the end of the line", String.ofList text ++ ";"]

def lexicalAdvice (message : String) : List String :=
  let text := Text.lower message.toList
  if Text.hasPhrase "invalid character".toList text then
    ["Remove or replace invalid character", "Use only allowed characters"]
  else if Text.hasPhrase "unterminated string".toList text then
    ["Add closing quotation mark (\")"]
  else ["Check syntax and ensure all statements end with semicolon (;)"]

end DrawPlus.Diagnosis
