import DrawPlus.Diagnosis.Advice
import DrawPlus.Diagnosis.Place
import DrawPlus.Scope.Check
import DrawPlus.Tree.Parse

/-!
# Diagnosing code

Code is diagnosed by taking it through tokens, tree and rules. The first stage that fails supplies
the message; the line and the advice are drawn from it. Blank code is clean.
-/

namespace DrawPlus

inductive Diagnosis where
  | clean
  | faulty (message : String) (line : Int) (advice : List String)
deriving DecidableEq

namespace Diagnosis

/-- A fault with the line its message names. -/
def fault (message : String) (code : String) (advice : List String) : Diagnosis :=
  .faulty message (lineOf message.toList code.toList) advice

/-- A fault of the diagnosis itself, put on the first line. -/
def internal (message : String) : Diagnosis :=
  .faulty message 1 [message]

/-- The message of a fault of the diagnosis that looks for what is not there. -/
def outOfRange : String := "list index out of range"

/-- A fault in the characters of code. When the message wants a semicolon, the last line with text
up to the one that it names is said to lack it. -/
def lexicalFault (message : String) (code : String) : Diagnosis :=
  let plain := fault message code (lexicalAdvice message)
  if wantsSemicolon message.toList then
    let line := lineOf message.toList code.toList
    let lines := Text.lines code.toList
    if lines.length < line then internal outOfRange
    else
      match lastWritten? lines line.toNat with
      | some (number, text) => .faulty "Missing semicolon" number (semicolonAdvice text)
      | none => plain
  else plain

def ofCode (code : String) : Diagnosis :=
  if Text.isAllBlank code.toList then .clean
  else
    match Token.ofText code with
    | .error e => lexicalFault e.message code
    | .ok tokens =>
      match Node.ofTokens tokens with
      | .error e =>
        let message := e.message?.getD ""
        fault message code (grammarAdvice message)
      | .ok tree =>
        match tree.check with
        | .ok () => .clean
        | .error e =>
          match ruleAdvice? e.message with
          | some advice => fault e.message code advice
          | none => internal outOfRange

/-- Diagnose code that may be missing altogether. -/
def ofCode? : Option String → Diagnosis
  | some code => ofCode code
  | none => internal "'NoneType' object has no attribute 'strip'"

end Diagnosis

end DrawPlus
