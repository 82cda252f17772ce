import DrawPlus.Text.Basic

/-!
# A console over a running program

The console shows what a program writes and sends it the lines typed. It keeps a record of what it
did to the program.
-/

namespace DrawPlus

inductive ConsoleAct where
  | start (command : List String)
  | write (text : String)
  | flush
  | terminate
  | wait
deriving DecidableEq

/-- A console: its screen, whether it still has its program, the exit code of the program once it
has ended, and the record. -/
structure Console where
  screen : String
  hasProgram : Bool
  exitCode : Option Int
  acts : List ConsoleAct
deriving DecidableEq

/-- A line was typed and there is no program to send it to. -/
inductive ConsoleError where
  | noProgram
deriving DecidableEq

namespace Console

/-- Start a program and show the lines that it writes. -/
def start (command lines : List String) (exitCode : Option Int) : Console :=
  ⟨String.join lines, true, exitCode, [.start command]⟩

def lastLine (text : String) : String :=
  String.ofList ((Text.lines text.toList).getLastD [])

/-- Type a text at the end and send the last line of the screen. -/
def send (c : Console) (text : String) : Except ConsoleError Console :=
  let screen := c.screen ++ text
  if c.hasProgram then
    .ok { c with
      screen := screen ++ "\n"
      acts := c.acts ++ [.write (lastLine screen ++ "\n"), .flush] }
  else .error .noProgram

def close (c : Console) : Console :=
  if c.hasProgram ∧ c.exitCode = none then { c with acts := c.acts ++ [.terminate, .wait] } else c

def forget (c : Console) : Console :=
  { c with hasProgram := false }

end Console

end DrawPlus
