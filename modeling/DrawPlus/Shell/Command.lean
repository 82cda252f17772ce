import DrawPlus.Text.Basic

/-!
# Commands of the shell

The commands by name, in alphabetical order, each with its manual text.
-/

namespace DrawPlus.Shell

inductive Command where
  | clear | debug | exit | help | history | lex | parse | run | save | see
deriving DecidableEq

namespace Command

def all : List Command :=
  [.clear, .debug, .exit, .help, .history, .lex, .parse, .run, .save, .see]

def name : Command → String
  | .clear => "clear"
  | .debug => "debug"
  | .exit => "exit"
  | .help => "help"
  | .history => "history"
  | .lex => "lex"
  | .parse => "parse"
  | .run => "run"
  | .save => "save"
  | .see => "see"

def ofName? (word : String) : Option Command :=
  all.find? fun c => c.name == word

def manual : Command → String
  | .clear => "\n        @brief Clears the terminal screen.\n        "
  | .debug =>
    "\n        Debugs a line of code or a Draw++ file and displays errors.\n" ++
    "        Syntax:\n            debug -c <code>\n            debug <file.dpp>\n        "
  | .exit =>
    "\n        @brief Exits the terminal.\n        @return True to signal termination.\n        "
  | .help =>
    "\n        @brief Displays help for available commands.\n\n" ++
    "        @param arg Optional. The specific command to display help for.\n        "
  | .history => "\n        Displays the history of executed commands.\n        "
  | .lex =>
    "\n        @brief Performs lexical analysis on a line of code.\n\n" ++
    "        @param line The code to analyze.\n        "
  | .parse =>
    "\n        @brief Performs syntax analysis on a line of code and generates an AST.\n\n" ++
    "        @param line The code to parse.\n        "
  | .run =>
    "\n        @brief Executes the provided Draw++ code.\n\n" ++
    "        @param line Syntax: run <file_path> | run -c <code>\n        "
  | .save =>
    "\n        @brief Saves source code, tokens, or AST to a file.\n\n" ++
    "        @param line Syntax: save <type> <filename>\n        "
  | .see => "\n        Lists available files in the examples directory.\n        "

def summary (c : Command) : String :=
  String.ofList ((Text.lines (Text.trim c.manual.toList)).headD [])

end Command

inductive Line where
  /-- nothing but blanks -/
  | blank
  /-- a line that cannot be a command -/
  | foreign (text : String)
  /-- the word that a line begins with, the rest, and the line itself -/
  | call (word argument text : String)
deriving DecidableEq

def isCommandChar (c : Char) : Bool :=
  c.isAlphanum || c == '_'

/-- Take a typed line apart. A question mark at its start stands for the help command. -/
def Line.ofText (typed : String) : Line :=
  match Text.trim typed.toList with
  | [] => .blank
  | '!' :: rest => .foreign (String.ofList ('!' :: rest))
  | first :: rest =>
    let text := if first = '?' then "help ".toList ++ rest else first :: rest
    .call (String.ofList (text.takeWhile isCommandChar))
      (String.ofList (Text.trim (text.dropWhile isCommandChar))) (String.ofList text)

end DrawPlus.Shell
