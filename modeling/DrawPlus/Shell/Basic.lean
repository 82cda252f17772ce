import DrawPlus.Scope.Check
import DrawPlus.Shell.Command
import DrawPlus.Shell.Host
import DrawPlus.Tree.Parse

/-!
# The shell

The shell reads commands that cut code into tokens, parse it, look for faults in it, run it and save
results. It shows its answers on a screen if it has one and else on the standard output. It keeps
the results of the last commands, the history of lines typed and the line that an empty line
repeats.
-/

namespace DrawPlus

structure ShellState where
  screen : Option String
  source : Option String
  tokens : Option (List Token)
  tree : Option Node
  history : List String
  last : String

structure ShellSession where
  shell : ShellState
  host : Host

inductive ShellError where
  | file (error : FileError)
  | encoding (error : Utf8Error)
  | missingWord
deriving DecidableEq

def ShellError.message : ShellError → String
  | .file error => error.message
  | .encoding error => error.message
  | .missingWord => "list index out of range"

namespace Shell

/-- An action of the shell; what was done before a failure stays done. -/
abbrev Action := EStateM ShellError ShellSession

def memory : Action ShellState := fun s => .ok s.shell s

def remember (f : ShellState → ShellState) : Action Unit := fun s =>
  .ok () { s with shell := f s.shell }

def print (text : String) : Action Unit := fun s =>
  .ok () { s with host := s.host.print text }

/-- Show a message between two line ends, on the screen or on the standard output. -/
def tell (message : String) : Action Unit := fun s =>
  match s.shell.screen with
  | some text =>
    .ok () { s with shell := { s.shell with screen := some (text ++ "\n" ++ message ++ "\n") } }
  | none => .ok () { s with host := s.host.print ("\n" ++ message ++ "\n\n") }

/-- Do something; if it fails, show the error after some words. -/
def reporting (words : String) (action : Action Unit) : Action Unit := fun s =>
  match action s with
  | .ok () s => .ok () s
  | .error e s => tell (words ++ e.message) s

def writeFile (path content : String) : Action Unit := fun s =>
  match Disk.writeText path content s.host.disk with
  | .ok () disk => .ok () { s with host := { s.host with disk := disk } }
  | .error e disk => .error (.file e) { s with host := { s.host with disk := disk } }

def readFile (path : String) : Action String := fun s =>
  match s.host.disk.readText path with
  | .ok text => .ok text s
  | .error (.file e) => .error (.file e) s
  | .error (.encoding e) => .error (.encoding e) s

def removeFiles : List String → Action Unit
  | [] => return
  | path :: rest => do
    let removed : Action Unit := fun s =>
      if s.host.disk.holds path then
        match s.host.disk.remove path with
        | .ok disk => .ok () { s with host := { s.host with disk := disk } }
        | .error e => .error (.file e) s
      else .ok () s
    removed
    removeFiles rest

def start (command : String) : Action ProgramResult := fun s =>
  let (outcome, host) := s.host.start command
  match outcome with
  | .ok result => .ok result { s with host := host }
  | .error (.file e) => .error (.file e) { s with host := host }
  | .error (.encoding e) => .error (.encoding e) { s with host := host }

/-- Do something and clean up afterwards, also if it fails. A failure to clean up takes the place of
an earlier one. -/
def ensuring (cleanup action : Action Unit) : Action Unit := fun s =>
  match action s with
  | .ok () s => cleanup s
  | .error e s =>
    match cleanup s with
    | .ok () s => .error e s
    | .error e s => .error e s

/-! ## What the commands do -/

def greet : Action Unit := do
  tell "=== Checking imports ==="
  tell ("Checked classes:\nProgram: " ++ (Node.program []).classText ++ ", VarDecl: " ++
    (Node.varDecl none "" .absent).classText)

def keep (line : String) : Action Unit :=
  remember fun m =>
    if Text.isAllBlank line.toList then m else { m with history := m.history ++ [line] }

def tellNumbered (number : Nat) : List String → Action Unit
  | [] => return
  | line :: rest => do
    tell (toString number ++ ". " ++ line)
    tellNumbered (number + 1) rest

def showHistory : Action Unit := do
  let lines := (← memory).history
  if lines.isEmpty then tell "No commands in history."
  else
    tell "\n=== Command History ==="
    tellNumbered 1 lines

def tellAll : List String → Action Unit
  | [] => return
  | message :: rest => do
    tell message
    tellAll rest

def examplesFolder : String := "<ROOT>/examples"

def listExamples : Action Unit := fun s =>
  match s.host.examples with
  | .missing => tell ("Directory '" ++ examplesFolder ++ "' not found.") s
  | .files [] => tell ("No files found in '" ++ examplesFolder ++ "'.") s
  | .files names =>
    tellAll (("Files in '" ++ examplesFolder ++ "':") :: names.map fun n => " - " ++ n) s
  | .unreadable message => tell ("Error listing files: " ++ message) s

def inspect (code : String) : Action Unit := do
  tell "[INFO] Lexical Analysis..."
  match Token.ofText code with
  | .error e => tell ("[ERROR] " ++ e.message)
  | .ok tokens =>
    tell "[INFO] Lexical Analysis Passed."
    tell "[INFO] Syntax Analysis..."
    match Node.ofTokens tokens with
    | .error e => tell ("[ERROR] " ++ e.message?.getD "")
    | .ok _ =>
      tell "[INFO] Syntax Analysis Passed."
      tell "[INFO] No errors detected."

/-- A source file by its name, which may lack the ending. -/
def sourceName (name : String) : String :=
  if ".dpp".toList.isSuffixOf name.toList then name else name ++ ".dpp"

/-- Look for faults in code given directly or in a file. -/
def debug (argument : String) : Action Unit :=
  match Text.firstField? argument.toList with
  | none => tell "Error: Invalid syntax. Use 'debug -c <code>' or 'debug <file.dpp>'."
  | some (first, rest) =>
    reporting "Debug error: " do
      if first = "-c".toList then
        match rest with
        | some code => inspect (String.ofList code)
        | none => throw .missingWord
      else
        let path := sourceName (String.ofList first)
        let isThere : Action Bool := fun s => .ok (s.host.disk.holds path) s
        if ← isThere then
          let code ← readFile path
          inspect code
        else tell ("Error: File '" ++ path ++ "' not found.")

def help (argument : String) : Action Unit :=
  if argument = "" then
    tellAll ("=== Available Commands ===" ::
      Command.all.map fun c => c.name ++ " - " ++ c.summary)
  else
    match Command.ofName? argument with
    | some command => tell command.manual
    | none => tell ("No help found for '" ++ argument ++ "'.")

def lex (code : String) : Action Unit :=
  if Text.isAllBlank code.toList then tell "Error: Provide a line of code."
  else
    match Token.ofText code with
    | .error e => tell ("Lexical error: " ++ e.message)
    | .ok tokens => do
      remember fun m => { m with tokens := some tokens }
      tellAll ("=== Generated Tokens ===" :: tokens.map Token.display)

/-- Parse code, keep and show the tree. The tokens are kept even when the tree cannot be made. -/
def parse (code : String) : Action Unit :=
  if Text.isAllBlank code.toList then tell "Error: Provide a line or block of code."
  else
    match Token.ofText code with
    | .error e => tell ("Syntax error: " ++ e.message)
    | .ok tokens => do
      remember fun m => { m with tokens := some tokens }
      match Node.ofTokens tokens with
      | .error e => tell ("Syntax error: " ++ e.message?.getD "")
      | .ok tree =>
        remember fun m => { m with tree := some tree }
        tellAll ["=== Generated AST ===", tree.display]

/-- Build a source file, compile the code and run the program, as long as each step succeeds. -/
def runSource (source : String) : Action Unit := do
  let build := Host.buildCommand source
  tell ("Compiling: " ++ build)
  let result ← start build
  if result.exitCode ≠ 0 then tell ("Draw++ compilation error: " ++ result.errors)
  else
    tell ("Compiling: " ++ Host.linkCommand)
    let result ← start Host.linkCommand
    if result.exitCode ≠ 0 then tell ("C compilation error: " ++ result.errors)
    else
      tell "Running executable..."
      let result ← start Host.runCommand
      tell result.output
      if result.exitCode ≠ 0 then tell ("Execution error: " ++ result.errors)

def scratchFiles : List String :=
  [Host.sourceFile, Host.codeFile, Host.programFile]

/-- Run code given directly or in a file; code given directly is written to a file first. Whatever
happens in the run, the scratch files are removed afterwards. -/
def runCode (code file : String) : Action Unit := do
  if code = "" && file = "" then tell "Error: Provide a source of code."
  else
    if code ≠ "" then writeFile Host.sourceFile code
    ensuring (removeFiles scratchFiles)
      (runSource (if code ≠ "" then Host.sourceFile else file))

def run (argument : String) : Action Unit :=
  match Text.firstField? argument.toList with
  | none => tell "Error: Provide a file path or code."
  | some (first, rest) =>
    reporting "Execution error: " do
      if first = "-c".toList then
        match rest with
        | some code => runCode (String.ofList code) ""
        | none => throw .missingWord
      else runCode "" (String.ofList first)

/-- What can be saved under a word, as the text of a file. -/
def saved? (m : ShellState) (what : String) : Option String :=
  match what with
  | "source" => m.source.bind fun text => if text = "" then none else some text
  | "tokens" =>
    m.tokens.bind fun tokens =>
      if tokens.isEmpty then none
      else some (String.join (tokens.map fun t => t.display ++ "\n"))
  | "ast" => m.tree.map Node.display
  | _ => none

def save (argument : String) : Action Unit := do
  match Text.fields argument.toList with
  | [what, path] =>
    match saved? (← memory) (String.ofList what) with
    | some content => reporting "Save error: " (writeFile (String.ofList path) content)
    | none => tell "Error: No data to save."
  | _ => tell "Error: Incorrect syntax. Usage: save <type> <filename>"

def clear : Action Unit := fun s =>
  match s.shell.screen with
  | some _ => .ok () { s with shell := { s.shell with screen := some "" } }
  | none => .ok () { s with host := { s.host with commands := s.host.commands ++ ["clear"] } }

/-- Carry out a command; the answer tells whether the shell is to end. -/
def perform (command : Command) (argument : String) : Action Bool := do
  match command with
  | .clear => clear; return false
  | .debug => debug argument; return false
  | .exit => tell "Goodbye!"; return true
  | .help => help argument; return false
  | .history => showHistory; return false
  | .lex => lex argument; return false
  | .parse => parse argument; return false
  | .run => run argument; return false
  | .save => save argument; return false
  | .see => listExamples; return false

/-- Complain about a line that is no command; this always goes to the standard output. -/
def refuse (text : String) : Action Bool := do
  print ("*** Unknown syntax: " ++ text ++ "\n")
  return false

def carryOut (line : Line) : Action Bool := do
  match line with
  | .blank => return false
  | .foreign text => refuse text
  | .call word argument text =>
    remember fun m => { m with last := if text = "EOF" then "" else text }
    match Command.ofName? word with
    | some command => perform command argument
    | none => refuse text

/-- Take a typed line: keep it in the history and carry it out. A blank line repeats the last line,
which enters the history once more. -/
def typed (line : String) : Action Bool := do
  keep line
  match Line.ofText line with
  | .blank =>
    let last := (← memory).last
    if last = "" then return false
    else
      keep last
      carryOut (Line.ofText last)
  | found => carryOut found

def newState (hasScreen : Bool) : ShellState :=
  ⟨if hasScreen then some "" else none, none, none, none, [], ""⟩

def opened (hasScreen : Bool) (host : Host) : ShellSession :=
  match greet ⟨newState hasScreen, host⟩ with
  | .ok () s => s
  | .error _ s => s

/-! ## Reading lines -/

def welcome : String :=
  "Welcome to the Draw++ terminal! Type 'help' for the list of commands."

def prompt : String := "draw++> "

/-- Read lines until one ends the shell, and give back the lines that were not read. Each line is
kept in the history when it is read and again when it is carried out. -/
def readLines : List String → Action (List String)
  | [] => return []
  | line :: rest => do
    print prompt
    keep line
    if ← typed line then return rest else readLines rest

def interact (host : Host) (lines : List String) :
    EStateM.Result ShellError ShellSession (List String) :=
  (do
    print (welcome ++ "\n")
    readLines lines : Action (List String)) (opened false host)

end Shell

end DrawPlus
