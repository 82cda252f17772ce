import DrawPlus.Disk.Basic

/-!
# The host of a shell

What a shell finds around it: the disk, the standard output, the folder of example programs, and
the programs it starts. Starting a program does not run anything here. Its result is taken from a
list of results given in advance, what it does to the disk from a list of effects, and the words of
the command are written down together with what the file for code typed in held at that moment.
-/

namespace DrawPlus

structure ProgramResult where
  exitCode : Int
  output : String
  errors : String
deriving DecidableEq

/-- A program that succeeds and writes nothing. -/
def ProgramResult.silent : ProgramResult := ⟨0, "", ""⟩

inductive FileAction where
  | write (path : String) (content : Content)
  | remove (path : String)
deriving DecidableEq

def FileAction.path : FileAction → String
  | .write path _ => path
  | .remove path => path

/-- The disk after a file is written or removed. What cannot be begun leaves it as it is. -/
def Disk.after (d : Disk) : FileAction → Disk
  | .write path content =>
    match Disk.write path content d with
    | .ok () d | .error _ d => d
  | .remove path => (d.remove path).toOption.getD d

/-- What comes of starting a program besides its result: what it does to files and, if it cannot be
started or its output cannot be read, the cause. -/
structure ProgramEffect where
  actions : List FileAction
  fault : Option ReadError
deriving DecidableEq

def ProgramEffect.none : ProgramEffect := ⟨[], .none⟩

/-- The folder of example programs: it is missing, it lists its files, or it cannot be listed. -/
inductive Examples where
  | missing
  | files (names : List String)
  | unreadable (message : String)
deriving DecidableEq

structure Host where
  disk : Disk
  output : String
  examples : Examples
  results : List ProgramResult
  started : List (List String × Option String)
  commands : List String
  effects : List ProgramEffect

namespace Host

def sourceFile : String := "temp.dpp"

def codeFile : String := "temp.c"

def programFile : String := "temp_program"

def buildCommand (source : String) : String :=
  "python -m compiler.compiler " ++ source ++ " -o " ++ codeFile

def linkCommand : String :=
  "gcc -I../lib/DPP/include -I../lib/SDL2/include -L../lib -o " ++ programFile ++ " " ++ codeFile ++
    " -ldrawpp -lSDL2 -lm"

def runCommand : String := "./" ++ programFile

def ofDisk (disk : Disk) : Host := ⟨disk, "", .missing, [], [], [], []⟩

def print (h : Host) (text : String) : Host :=
  { h with output := h.output ++ text }

def peek (h : Host) (path : String) : Option String :=
  match h.disk.contentOf path with
  | .ok content => (content.decoded.toOption).map String.ofList
  | .error _ => none

/-- Start a program by its command: what it does to the disk is done, and its result is taken unless
there is a fault. -/
def start (h : Host) (command : String) : Except ReadError ProgramResult × Host :=
  let words := (Text.fields command.toList).map String.ofList
  let effect := h.effects.headD .none
  (match effect.fault with
    | some fault => .error fault
    | none => .ok (h.results.headD .silent),
    { h with
      disk := effect.actions.foldl Disk.after h.disk
      results := h.results.tail
      effects := h.effects.tail
      started := h.started ++ [(words, h.peek sourceFile)] })

end Host

end DrawPlus
