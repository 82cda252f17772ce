import DrawPlus.Build.Arguments
import DrawPlus.Build.Compile

/-!
# The build command

The command builds one source file and, when asked to, has the generated code compiled and run. The
commands for that are listed in the outcome; carrying them out is left to the caller.
-/

namespace DrawPlus

structure CommandOutcome where
  exitCode : Nat
  output : String
  commands : List String
  disk : Disk

inductive CallError where
  /-- an option was given a value that was then lost -/
  | valueLost
deriving DecidableEq

def CallError.message : CallError → String
  | .valueLost => "not enough values to unpack (expected 1, got 0)"

namespace BuildCommand

def helpText : String :=
  "usage: compiler.py [-h] [-o OUTPUT] [--run] input\n\n" ++
  "Draw++ Compiler\n\n" ++
  "positional arguments:\n" ++
  "  input                 Draw++ source file (.dpp)\n\n" ++
  "options:\n" ++
  "  -h, --help            show this help message and exit\n" ++
  "  -o OUTPUT, --output OUTPUT\n" ++
  "                        Output C file (.c)\n" ++
  "  --run                 Run the generated program after compilation\n"

/-- The commands that compile generated code and run the result. -/
def runCommands (code : String) : List String :=
  let executable := withoutExtension code
  ["gcc " ++ code ++ " -o " ++ executable ++ " -lSDL2", "./" ++ executable]

def perform (configuration : Configuration) (disk : Disk) (request : BuildRequest) :
    CommandOutcome :=
  let input := disk.fullText (disk.absolute request.input)
  let opening := "Working directory: " ++ disk.home ++ "\nInput file: " ++ input ++ "\n"
  let (succeeded, builder) := (Builder.fresh configuration disk).compile input request.output
  let output := opening ++ builder.report
  if succeeded && request.run then
    let code := match request.output with
      | none | some "" => Builder.defaultOutput input
      | some output => output
    ⟨0, output ++ "\nCompiling the C file...\n\nRunning the executable...\n", runCommands code,
      builder.disk⟩
  else ⟨if succeeded then 0 else 1, output, [], builder.disk⟩

def call (configuration : Configuration) (disk : Disk) (words : List String) :
    Except CallError CommandOutcome :=
  match Arguments.understand words with
  | .refused => .ok ⟨2, "", [], disk⟩
  | .help => .ok ⟨0, helpText, [], disk⟩
  | .valueLost => .error .valueLost
  | .request request => .ok (perform configuration disk request)

end BuildCommand

end DrawPlus
