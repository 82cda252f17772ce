import DrawPlus.Disk.Basic
import DrawPlus.Emit.Code
import DrawPlus.Scope.Check
import DrawPlus.Tree.Parse

/-!
# Building a program

A build takes a source file through five stages: reading, cutting into tokens, parsing, checking
and writing the generated code. It reports each stage as it goes. The tokens and the tree of the
last successful stages are kept from one run to the next. The spellings of the generated code stand
in a file too, and are read in every run.

A run fails in one of four ways: the source file is not named as one, some file is not found, the
program breaks a rule, or anything else.
-/

namespace DrawPlus

def EmitError.message : EmitError → String
  | .noRule classText => "No visit method for " ++ classText
  | .tooFewParts => "list index out of range"
  | .notProgram => "the tree is no program"
  | .noProgramBegun => "no program was begun"
  | .noCondition => "the condition of the loop has no text"
  | .truthNotText => "the truth value is no text"
  | .noHeaders => "'headers'"

/-- How a run of a build ends when it does not succeed. -/
inductive BuildError where
  | notSource
  | notFound
  | rules (error : ScopeError)
  | other (message : String)
deriving DecidableEq

def BuildError.report (input : String) : BuildError → String
  | .notSource => "❌ Compilation error (Input): The source file must have a .dpp extension"
  | .notFound => "❌ Error: File not found: " ++ input
  | .rules error => "❌ Compilation error (Semantic): " ++ error.message
  | .other message => "❌ Unexpected error: " ++ message

/-- A file that is missing is reported in its own way, whichever file it is. -/
def BuildError.ofFile (error : FileError) : BuildError :=
  if error.fault = .missing then .notFound else .other error.message

/-- The file with the spellings of the generated code. Its text is read into tables, or there is a
message why it cannot be. -/
structure Configuration where
  path : String
  read : String → Except String DialectSource

/-- A builder with the disk it works on, the results it keeps and the report so far. -/
structure Builder where
  configuration : Configuration
  disk : Disk
  tokens : Option (List Token)
  tree : Option Node
  report : String

namespace Builder

def fresh (configuration : Configuration) (disk : Disk) : Builder :=
  ⟨configuration, disk, none, none, ""⟩

/-- Part of a run; what was reported, kept and written before a failure stays. -/
abbrev Run := EStateM BuildError Builder

def say (line : String) : Run Unit := fun b =>
  .ok () { b with report := b.report ++ line ++ "\n" }

def readFile (path : String) : Run String := fun b =>
  match b.disk.readText path with
  | .ok text => .ok text b
  | .error (.file e) => .error (.ofFile e) b
  | .error (.encoding e) => .error (.other e.message) b

def tokenize (source : String) : Run (List Token) := fun b =>
  match Token.ofText source with
  | .ok tokens => .ok tokens { b with tokens := some tokens }
  | .error e => .error (.other e.message) b

def parse (tokens : List Token) : Run Node := fun b =>
  match Node.ofTokens tokens with
  | .ok tree => .ok tree { b with tree := some tree }
  | .error e => .error (.other (e.message?.getD "")) b

def check (tree : Node) : Run Unit := fun b =>
  match tree.check with
  | .ok () => .ok () b
  | .error e => .error (.rules e) b

def spellings : Run Dialect := do
  let configuration := (← get).configuration
  let text ← readFile configuration.path
  match configuration.read text with
  | .error message => throw (.other message)
  | .ok source =>
    match Dialect.ofSource source with
    | .error name => throw (.other (Text.quoted name))
    | .ok dialect => return dialect

def emit (dialect : Dialect) (tree : Node) : Run String := fun b =>
  match tree.code dialect with
  | .ok code => .ok code b
  | .error e => .error (.other e.message) b

/-- Write a text to a file, making the directories above it. -/
def writeFile (path text : String) : Run Unit := fun b =>
  match Disk.makeDirectories (b.disk.absolute path).dropLast b.disk with
  | .error e disk => .error (.ofFile e) { b with disk := disk }
  | .ok () disk =>
    match Disk.writeText path text disk with
    | .error e disk => .error (.ofFile e) { b with disk := disk }
    | .ok () disk => .ok () { b with disk := disk }

def generate (tree : Node) (output : String) : Run Unit := do
  let dialect ← spellings
  let code ← emit dialect tree
  writeFile output code

def isSourceName (input : String) : Bool :=
  ".dpp".toList.isSuffixOf input.toList

/-- The output for an input when none is given. -/
def defaultOutput (input : String) : String :=
  withoutExtension input ++ ".c"

/-- The stages that only look: read the source, make its tree and check it. -/
def examine (input : String) : Run Node := do
  if !isSourceName input then throw .notSource
  say ("\n[1/5] Reading source file: " ++ input)
  let source ← readFile input
  say "\n[2/5] Tokenizing..."
  let tokens ← tokenize source
  say "✓ Your code has been tokenized successfully"
  say ("Number of tokens: " ++ toString tokens.length)
  say "\n[3/5] Performing syntax analysis..."
  let tree ← parse tokens
  say "✓ Syntax analysis completed successfully"
  say ("Number of statements: " ++ toString (tree.statements?.getD []).length)
  say "\n[4/5] Performing semantic analysis..."
  check tree
  return tree

def produce (tree : Node) (output : String) : Run Unit := do
  say "✓ Semantic analysis completed successfully"
  say "\n[5/5] Generating code..."
  generate tree output
  say ("✓ C code generated successfully: " ++ output)
  say "\n✨ Compilation completed successfully!"

def stages (input : String) (output : Option String) : Run Unit := do
  let tree ← examine input
  produce tree (output.getD (defaultOutput input))

/-- Run a build; the answer tells whether it succeeded. -/
def compile (b : Builder) (input : String) (output : Option String) : Bool × Builder :=
  match stages input output b with
  | .ok () b => (true, b)
  | .error e b => (false, { b with report := b.report ++ "\n" ++ e.report input ++ "\n" })

end Builder

end DrawPlus
