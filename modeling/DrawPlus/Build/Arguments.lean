import DrawPlus.Text.Digit

/-!
# Arguments of the build command

The command takes one source file, `-o` or `--output` with a file, and `--run`. Long options may be
shortened as long as they stay unambiguous, the value of an option may be attached, and `--` ends
the options. A word that looks like a negative number or holds a blank is no option.

Short options can be run together in one word. Only `-h` takes no value, so that such a word begins
with it and ends, at the latest, with the first `o`, which takes what follows for its value. The
word is read to its end before any of its options counts.
-/

namespace DrawPlus

structure BuildRequest where
  input : String
  output : Option String
  run : Bool
deriving DecidableEq

/-- What comes of the arguments: a request, a call for help, a refusal, or an attached value that
was lost. -/
inductive ArgumentOutcome where
  | request (r : BuildRequest)
  | help
  | refused
  | valueLost
deriving DecidableEq

namespace Arguments

inductive Choice where
  | help | output | run
deriving DecidableEq

inductive Word where
  /-- a plain argument -/
  | plain (text : String)
  /-- an option, perhaps with a value attached -/
  | option (choice : Choice) (value : Option String)
  /-- the short option for help, run together with the letters that follow it -/
  | cluster (letters : List Char)
  /-- the mark that ends the options -/
  | divider
  /-- an option that does not exist -/
  | unknown
  /-- a shortened option with more than one reading -/
  | ambiguous
deriving DecidableEq

def dividerText : String := "--"

def longOptions : List (List Char × Choice) :=
  [("--help".toList, .help), ("--output".toList, .output), ("--run".toList, .run)]

/-- A decimal digit of any script. -/
def isFigure (c : Char) : Bool :=
  (Text.decimalValue? c).isSome

def isDigits (text : List Char) : Bool :=
  !text.isEmpty && text.all isFigure

def withoutLineFeed (text : List Char) : List Char :=
  if text.getLast? = some '\n' then text.dropLast else text

/-- A minus sign before an integer or a decimal number; a line feed may follow. -/
def looksNegative : List Char → Bool
  | '-' :: rest =>
    let number := withoutLineFeed rest
    isDigits number ||
      (match number.dropWhile isFigure with
        | '.' :: fraction => isDigits fraction
        | _ => false)
  | _ => false

def cutValue (text : List Char) : List Char × Option (List Char) :=
  let name := text.takeWhile (· != '=')
  (name, if name.length < text.length then some (text.drop (name.length + 1)) else none)

/-- A short option with the text that follows its letter. An equals sign right after the letter
only sets the text apart. -/
def short (letter : Char) (text : List Char) : Option Word :=
  let (attached, isCut) := match text with
    | '=' :: rest => (rest, true)
    | _ => (text, false)
  match letter with
  | 'o' =>
    some (.option .output (if text.isEmpty then none else some (String.ofList attached)))
  | 'h' =>
    some (if attached.isEmpty then .option .help (if isCut then some "" else none)
      else .cluster attached)
  | _ => none

/-- A long option, perhaps shortened, with its value. -/
def long (text : List Char) : Option Word :=
  let (name, value) := cutValue text
  let word (choice : Choice) : Word := .option choice (value.map String.ofList)
  match longOptions.lookup name with
  | some choice => some (word choice)
  | none =>
    match longOptions.filter fun o => name.isPrefixOf o.1 with
    | [] => none
    | [(_, choice)] => some (word choice)
    | _ => some .ambiguous

/-- A word as an option, if it can be one. -/
def option? : List Char → Option Word
  | '-' :: '-' :: name => long ('-' :: '-' :: name)
  | '-' :: letter :: text => short letter text
  | _ => none

/-- How a word before any divider is understood. -/
def classify (word : String) : Word :=
  let text := word.toList
  if word = dividerText then .divider
  else if text.head? ≠ some '-' || text.length = 1 then .plain word
  else
    match option? text with
    | some found => found
    | none => if looksNegative text || text.contains ' ' then .plain word else .unknown

/-- All words; after the divider every word is plain. -/
def classifyAll : List String → List Word
  | [] => []
  | word :: rest =>
    match classify word with
    | .divider => .divider :: rest.map .plain
    | found => found :: classifyAll rest

/-- Whether the letters run together after `-h` can be read, given whether the next word is plain:
an `o` at the end needs a value from there. -/
def isReadable (plainFollows : Bool) : List Char → Bool
  | [] => true
  | ['o'] => plainFollows
  | 'o' :: _ => true
  | 'h' :: rest => isReadable plainFollows rest
  | _ => false

def startsPlain : List Word → Bool
  | .plain _ :: _ => true
  | _ => false

structure Taken where
  input : Option String
  output : Option String
  run : Bool
  hasExtra : Bool

def Taken.nothing : Taken := ⟨none, none, false, false⟩

/-- Take a plain argument: the first is the source file, any other is one too many. -/
def Taken.plain (taken : Taken) (text : String) : Taken :=
  if taken.input.isNone then { taken with input := some text } else { taken with hasExtra := true }

/-- What was asked for, once all words are taken. -/
def Taken.outcome (taken : Taken) : ArgumentOutcome :=
  match taken.input with
  | some input => if taken.hasExtra then .refused else .request ⟨input, taken.output, taken.run⟩
  | none => .refused

/-- Take the words in order. A divider belongs to the source file before or after it and is one
word too many anywhere else. An attached value that reads as the divider is lost. -/
def take (taken : Taken) : List Word → ArgumentOutcome
  | [] => taken.outcome
  | .plain text :: .divider :: rest => take (taken.plain text) rest
  | .plain text :: rest => take (taken.plain text) rest
  | .divider :: rest => take { taken with hasExtra := taken.hasExtra || taken.input.isSome } rest
  | .unknown :: rest => take { taken with hasExtra := true } rest
  | .ambiguous :: _ => .refused
  | .cluster letters :: rest =>
    if isReadable (startsPlain rest) letters then .help else .refused
  | .option .help none :: _ => .help
  | .option .run none :: rest => take { taken with run := true } rest
  | .option .output (some value) :: rest =>
    if value = dividerText then .valueLost else take { taken with output := some value } rest
  | .option .output none :: .plain value :: rest => take { taken with output := some value } rest
  | .option _ _ :: _ => .refused

def understand (words : List String) : ArgumentOutcome :=
  let found := classifyAll words
  if found.contains .ambiguous then .refused else take .nothing found

end Arguments

end DrawPlus
