import DrawPlus.Disk.Utf8
import DrawPlus.Text.Quoted
import DrawPlus.Text.Basic
import DrawPlus.Table

/-!
# Files and directories

A disk holds the files and directories below one working directory, `home`. Paths are written
relative to it, or from it on; they are followed component by component, so that each one on the way
has to be a directory. Reading a file gives text with every line end as a line feed. Some places
have room for a number of bytes only: a file that is written there and needs more is left with its
beginning.

The directories above `home` and the root of all directories are there too, though nothing is known
of what else they hold: a path may lead to them and beyond.

Failures carry their cause and the path as it was given, and are worded in `FileError.message`.
-/

namespace DrawPlus

inductive Content where
  | text (s : String)
  | bytes (b : List UInt8)
  /-- a picture; its bytes are no text, and `fault` is what reading them as one runs into -/
  | picture (width height : Nat) (fault : Utf8Error)
deriving DecidableEq

/-- What stands at a place below the working directory. -/
inductive Entry where
  | directory
  | file (content : Content)
deriving DecidableEq

inductive FileFault where
  | missing
  | exists
  | notDirectory
  | isDirectory
  /-- a name, or the whole path, is longer than names and paths can be -/
  | tooLong
  /-- the path holds a null character, so that it is no path at all -/
  | malformed
  /-- there is no room left for what is being written -/
  | noSpace
deriving DecidableEq

structure FileError where
  fault : FileFault
  path : String
deriving DecidableEq

namespace FileError

/-- The wording of a cause, with its number if it has one. -/
def reason : FileFault → String
  | .missing => "[Errno 2] No such file or directory"
  | .exists => "[Errno 17] File exists"
  | .notDirectory => "[Errno 20] Not a directory"
  | .isDirectory => "[Errno 21] Is a directory"
  | .tooLong => "[Errno 36] File name too long"
  | .malformed => "embedded null byte"
  | .noSpace => "[Errno 28] No space left on device"

/-- The wording of a failure. It shows the path, unless the fault is in the path itself or comes up
after the file was opened. -/
def message (e : FileError) : String :=
  if e.fault = .malformed || e.fault = .noSpace then reason e.fault
  else reason e.fault ++ ": " ++ Text.quoted e.path

end FileError

inductive ReadError where
  | file (error : FileError)
  | encoding (error : Utf8Error)
deriving DecidableEq

def ReadError.message : ReadError → String
  | .file error => error.message
  | .encoding error => error.message

/-- Every line end as a line feed. -/
def unifyLineEnds : List Char → List Char
  | [] => []
  | '\r' :: '\n' :: rest => '\n' :: unifyLineEnds rest
  | '\r' :: rest => '\n' :: unifyLineEnds rest
  | c :: rest => c :: unifyLineEnds rest

/-- The text of a file. -/
def Content.decoded : Content → Except Utf8Error (List Char)
  | .text s => .ok s.toList
  | .bytes b => Utf8.decode b
  | .picture _ _ fault => .error fault

/-- The bytes of a file, as far as they are known. -/
def Content.bytes? : Content → Option (List UInt8)
  | .text s => some s.toUTF8.data.toList
  | .bytes b => some b
  | .picture .. => none

/-- What is left of a content where there is room for `room` bytes, if it does not fit. A picture
does not. -/
def Content.cut? (room : Nat) (content : Content) : Option Content :=
  match content.bytes? with
  | some b => if b.length ≤ room then none else some (.bytes (b.take room))
  | none => some (.bytes [])

/-- The files hold the same bytes, however these are given. -/
def Content.holdsSame : Content → Content → Bool
  | .text s, .bytes b | .bytes b, .text s => (Utf8.decode b).toOption == some s.toList
  | one, other => one == other

/-- A place, by its components from the working directory on. Places above the working directory
begin with steps up, and places outside of it may begin at the root. -/
abbrev Path := List String

namespace Path

/-- The component that leads one directory up. -/
def up : String := ".."

/-- The components that stand for the root of all directories. Two slashes at the start of a path
are kept apart from any other number. -/
def roots : List String := ["/", "//"]

/-- The root at which a path text starts, if it starts at one. -/
def rootOf? (text : List Char) : Option String :=
  match text with
  | '/' :: '/' :: '/' :: _ => some "/"
  | '/' :: '/' :: _ => some "//"
  | '/' :: _ => some "/"
  | _ => none

def isRoot (path : Path) : Bool :=
  roots.any fun root => path == [root]

/-- The place lies below the working directory. -/
def isInside (path : Path) : Bool :=
  !(up :: roots).any fun name => path.head? == some name

/-- The directory that holds a place; above the root there is none but the root. -/
def parent (path : Path) : Path :=
  if path.isRoot then path
  else if path.all (· == up) then path ++ [up]
  else path.dropLast

/-- Directories that are there in any case: the working directory, those above it and the root. -/
def isGiven (path : Path) : Bool :=
  path.all (· == up) || path.isRoot

/-- The longest name of a file, in bytes. -/
def nameLimit : Nat := 255

/-- The longest path that can be followed, in bytes. -/
def textLimit : Nat := 4095

/-- A text with a null character. -/
def isMalformed (text : String) : Bool :=
  text.toList.any (·.toNat == 0)

/-- The last component is longer than any name. -/
def endsTooLong (path : Path) : Bool :=
  nameLimit < (path.getLastD "").utf8ByteSize

end Path

/-- The files and directories below the working directory. -/
structure Disk where
  home : String
  entries : List (Path × Entry)
  /-- how many bytes can be written at a place, where this is limited -/
  room : List (Path × Nat)
deriving DecidableEq

namespace Disk

def empty (home : String) : Disk := ⟨home, [], []⟩

def entry? (d : Disk) (path : Path) : Option Entry :=
  if path.isGiven then some .directory else d.entries.lookup path

/-- What stands at a place, which must not have too long a name. -/
def look (d : Disk) (path : Path) : Except FileFault (Option Entry) :=
  if path.endsTooLong then .error .tooLong else .ok (d.entry? path)

/-- The file at a place holds these bytes. -/
def keeps (d : Disk) (path : Path) (content : Content) : Bool :=
  match d.entry? path with
  | some (.file held) => held.holdsSame content
  | _ => false

/-- Put something at a place, in the stead of what is there. -/
def put (d : Disk) (path : Path) (entry : Entry) : Disk :=
  { d with entries := Table.erase path d.entries ++ [(path, entry)] }

def erase (d : Disk) (path : Path) : Disk :=
  { d with entries := Table.erase path d.entries }

def pieces (text : List Char) : List String :=
  (Text.pieces '/' text).map String.ofList

/-- The directory at which a path text starts, and the components that it then passes. -/
def route (d : Disk) (text : String) : Path × List String :=
  let below := (d.home ++ "/").toList
  if text = d.home then ([], [])
  else if below.isPrefixOf text.toList then ([], pieces (text.toList.drop below.length))
  else ((Path.rootOf? text.toList).toList, pieces text.toList)

/-- Where a path leads. Nothing need stand there; `endsInSlash` tells whether a slash follows the
last name. -/
structure Place where
  path : Path
  endsInSlash : Bool
deriving DecidableEq

def follow (d : Disk) (here : Path) : List String → Except FileFault Place
  | [] => .ok ⟨here, false⟩
  | name :: rest =>
    if name = "" || name = "." then d.follow here rest
    else if name = Path.up then d.follow here.parent rest
    else if rest.all (· == "") then .ok ⟨here ++ [name], !rest.isEmpty⟩
    else
      match d.look (here ++ [name]) with
      | .ok (some .directory) => d.follow (here ++ [name]) rest
      | .ok (some (.file _)) => .error .notDirectory
      | .ok none => .error .missing
      | .error fault => .error fault

def locate (d : Disk) (text : String) : Except FileFault Place :=
  if Path.isMalformed text then .error .malformed
  else if text = "" then .error .missing
  else if Path.textLimit < text.utf8ByteSize then .error .tooLong
  else d.follow (d.route text).1 (d.route text).2

/-- What a path text names. A slash after the name of a file is a fault. -/
def find (d : Disk) (text : String) : Except FileFault Entry := do
  let place ← d.locate text
  match ← d.look place.path with
  | none => .error .missing
  | some (.file content) => if place.endsInSlash then .error .notDirectory else .ok (.file content)
  | some .directory => .ok .directory

/-- There is something at a path. -/
def holds (d : Disk) (text : String) : Bool :=
  (d.find text).toBool

def contentOf (d : Disk) (text : String) : Except FileError Content :=
  match d.find text with
  | .ok (.file content) => .ok content
  | .ok .directory => .error ⟨.isDirectory, text⟩
  | .error fault => .error ⟨fault, text⟩

/-- The text of a file, with line feeds as line ends. -/
def readText (d : Disk) (text : String) : Except ReadError String :=
  match d.contentOf text with
  | .error e => .error (.file e)
  | .ok content =>
    match content.decoded with
    | .error e => .error (.encoding e)
    | .ok characters => .ok (String.ofList (unifyLineEnds characters))

/-- The place at which a file can be written: not a directory, nor named as one by a slash. -/
def writable (d : Disk) (text : String) : Except FileFault Path := do
  let place ← d.locate text
  if place.endsInSlash then .error .isDirectory
  else
    match ← d.look place.path with
    | some .directory => .error .isDirectory
    | _ => .ok place.path

/-- What is left of a content that is written at a place with too little room for it. -/
def cut? (d : Disk) (path : Path) (content : Content) : Option Content :=
  (d.room.lookup path).bind content.cut?

/-- Write a file, making it if there is none. Where the room ends, so does the file. -/
def write (text : String) (content : Content) : EStateM FileError Disk Unit := fun d =>
  match d.writable text with
  | .error fault => .error ⟨fault, text⟩ d
  | .ok path =>
    match d.cut? path content with
    | none => .ok () (d.put path (.file content))
    | some beginning => .error ⟨.noSpace, text⟩ (d.put path (.file beginning))

def writeText (path content : String) : EStateM FileError Disk Unit :=
  write path (.text content)

def remove (d : Disk) (text : String) : Except FileError Disk :=
  match d.find text, d.locate text with
  | .ok (.file _), .ok place => .ok (d.erase place.path)
  | .ok .directory, _ => .error ⟨.isDirectory, text⟩
  | .error fault, _ | _, .error fault => .error ⟨fault, text⟩

def fullText (d : Disk) (path : Path) : String :=
  match path with
  | [] => d.home
  | first :: rest =>
    if Path.roots.contains first then first ++ "/".intercalate rest
    else "/".intercalate (d.home :: path)

/-- Follow components by name only, whatever stands there. -/
def normalize (here : Path) (names : List String) : Path :=
  names.foldl (fun path name =>
    if name = "" || name = "." then path
    else if name = Path.up then path.parent
    else path ++ [name]) here

/-- The place that a path text names, by its text alone. -/
def absolute (d : Disk) (text : String) : Path :=
  normalize (d.route text).1 (d.route text).2

/-- Make the directories on the way from `here` along some components. Those made before a failure
stay. -/
def makeBelow (here : Path) : List String → EStateM FileError Disk Unit
  | [], d => .ok () d
  | name :: rest, d =>
    let next := here ++ [name]
    if Path.isMalformed name then .error ⟨.malformed, d.fullText next⟩ d
    else
      match d.look next with
      | .error fault => .error ⟨fault, d.fullText next⟩ d
      | .ok (some .directory) => makeBelow next rest d
      | .ok none => makeBelow next rest (d.put next .directory)
      | .ok (some (.file _)) =>
        match rest with
        | [] => .error ⟨.exists, d.fullText next⟩ d
        | name :: _ =>
          .error ⟨if Path.isMalformed name then .malformed else .notDirectory,
            d.fullText (next ++ [name])⟩ d

/-- Make a directory and those above it, as far as they are missing. -/
def makeDirectories (path : Path) : EStateM FileError Disk Unit :=
  makeBelow [] path

/-- Put a file or directory on the disk together with the directories above it. -/
def place (d : Disk) (path : String) (entry : Entry) : Disk :=
  let names := d.absolute path
  match makeDirectories names.dropLast d with
  | .ok () d => d.put names entry
  | .error _ _ => d

end Disk

/-- The text of a path without its extension: what precedes the last point of its last component,
where points that open the component do not count. -/
def withoutExtension (path : String) : String :=
  let reversed := path.toList.reverse
  let name := reversed.takeWhile (· != '/')
  let stem := (name.dropWhile (· != '.')).drop 1
  if name.contains '.' && stem.any (· != '.') then
    String.ofList (stem ++ reversed.drop name.length).reverse
  else path

/-- The last component of a path. -/
def baseName (path : String) : String :=
  String.ofList (path.toList.reverse.takeWhile (· != '/')).reverse

end DrawPlus
