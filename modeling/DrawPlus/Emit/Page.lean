import DrawPlus.Text.Basic

/-!
# The page of generated code

Code is written line by line on a page. The page keeps the depth of indentation for the next line,
the depth at which the last loop header was begun, and, once a whole program is being written, the
cursors to be shown at its end.
-/

namespace DrawPlus

inductive EmitError where
  /-- no code is known for nodes of this class -/
  | noRule (classText : String)
  /-- a call or a colour has too few parts -/
  | tooFewParts
  /-- only a program has statements to write -/
  | notProgram
  /-- a cursor is to be shown although no program is being written -/
  | noProgramBegun
  /-- the condition of a loop has no text -/
  | noCondition
  /-- a truth value is not given as text -/
  | truthNotText
  /-- the dialect has no header lines -/
  | noHeaders
deriving DecidableEq

structure Page where
  lines : List String
  indent : Nat
  loopIndent : Nat
  shown : Option (List String)
deriving DecidableEq

namespace Page

def blank : Page := ⟨[], 0, 0, none⟩

/-- The blanks before the next line, four for each level. -/
def margin (p : Page) : String :=
  String.ofList (List.replicate (4 * p.indent) ' ')

def write (p : Page) (line : String) : Page :=
  { p with lines := p.lines ++ [p.margin ++ line] }

def deeper (p : Page) : Page :=
  { p with indent := p.indent + 1 }

def shallower (p : Page) : Page :=
  { p with indent := p.indent - 1 }

def writeInside (p : Page) (lines : List String) : Page :=
  (lines.foldl write p.deeper).shallower

def text (p : Page) : String :=
  "\n".intercalate p.lines

/-- The lines run together, without the blanks at the ends. -/
def joined (p : Page) : String :=
  String.ofList (Text.trim (String.join p.lines).toList)

end Page

def withoutSemicolon (text : String) : String :=
  let characters := text.toList
  if characters.getLast? == some ';' then String.ofList characters.dropLast else text

end DrawPlus
