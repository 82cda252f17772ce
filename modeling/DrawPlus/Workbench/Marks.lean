import DrawPlus.Table
import DrawPlus.Text.Basic

/-!
# Marks in a text

A mark is a name with the ranges of the text that it covers. Marks keep the order in which they were
made, and a mark stays, even without any range, until it is deleted. The ends of a range are
written `line.column`; they do not move when the text changes.
-/

namespace DrawPlus

/-- The ends of a marked part of a text. -/
abbrev Range := String × String

def linePart (position : String) : String :=
  String.ofList (position.toList.takeWhile (· != '.'))

abbrev Marks := List (String × List Range)

namespace Marks

/-- The marks of a new text: the selection, which covers nothing. -/
def fresh : Marks := [("sel", [])]

def names (marks : Marks) : List String :=
  marks.map Prod.fst

/-- The ranges of a mark; none if there is no such mark. -/
def ranges (marks : Marks) (name : String) : List Range :=
  (marks.lookup name).getD []

def make (marks : Marks) (name : String) : Marks :=
  if Table.has name marks then marks else marks ++ [(name, [])]

/-- Let a mark cover one more range. -/
def cover (marks : Marks) (name : String) (range : Range) : Marks :=
  Table.insert name (marks.ranges name ++ [range]) marks

def delete (marks : Marks) (name : String) : Marks :=
  Table.erase name marks

/-- The marks with a range that starts on a line. -/
def onLine (marks : Marks) (line : String) : List String :=
  (marks.filter fun mark => mark.2.any fun range => linePart range.1 = line).map Prod.fst

end Marks

end DrawPlus
