import DrawPlus.Token.Basic

/-!
# The dialect of the generated code

A dialect says which header lines open the generated file and how types, operators and colours are
spelled. Entries for types and operators are written for a kind by its name, perhaps after a path
of words joined by points; an entry for an unknown kind is dropped, and of two entries for one kind
the later wins.
-/

namespace DrawPlus

/-- The tables a dialect is made from; any of them may be missing. -/
structure DialectSource where
  headers : Option (List String)
  types : Option (List (String × String))
  operators : Option (List (String × String))
  colors : Option (List (String × String))

/-- Spellings of the generated code. Types and operators are looked up by the label of a kind. -/
structure Dialect where
  headers : Option (List String)
  types : List (String × String)
  operators : List (String × String)
  colors : List (String × String)

namespace Dialect

def lastWord (key : String) : String :=
  String.ofList (key.toList.reverse.takeWhile (· != '.')).reverse

/-- An entry under the label of the kind it is for, unless there is no such kind. -/
def entry? (e : String × String) : Option (String × String) :=
  match Kind.ofName (lastWord e.1) with
  | .other _ => none
  | kind => some (kind.label, e.2)

/-- The entries for kinds, the last one first. -/
def entries (table : List (String × String)) : List (String × String) :=
  (table.filterMap entry?).reverse

/-- A table that is needed. If it is missing, its name is the error. -/
def needed {α : Type} (name : String) : Option α → Except String α
  | some table => .ok table
  | none => .error name

/-- The dialect given by tables; the tables of types, operators and colours are needed. -/
def ofSource (source : DialectSource) : Except String Dialect := do
  let types ← needed "type_mappings" source.types
  let operators ← needed "operators" source.operators
  let colors ← needed "colors" source.colors
  return ⟨source.headers, entries types, entries operators, colors⟩

def standardSource : DialectSource where
  headers := some ["#include \"../lib/DPP/include/drawpp.h\"", "#include <stdio.h>",
    "#include <stdbool.h>", "#include <math.h>"]
  types := some [("TokenType.INT", "int"), ("TokenType.FLOAT", "float"),
    ("TokenType.BOOL", "bool"), ("TokenType.STRING_TYPE", "char*"),
    ("TokenType.COLOR", "SDL_Color")]
  operators := some [("TokenType.PLUS", "+"), ("TokenType.MINUS", "-"), ("TokenType.MULT", "*"),
    ("TokenType.SLASH", "/"), ("TokenType.MODULO", "%"), ("TokenType.LESS", "<"),
    ("TokenType.LESS_EQUAL", "<="), ("TokenType.GREATER", ">"), ("TokenType.GREATER_EQUAL", ">="),
    ("TokenType.EQUAL_EQUAL", "=="), ("TokenType.NOT_EQUAL", "!=")]
  colors := some (Hue.all.map fun h => (h.name, h.constant))

def standard : Dialect :=
  (ofSource standardSource).toOption.getD ⟨none, [], [], []⟩

/-- How a type is spelled; a type without entry is an integer. -/
def typeText (d : Dialect) (type : Option Kind) : String :=
  (d.types.lookup (Kind.labelOrNone type)).getD "int"

/-- How an operator is spelled; an operator without entry adds. -/
def operatorText (d : Dialect) (operator : Kind) : String :=
  (d.operators.lookup operator.label).getD "+"

/-- How a named colour is spelled; a colour without entry is black. -/
def colorText (d : Dialect) : Value → String
  | .text name => (d.colors.lookup name).getD "black"
  | _ => "black"

end Dialect

end DrawPlus
