import DrawPlus.Number.Shortest

/-!
# Literal values

What a token carries, what a literal in a program denotes and what a tree has for a name: nothing,
a truth value, an integer of any size, a double or a text. A name read from a program is a text.
-/

namespace DrawPlus

/-- The value of a token or of a literal. -/
inductive Value where
  | absent
  | bool (b : Bool)
  | int (n : Int)
  | double (x : Double)
  | text (s : String)
deriving DecidableEq

namespace Value

/-- A text is a value; this is how names are mostly written. -/
instance : Coe String Value := ⟨.text⟩

/-- The value says nothing: it is absent, false, zero or the empty text. -/
def isVoid : Value → Bool
  | .absent => true
  | .bool b => !b
  | .int n => n == 0
  | .double x => !x.ltInt 0 && !x.gtInt 0 && x.magnitude != .undefined
  | .text s => s == ""

/-- How a value is shown in messages, in tree texts and in generated code. -/
def display : Value → String
  | .absent => "None"
  | .bool true => "True"
  | .bool false => "False"
  | .int n => toString n
  | .double x => x.text
  | .text s => s

/-- Whether the value is below `n`; `none` when it is no number. Truth values count as 0 and 1. -/
def below? (v : Value) (n : Int) : Option Bool :=
  match v with
  | .int m => some (decide (m < n))
  | .bool b => some (decide ((if b then 1 else 0) < n))
  | .double x => some (x.ltInt n)
  | .absent | .text _ => none

/-- Whether the value is above `n`; `none` when it is no number. -/
def above? (v : Value) (n : Int) : Option Bool :=
  match v with
  | .int m => some (decide (n < m))
  | .bool b => some (decide (n < if b then 1 else 0))
  | .double x => some (x.gtInt n)
  | .absent | .text _ => none

end Value

end DrawPlus
