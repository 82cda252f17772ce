import DrawPlus.Token.Basic

/-!
# A feed of tokens

The feed holds the token to be looked at, the tokens after it and the number of tokens taken so
far. Taking the last token leaves it in place: it can be taken again, and only the count goes on.

`SyntaxError` lists what can be wrong with a feed. All but four of its cases are found at the
current token, which the message shows.
-/

namespace DrawPlus

structure Feed where
  current : Token
  rest : List Token
  position : Nat
deriving DecidableEq

inductive Complaint where
  | expected (wanted got : Kind)
  | noStatement (got : Kind)
  | windowReassigned
  | unknownMethod
  | noAssignment
  | noFactor
  | noType (got : Kind)
  | windowNotInteger
  | windowOutOfRange
  | custom (text : String)
deriving DecidableEq

namespace Complaint

def message : Complaint → String
  | .expected wanted got => "Expected " ++ wanted.label ++ ", got " ++ got.label
  | .noStatement got => "Unexpected token " ++ got.label ++ " in statement"
  | .windowReassigned => "Cannot reassign window dimensions"
  | .unknownMethod => "Expected a known method after '.'"
  | .noAssignment => "Expected '.' or assignment operator after identifier"
  | .noFactor => "Invalid factor"
  | .noType got =>
    "Expected type specifier (int, float, bool, string, color), got " ++ got.label
  | .windowNotInteger => "Window dimensions must be integers"
  | .windowOutOfRange => "Window dimensions must be between 340 and 1000"
  | .custom text => text

end Complaint

inductive SyntaxError where
  /-- the grammar misses something at this token -/
  | found (token : Token) (complaint : Complaint)
  /-- a window dimension is a literal without numeric value -/
  | notComparable
  /-- the name of a method is no text -/
  | namelessMethod
  /-- there is no token at all -/
  | noTokens
  /-- an opening parenthesis is the last token, so that nesting has no end -/
  | endlessNesting
deriving DecidableEq

namespace SyntaxError

/-- The wording of an error found at a token; the others have none. -/
def message? : SyntaxError → Option String
  | .found token complaint =>
    some ("Parser error at token " ++ token.display ++ ": " ++ complaint.message)
  | .notComparable | .namelessMethod | .noTokens | .endlessNesting => none

end SyntaxError

namespace Feed

/-- The feed of a list of tokens, which must not be empty. -/
def ofTokens? : List Token → Option Feed
  | [] => none
  | first :: rest => some ⟨first, rest, 0⟩

def next (f : Feed) : Feed :=
  match f.rest with
  | [] => { f with position := f.position + 1 }
  | t :: rest => ⟨t, rest, f.position + 1⟩

def peek? (f : Feed) : Option Token :=
  f.rest.head?

end Feed

end DrawPlus
