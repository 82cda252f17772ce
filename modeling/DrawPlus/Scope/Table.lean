import DrawPlus.Token.Basic

/-!
# Names in scope

A scope lists the variables declared so far with their types, and the cursors created so far, each
in the order of declaration. A name is declared once, as a variable or as a cursor. A variable
built by hand may lack a type or have the empty one; such a variable keeps its name taken but cannot
be read.
-/

namespace DrawPlus

/-- The conditions whose type is checked. -/
inductive Guard where
  | branch | alternative | whileLoop | forLoop
deriving DecidableEq

/-- What a condition is called in messages. -/
def Guard.word : Guard → String
  | .branch => "If"
  | .alternative => "Elif"
  | .whileLoop => "While"
  | .forLoop => "For"

inductive ScopeError where
  | nameTaken (name : Value)
  | variableTaken (name : Value)
  | undeclared (name : Value)
  | initializer (name : Value)
  | assignment (name : Value)
  | coordinates
  | notCursor (name : Value)
  | unknownMethod (method : Value)
  | methodArity (method : Value) (count : Nat)
  | methodArgument (method : Value)
  | shapeArity (shape : Value) (count : Nat)
  | shapeArgument (shape : Value)
  | arithmetic (left right : Option Kind)
  | comparison (left right : Option Kind)
  | unknownOperator (operator : Kind)
  | condition (guard : Guard)
  | components
  | noRule (classText : String)
deriving DecidableEq

namespace ScopeError

def message : ScopeError → String
  | .nameTaken name => "Identifier " ++ name.display ++ " already declared"
  | .variableTaken name => "Variable " ++ name.display ++ " already declared"
  | .undeclared name => "Variable " ++ name.display ++ " not declared"
  | .initializer name => "Type mismatch in initialization of " ++ name.display
  | .assignment name => "Type mismatch in assignment to " ++ name.display
  | .coordinates => "Cursor coordinates must be numeric"
  | .notCursor name => "Identifier " ++ name.display ++ " is not a cursor"
  | .unknownMethod method => "Invalid cursor method: " ++ method.display
  | .methodArity method count =>
    "Method " ++ method.display ++ " expects " ++ toString count ++ " parameters"
  | .methodArgument method => "Invalid parameter type for method " ++ method.display
  | .shapeArity shape count =>
    "Shape " ++ shape.display ++ " expects " ++ toString count ++ " parameters"
  | .shapeArgument shape => "Invalid parameter type for shape " ++ shape.display
  | .arithmetic left right =>
    "Invalid operand types for arithmetic operation: " ++ Kind.labelOrNone left ++ " and " ++
      Kind.labelOrNone right
  | .comparison left right =>
    "Invalid operand types for comparison: " ++ Kind.labelOrNone left ++ " and " ++
      Kind.labelOrNone right
  | .unknownOperator operator => "Unknown binary operator " ++ operator.label
  | .condition guard => guard.word ++ " condition must be boolean"
  | .components => "RGB values must be numeric"
  | .noRule classText => "No visit method for " ++ classText

end ScopeError

/-- The variables and cursors declared so far, in order. -/
structure Scope where
  declared : List (Value × Option Kind)
  cursors : List Value
deriving DecidableEq

namespace Scope

def empty : Scope := ⟨[], []⟩

def hasVariable (s : Scope) (name : Value) : Bool :=
  s.declared.any fun entry => entry.1 == name

def isCursor (s : Scope) (name : Value) : Bool :=
  s.cursors.contains name

/-- The type of a variable; none for a name that is no variable or has no type. -/
def typeOf? (s : Scope) (name : Value) : Option Kind :=
  (s.declared.lookup name).join

/-- The type of a variable that can be read: it must not be missing or empty. -/
def readable? (s : Scope) (name : Value) : Option Kind :=
  match s.typeOf? name with
  | some (.other "") => none
  | type => type

/-- The name can be declared. -/
def isFree (s : Scope) (name : Value) : Bool :=
  !s.hasVariable name && !s.isCursor name

def define (s : Scope) (name : Value) (type : Option Kind) : Except ScopeError Scope :=
  if s.isFree name then .ok { s with declared := s.declared ++ [(name, type)] }
  else .error (.nameTaken name)

def defineCursor (s : Scope) (name : Value) : Except ScopeError Scope :=
  if s.isFree name then .ok { s with cursors := s.cursors ++ [name] }
  else .error (.nameTaken name)

end Scope

end DrawPlus
