import DrawPlus.Scope.Table
import DrawPlus.Tree.Node

/-!
# Checking programs

`Check.node` walks a tree in the order in which its parts run, declares names in the scope as it
meets them and gives every expression a type. Statements have no type. A name is declared before its
initial value is looked at, and stays declared when a later part fails.

A program is accepted when its walk succeeds and both window dimensions end up declared.
-/

namespace DrawPlus

/-- An action on a scope that may fail; declarations made before a failure stay. -/
abbrev Check := EStateM ScopeError Scope

namespace Check

/-- `source` may be used where `target` is wanted: equal types, a whole or fractional number for a
number, a whole number for a fractional one, a truth value for a variable of truth values. -/
def fits (source target : Option Kind) : Bool :=
  source == target ||
  (target == some .number && (source == some .int || source == some .float)) ||
  (source == some .int && target == some .float) ||
  (source == some .boolValue && target == some .bool)

def isNumeric (type : Option Kind) : Bool :=
  type == some .int || type == some .float

/-- The methods of a cursor with the types of their arguments. -/
def methods : List (Value × List Kind) :=
  [("move", [.number]), ("rotate", [.number]), ("color", [.color]), ("thickness", [.number]),
    ("visible", []), ("draw_line", [.number]),
    ("draw_rectangle", [.number, .number, .boolValue]),
    ("draw_circle", [.number, .boolValue]),
    ("draw_triangle", [.number, .number, .boolValue]),
    ("draw_ellipse", [.number, .number, .boolValue])]

/-- The type of an operation on operands of the given types. -/
def operationType (operator : Kind) (left right : Option Kind) : Except ScopeError Kind :=
  if operator.isArithmetic then
    if isNumeric left && isNumeric right then
      .ok (if left == some .float || right == some .float then .float else .int)
    else .error (.arithmetic left right)
  else if operator.isComparison then
    if left == right || (isNumeric left && isNumeric right) ||
        (left == some .bool && right == some .boolValue) ||
        (left == some .boolValue && right == some .bool) then
      .ok .boolValue
    else .error (.comparison left right)
  else .error (.unknownOperator operator)

/-- Do something that only reads the scope. -/
def ofExcept {α : Type} (result : Except ScopeError α) : Check α := fun s =>
  match result with
  | .ok a => .ok a s
  | .error e => .error e s

/-- Replace the scope by the result of a declaration. -/
def declare (declaration : Scope → Except ScopeError Scope) : Check Unit := fun s =>
  match declaration s with
  | .ok s' => .ok () s'
  | .error e => .error e s

/-- The argument types of a method on a cursor. -/
def signature (cursor method : Value) : Check (List Kind) := fun s =>
  if s.isCursor cursor then
    match methods.lookup method with
    | some types => .ok types s
    | none => .error (.unknownMethod method) s
  else .error (.notCursor cursor) s

/-- The type of a variable, which must be declared. -/
def readVariable (name : Value) : Check Kind := fun s =>
  match s.readable? name with
  | some type => .ok type s
  | none => .error (.undeclared name) s

/-- Declare a variable. One that can be read already is refused in words of its own. -/
def declareVariable (name : Value) (type : Option Kind) : Check Unit := fun s =>
  if (s.readable? name).isSome then .error (.variableTaken name) s
  else declare (·.define name type) s

/-- Fail unless a condition has a truth value. -/
def requireTruth (guard : Guard) (type : Option Kind) : Check Unit :=
  if type == some .boolValue then pure () else throw (.condition guard)

mutual

/-- Check a node and give its type, if it is an expression. -/
def node : Node → Check (Option Kind)
  | .program statements => do
    all statements
    return none
  | .varDecl type name init => do
    declareVariable name type
    match init with
    | .absent => return none
    | init =>
      let initType ← node init
      if fits initType type then return none else throw (.initializer name)
  | .assign name value => do
    let type ← readVariable name
    let valueType ← node value
    if fits valueType (some type) then return none else throw (.assignment name)
  | .cursorCreation name x y => do
    declare (·.defineCursor name)
    let xType ← node x
    let yType ← node y
    if isNumeric xType && isNumeric yType then return none else throw .coordinates
  | .cursorMethod cursor method given => do
    let types ← signature cursor method
    if given.length ≠ types.length then throw (.methodArity method types.length)
    arguments (.methodArgument method) given types
    return none
  | .drawCommand cursor shape given => do
    let types ← signature cursor shape
    if given.length ≠ types.length then throw (.shapeArity shape types.length)
    arguments (.shapeArgument shape) given types
    return none
  | .branch condition body alternatives otherwise => do
    requireTruth .branch (← node condition)
    all body
    arms alternatives
    match otherwise with
    | some block => all block
    | none => pure ()
    return none
  | .whileLoop condition body => do
    requireTruth .whileLoop (← node condition)
    all body
    return none
  | .forLoop init condition update body => do
    let _ ← node init
    requireTruth .forLoop (← node condition)
    let _ ← node update
    all body
    return none
  | .binary left operator right => do
    let leftType ← node left
    let rightType ← node right
    let type ← ofExcept (operationType operator leftType rightType)
    return some type
  | .number (.double _) => return some .float
  | .number _ => return some .int
  | .truth _ => return some .boolValue
  | .color name parts => do
    match parts with
    | some values => if name.isVoid then components values
    | none => pure ()
    return some .color
  | .variable name => do
    let type ← readVariable name
    return some type
  | .absent => throw (.noRule Node.absent.classText)
  | .bare => throw (.noRule Node.bare.classText)
  | .text value => throw (.noRule (Node.text value).classText)

def all : List Node → Check Unit
  | [] => return
  | first :: rest => do
    let _ ← node first
    all rest

/-- Check the further conditions of a branch with their statements. -/
def arms : List (Node × List Node) → Check Unit
  | [] => return
  | (condition, body) :: rest => do
    requireTruth .alternative (← node condition)
    all body
    arms rest

/-- Check arguments against the types wanted for them. -/
def arguments (error : ScopeError) : List Node → List Kind → Check Unit
  | first :: rest, type :: types => do
    let argumentType ← node first
    if fits argumentType (some type) then arguments error rest types else throw error
  | _, _ => return

def components : List Node → Check Unit
  | [] => return
  | first :: rest => do
    if isNumeric (← node first) then components rest else throw .components

end

/-- Both window dimensions are declared with a type. -/
def windowDimensions : Check Unit := fun s =>
  if (s.typeOf? "windowWidth").isNone then .error (.undeclared "windowWidth") s
  else if (s.typeOf? "windowHeight").isNone then .error (.undeclared "windowHeight") s
  else .ok () s

end Check

/-- Whether a tree is a well-formed program, and if not, why. -/
def Node.check (tree : Node) : Except ScopeError Unit :=
  match (do let _ ← Check.node tree; Check.windowDimensions : Check Unit) Scope.empty with
  | .ok () _ => .ok ()
  | .error e _ => .error e

end DrawPlus
