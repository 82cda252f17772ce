import DrawPlus.Token.Scan
import DrawPlus.Tree.Feed
import DrawPlus.Tree.Node

/-!
# From tokens to trees

The grammar, by recursive descent. Sums and products group to the left, a comparison stands only at
the top of a condition, every statement ends in a semicolon, and a compound assignment `x += e`
stands for `x = x + e` with `e` kept whole. The two window dimensions cannot be assigned by a
statement of their own and, when declared with a literal, must be integers from 340 to 1000.

Every rule runs on a `Feed`; when it fails, the feed stays where the rule had got to. The rules
that call each other take a bound on the depth of calls. The bound is set from the number of tokens
and is reached only by a feed that ends in an opening parenthesis, which would be taken for ever.
-/

namespace DrawPlus

abbrev Parse := EStateM SyntaxError Feed

namespace Parse

def complain {α : Type} (complaint : Complaint) : Parse α := fun f =>
  .error (.found f.current complaint) f

def current : Parse Token := fun f => .ok f.current f

/-- Take the current token, which must be of the given kind. -/
def eat (kind : Kind) : Parse Unit := fun f =>
  if f.current.kind = kind then .ok () f.next
  else .error (.found f.current (.expected kind f.current.kind)) f

/-- A bound on the depth of calls that a feed can need. -/
def depthBound (f : Feed) : Nat :=
  4 * (f.rest.length + 2)

/-! ## Expressions -/

mutual

def sumWithin : Nat → Parse Node
  | 0 => throw .endlessNesting
  | depth + 1 => do
    let first ← productWithin depth
    sumTailWithin depth first

/-- Further summands after `left`. -/
def sumTailWithin : Nat → Node → Parse Node
  | 0, _ => throw .endlessNesting
  | depth + 1, left => do
    let operator := (← current).kind
    if operator ∈ [Kind.plus, .minus] then
      eat operator
      let right ← productWithin depth
      sumTailWithin depth (.binary left operator right)
    else return left

def productWithin : Nat → Parse Node
  | 0 => throw .endlessNesting
  | depth + 1 => do
    let first ← factorWithin depth
    productTailWithin depth first

/-- Further factors after `left`. -/
def productTailWithin : Nat → Node → Parse Node
  | 0, _ => throw .endlessNesting
  | depth + 1, left => do
    let operator := (← current).kind
    if operator ∈ [Kind.times, .slash, .modulo] then
      eat operator
      let right ← factorWithin depth
      productTailWithin depth (.binary left operator right)
    else return left

/-- A literal, a colour, a variable or a sum in parentheses. -/
def factorWithin : Nat → Parse Node
  | 0 => throw .endlessNesting
  | depth + 1 => do
    let token ← current
    match token.kind with
    | .number =>
      eat .number
      return .number token.value
    | .boolValue =>
      eat .boolValue
      return .truth token.value
    | .hue h =>
      eat (.hue h)
      return .color token.value none
    | .rgb =>
      eat .rgb
      eat .leftParen
      let red ← sumWithin depth
      eat .comma
      let green ← sumWithin depth
      eat .comma
      let blue ← sumWithin depth
      eat .rightParen
      return .color .absent (some [red, green, blue])
    | .identifier =>
      eat .identifier
      return .variable token.value
    | .leftParen =>
      eat .leftParen
      let inner ← sumWithin depth
      eat .rightParen
      return inner
    | _ => complain .noFactor

end

def sum : Parse Node := fun f => sumWithin (depthBound f) f

def product : Parse Node := fun f => productWithin (depthBound f) f

def factor : Parse Node := fun f => factorWithin (depthBound f) f

/-- An expression, or a comparison of two. -/
def condition : Parse Node := do
  let left ← sum
  let operator := (← current).kind
  if operator.isComparison then
    eat operator
    let right ← sum
    return .binary left operator right
  else return left

/-! ## Statements without a body -/

/-- The arithmetic operator of a compound assignment. -/
def compoundOperator? : Kind → Option Kind
  | .plusEqual => some .plus
  | .minusEqual => some .minus
  | .timesEqual => some .times
  | .slashEqual => some .slash
  | _ => none

/-- The two names that size the window. -/
def isWindowDimension (name : Value) : Bool :=
  name == .text "windowWidth" || name == .text "windowHeight"

/-- An assignment to `name`, from its operator on. -/
def assignment (name : Value) (withSemicolon : Bool) : Parse Node := do
  let operator := (← current).kind
  let value ← match compoundOperator? operator with
    | some arithmetic => do
      eat operator
      let right ← sum
      pure (Node.binary (.variable name) arithmetic right)
    | none => do
      eat .assign
      sum
  if withSemicolon then eat .semicolon
  return .assign name value

def argumentTail : Nat → Parse (List Node)
  | 0 => throw .endlessNesting
  | depth + 1 => do
    if (← current).kind = .comma then
      eat .comma
      let argument ← sum
      let rest ← argumentTail depth
      return argument :: rest
    else return []

def furtherArguments : Parse (List Node) := fun f => argumentTail (depthBound f) f

/-- The arguments of a call, up to the closing parenthesis. -/
def arguments : Parse (List Node) := do
  if (← current).kind = .rightParen then return []
  else
    let first ← sum
    let rest ← furtherArguments
    return first :: rest

/-- A call of a method on a cursor, from the opening parenthesis on. Methods whose name begins
with `draw_` draw. -/
def methodCall (cursor method : Value) : Parse Node := do
  eat .leftParen
  let given ← arguments
  eat .rightParen
  eat .semicolon
  match method with
  | .text name =>
    if "draw_".toList.isPrefixOf name.toList then return .drawCommand cursor name given
    else return .cursorMethod cursor name given
  | _ => throw .namelessMethod

def isMethod (kind : Kind) : Bool :=
  kind ∈ [Kind.color, .thickness, .move, .rotate, .visible, .drawLine, .drawRectangle, .drawCircle,
    .drawTriangle, .drawEllipse]

def isAssignment (kind : Kind) : Bool :=
  kind = .assign || (compoundOperator? kind).isSome

/-- A statement that begins with a name: an assignment or a method call. -/
def named : Parse Node := do
  let name := (← current).value
  if isWindowDimension name then complain .windowReassigned
  eat .identifier
  let kind := (← current).kind
  if kind = .dot then
    eat .dot
    let method ← current
    if isMethod method.kind then
      eat method.kind
      methodCall name method.value
    else complain .unknownMethod
  else if isAssignment kind then assignment name true
  else complain .noAssignment

def cursorCreation : Parse Node := do
  eat .cursor
  let name := (← current).value
  eat .identifier
  eat .assign
  eat .createCursor
  eat .leftParen
  let x ← sum
  eat .comma
  let y ← sum
  eat .rightParen
  eat .semicolon
  return .cursorCreation name x y

/-- A window dimension is an integer and, when given by a literal, lies in the allowed range. -/
def checkWindow (type : Kind) (init : Node) : Parse Unit := do
  if type ≠ .int then complain .windowNotInteger
  match init with
  | .number value =>
    match value.below? 340, value.above? 1000 with
    | some isLow, some isHigh => if isLow || isHigh then complain .windowOutOfRange
    | _, _ => throw .notComparable
  | _ => pure ()

def declaration : Parse Node := do
  eat .var
  let type := (← current).kind
  if type ∉ [Kind.int, .float, .bool, .color] then complain (.noType type)
  eat type
  let name := (← current).value
  eat .identifier
  eat .assign
  let init ← sum
  if isWindowDimension name then checkWindow type init
  eat .semicolon
  return .varDecl (some type) name init

/-! ## Statements with a body -/

/-- The first part of a loop over a range: a declaration or an assignment. -/
def loopStart : Parse Node := do
  if (← current).kind = .var then declaration
  else
    let name := (← current).value
    eat .identifier
    assignment name true

def loopStep : Parse Node := do
  let name := (← current).value
  eat .identifier
  assignment name false

def guarded : Parse Node := do
  eat .leftParen
  let test ← condition
  eat .rightParen
  return test

mutual

def statementWithin : Nat → Parse Node
  | 0 => throw .endlessNesting
  | depth + 1 => do
    match (← current).kind with
    | .var => declaration
    | .cursor => cursorCreation
    | .ifWord => branchWithin depth
    | .forWord => forLoopWithin depth
    | .whileWord => whileLoopWithin depth
    | .identifier => named
    | kind => complain (.noStatement kind)

def statementsWithin : Nat → Parse (List Node)
  | 0 => throw .endlessNesting
  | depth + 1 => do
    if (← current).kind = .rightBrace then return []
    else
      let first ← statementWithin depth
      let rest ← statementsWithin depth
      return first :: rest

def blockWithin : Nat → Parse (List Node)
  | 0 => throw .endlessNesting
  | depth + 1 => do
    eat .leftBrace
    let body ← statementsWithin depth
    eat .rightBrace
    return body

/-- Further conditions of a branch, each with its block. -/
def armsWithin : Nat → Parse (List (Node × List Node))
  | 0 => throw .endlessNesting
  | depth + 1 => do
    if (← current).kind = .elifWord then
      eat .elifWord
      let test ← guarded
      let body ← blockWithin depth
      let rest ← armsWithin depth
      return (test, body) :: rest
    else return []

/-- A branch: one block per condition and perhaps one for when none holds. -/
def branchWithin : Nat → Parse Node
  | 0 => throw .endlessNesting
  | depth + 1 => do
    eat .ifWord
    let test ← guarded
    let body ← blockWithin depth
    let arms ← armsWithin depth
    let otherwise ← (do
      if (← current).kind = .elseWord then
        eat .elseWord
        let block ← blockWithin depth
        return some block
      else return none)
    eat .semicolon
    return .branch test body arms otherwise

def forLoopWithin : Nat → Parse Node
  | 0 => throw .endlessNesting
  | depth + 1 => do
    eat .forWord
    eat .leftParen
    let init ← loopStart
    let test ← condition
    eat .semicolon
    let update ← loopStep
    eat .rightParen
    let body ← blockWithin depth
    eat .semicolon
    return .forLoop init test update body

def whileLoopWithin : Nat → Parse Node
  | 0 => throw .endlessNesting
  | depth + 1 => do
    eat .whileWord
    let test ← guarded
    let body ← blockWithin depth
    eat .semicolon
    return .whileLoop test body

end

def statement : Parse Node := fun f => statementWithin (depthBound f) f

def branch : Parse Node := fun f => branchWithin (depthBound f) f

def forLoop : Parse Node := fun f => forLoopWithin (depthBound f) f

def whileLoop : Parse Node := fun f => whileLoopWithin (depthBound f) f

/-- The statements up to the closing token of the feed. -/
def programWithin : Nat → Parse (List Node)
  | 0 => throw .endlessNesting
  | depth + 1 => do
    if (← current).kind = .endOfInput then return []
    else
      let first ← statement
      let rest ← programWithin depth
      return first :: rest

/-- All the statements up to the closing token of the feed. -/
def statementsToEnd : Parse (List Node) := fun f => programWithin (depthBound f) f

def program : Parse Node := do
  let statements ← statementsToEnd
  return .program statements

end Parse

def Node.ofTokens (tokens : List Token) : Except SyntaxError Node :=
  match Feed.ofTokens? tokens with
  | none => .error .noTokens
  | some feed =>
    match Parse.program feed with
    | .ok node _ => .ok node
    | .error e _ => .error e

inductive SourceError where
  | lexical (error : LexicalError)
  | grammar (error : SyntaxError)
deriving DecidableEq

def Node.ofText (source : String) : Except SourceError Node :=
  match Token.ofText source with
  | .error e => .error (.lexical e)
  | .ok tokens =>
    match Node.ofTokens tokens with
    | .error e => .error (.grammar e)
    | .ok node => .ok node

end DrawPlus
