import DrawPlus.Token.Basic

/-!
# Program trees

One type holds statements and expressions alike. The reader of programs (`Parse`) puts statements
where statements belong and expressions where expressions belong, but trees are also built by hand,
and every operation on trees says what it does when a node stands in an unusual place, when a place
is empty (`absent`), or when a name is no text.
-/

namespace DrawPlus

inductive Node where
  /-- an empty place -/
  | absent
  /-- a node without content -/
  | bare
  | program (statements : List Node)
  | varDecl (type : Option Kind) (name : Value) (init : Node)
  | assign (name : Value) (value : Node)
  | cursorCreation (name : Value) (x y : Node)
  | cursorMethod (cursor method : Value) (arguments : List Node)
  | drawCommand (cursor shape : Value) (arguments : List Node)
  /-- a condition and its statements, the further conditions with theirs, and the statements for
  when no condition holds -/
  | branch (condition : Node) (body : List Node) (alternatives : List (Node × List Node))
      (otherwise : Option (List Node))
  | whileLoop (condition : Node) (body : List Node)
  | forLoop (init condition update : Node) (body : List Node)
  | binary (left : Node) (operator : Kind) (right : Node)
  | number (value : Value)
  | text (value : Value)
  | truth (value : Value)
  /-- a colour by name or, when the name is void, by its three components -/
  | color (name : Value) (components : Option (List Node))
  | variable (name : Value)

instance : Inhabited Node := ⟨.absent⟩

namespace Node

/-- What a node is called in listings; an empty place has no such name. -/
def className? : Node → Option String
  | .absent => none
  | .bare => some "ASTNode"
  | .program _ => some "Program"
  | .varDecl .. => some "VarDecl"
  | .assign .. => some "Assign"
  | .cursorCreation .. => some "CursorCreation"
  | .cursorMethod .. => some "CursorMethod"
  | .drawCommand .. => some "DrawCommand"
  | .branch .. => some "If"
  | .whileLoop .. => some "While"
  | .forLoop .. => some "For"
  | .binary .. => some "BinOp"
  | .number _ => some "Num"
  | .text _ => some "StringLiteral"
  | .truth _ => some "BooleanLiteral"
  | .color .. => some "ColorValue"
  | .variable _ => some "Var"

/-- The class of a node as messages show it. -/
def classText (node : Node) : String :=
  match node.className? with
  | some name => "<class 'compiler.parser.syntax_tree." ++ name ++ "'>"
  | none => "<class 'NoneType'>"

/-- How a node inside a list is listed: by its class only. -/
def listed (node : Node) : String :=
  match node.className? with
  | some name => "<compiler.parser.syntax_tree." ++ name ++ " object at 0x>"
  | none => "None"

def listedAll (nodes : List Node) : String :=
  "[" ++ ", ".intercalate (nodes.map listed) ++ "]"

/-- Nodes in parentheses; a single one is followed by a comma. -/
def listedTuple : List Node → String
  | [node] => "(" ++ node.listed ++ ",)"
  | nodes => "(" ++ ", ".intercalate (nodes.map listed) ++ ")"

/-- The further conditions of a branch with their statements. -/
def listedArms (arms : List (Node × List Node)) : String :=
  "[" ++ ", ".intercalate (arms.map fun arm =>
    "(" ++ arm.1.listed ++ ", " ++ listedAll arm.2 ++ ")") ++ "]"

/-- The text of a tree. A direct child is written out, a node in a list by its class only. -/
def display : Node → String
  | .absent => "None"
  | .bare => "<compiler.parser.syntax_tree.ASTNode object at 0x>"
  | .program statements => "Program(" ++ listedAll statements ++ ")"
  | .varDecl type name init =>
    "VarDecl(" ++ Kind.labelOrNone type ++ ", " ++ name.display ++ ", " ++ init.display ++ ")"
  | .assign name value => "Assign(" ++ name.display ++ ", " ++ value.display ++ ")"
  | .cursorCreation name x y =>
    "CursorCreation(" ++ name.display ++ ", " ++ x.display ++ ", " ++ y.display ++ ")"
  | .cursorMethod cursor method arguments =>
    "CursorMethod(" ++ cursor.display ++ ", " ++ method.display ++ ", " ++
      listedAll arguments ++ ")"
  | .drawCommand cursor shape arguments =>
    "DrawCommand(" ++ cursor.display ++ ", " ++ shape.display ++ ", " ++ listedAll arguments ++ ")"
  | .branch condition body alternatives otherwise =>
    "If(" ++ condition.display ++ ", " ++ listedAll body ++ ", elif=" ++
      listedArms alternatives ++ ", else=" ++ (otherwise.elim "None" listedAll) ++ ")"
  | .whileLoop condition body =>
    "While(" ++ condition.display ++ ", " ++ listedAll body ++ ")"
  | .forLoop init condition update body =>
    "For(" ++ init.display ++ ", " ++ condition.display ++ ", " ++ update.display ++ ", " ++
      listedAll body ++ ")"
  | .binary left operator right =>
    "BinOp(" ++ left.display ++ ", " ++ operator.label ++ ", " ++ right.display ++ ")"
  | .number value => "Num(" ++ value.display ++ ")"
  | .text value => "String(" ++ value.display ++ ")"
  | .truth value => "Boolean(" ++ value.display ++ ")"
  | .color name components =>
    if name.isVoid then "Color(rgb" ++ (components.elim "None" listedTuple) ++ ")"
    else "Color(" ++ name.display ++ ")"
  | .variable name => "Var(" ++ name.display ++ ")"

/-- The statements of a program; other nodes have none. -/
def statements? : Node → Option (List Node)
  | .program statements => some statements
  | _ => none

end Node

end DrawPlus
