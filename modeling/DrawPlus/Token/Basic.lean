import DrawPlus.Hue
import DrawPlus.Value

/-!
# Tokens and their kinds

Every word, sign and literal of the language has a kind. Kinds double as the types of expressions
(`int`, `float`, `bool`, `color`, `boolValue`, `number`) and as operators. A kind given from outside
that the language does not know is kept under its name as `other`; it equals no kind of the
language.

A token has a kind, a value and the place where it was read. Lines count from 1 and columns from 1
within a line; tokens built by hand may have any integer there.
-/

namespace DrawPlus

inductive Kind where
  | identifier | number | boolValue | int | float | bool
  | color | var | ifWord | elifWord | elseWord | forWord
  | whileWord | cursor | createCursor | move | rotate | position
  | thickness | visible | drawLine | drawRectangle | drawCircle | drawTriangle
  | drawEllipse | rgb
  | hue (h : Hue)
  | plus | minus | times | slash | modulo | plusEqual
  | minusEqual | timesEqual | slashEqual | less | lessEqual | greater
  | greaterEqual | equal | notEqual | assign | semicolon | comma
  | dot | leftParen | rightParen | leftBrace | rightBrace
  | comment | blockComment | endOfInput
  | other (name : String)
deriving DecidableEq

namespace Kind

/-- The kinds of the language, in their fixed order. -/
def all : List Kind :=
  ([.identifier, .number, .boolValue, .int, .float, .bool,
    .color, .var, .ifWord, .elifWord, .elseWord, .forWord,
    .whileWord, .cursor, .createCursor, .move, .rotate, .position,
    .thickness, .visible, .drawLine, .drawRectangle, .drawCircle, .drawTriangle,
    .drawEllipse, .rgb] : List Kind) ++
  Hue.all.map .hue ++
  ([.plus, .minus, .times, .slash, .modulo, .plusEqual,
    .minusEqual, .timesEqual, .slashEqual, .less, .lessEqual, .greater,
    .greaterEqual, .equal, .notEqual, .assign, .semicolon, .comma,
    .dot, .leftParen, .rightParen, .leftBrace, .rightBrace,
    .comment, .blockComment, .endOfInput] : List Kind)

def name : Kind → String
  | .identifier => "IDENTIFIER"
  | .number => "NUMBER"
  | .boolValue => "BOOL_VALUE"
  | .int => "INT"
  | .float => "FLOAT"
  | .bool => "BOOL"
  | .color => "COLOR"
  | .var => "VAR"
  | .ifWord => "IF"
  | .elifWord => "ELIF"
  | .elseWord => "ELSE"
  | .forWord => "FOR"
  | .whileWord => "WHILE"
  | .cursor => "CURSOR"
  | .createCursor => "CREATE_CURSOR"
  | .move => "MOVE"
  | .rotate => "ROTATE"
  | .position => "POSITION"
  | .thickness => "THICKNESS"
  | .visible => "VISIBLE"
  | .drawLine => "DRAW_LINE"
  | .drawRectangle => "DRAW_RECTANGLE"
  | .drawCircle => "DRAW_CIRCLE"
  | .drawTriangle => "DRAW_TRIANGLE"
  | .drawEllipse => "DRAW_ELLIPSE"
  | .rgb => "RGB"
  | .hue h => h.name
  | .plus => "PLUS"
  | .minus => "MINUS"
  | .times => "MULT"
  | .slash => "SLASH"
  | .modulo => "MODULO"
  | .plusEqual => "PLUS_EQUAL"
  | .minusEqual => "MINUS_EQUAL"
  | .timesEqual => "STAR_EQUAL"
  | .slashEqual => "SLASH_EQUAL"
  | .less => "LESS"
  | .lessEqual => "LESS_EQUAL"
  | .greater => "GREATER"
  | .greaterEqual => "GREATER_EQUAL"
  | .equal => "EQUAL_EQUAL"
  | .notEqual => "NOT_EQUAL"
  | .assign => "ASSIGN"
  | .semicolon => "SEMICOLON"
  | .comma => "COMMA"
  | .dot => "DOT"
  | .leftParen => "LPAREN"
  | .rightParen => "RPAREN"
  | .leftBrace => "LBRACE"
  | .rightBrace => "RBRACE"
  | .comment => "COMMENT"
  | .blockComment => "MULTILINE_COMMENT"
  | .endOfInput => "EOF"
  | .other name => name

def label : Kind → String
  | .other name => name
  | kind => "TokenType." ++ kind.name

def ofName (name : String) : Kind :=
  (all.find? fun kind => kind.name == name).getD (.other name)

/-- The spelling of an operator or a delimiter. -/
def sign? : Kind → Option String
  | .plus => some "+"
  | .minus => some "-"
  | .times => some "*"
  | .slash => some "/"
  | .modulo => some "%"
  | .plusEqual => some "+="
  | .minusEqual => some "-="
  | .timesEqual => some "*="
  | .slashEqual => some "/="
  | .less => some "<"
  | .lessEqual => some "<="
  | .greater => some ">"
  | .greaterEqual => some ">="
  | .equal => some "=="
  | .notEqual => some "!="
  | .assign => some "="
  | .semicolon => some ";"
  | .comma => some ","
  | .dot => some "."
  | .leftParen => some "("
  | .rightParen => some ")"
  | .leftBrace => some "\x7b"
  | .rightBrace => some "\x7d"
  | _ => none

/-- What identifies a kind: its spelling for a sign, and for the others their number, counted
from one in the fixed order. -/
def tag (kind : Kind) : Value :=
  match kind.sign? with
  | some sign => .text sign
  | none => .int ((all.filter fun k => k.sign?.isNone).idxOf kind + 1)

/-- How a type that may be missing is shown in messages. -/
def labelOrNone : Option Kind → String
  | some kind => kind.label
  | none => "None"

def isArithmetic (kind : Kind) : Bool :=
  kind ∈ [.plus, .minus, .times, .slash, .modulo]

def isComparison (kind : Kind) : Bool :=
  kind ∈ [.less, .lessEqual, .greater, .greaterEqual, .equal, .notEqual]

end Kind

structure Token where
  kind : Kind
  value : Value
  line : Int
  column : Int
deriving DecidableEq

namespace Token

def display (t : Token) : String :=
  "Token(" ++ t.kind.label ++ ", " ++ t.value.display ++ ", line=" ++ toString t.line ++
    ", column=" ++ toString t.column ++ ")"

end Token

end DrawPlus
