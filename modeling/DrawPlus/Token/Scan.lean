import DrawPlus.Number.Numeral
import DrawPlus.Token.Basic
import DrawPlus.Token.Reader

/-!
# From text to tokens

`tokens` reads a whole text. Between two tokens stand blanks (space, tab, line feed, carriage
return) and comments. A word is a letter or underscore followed by letters, digits, numerals and
underscores, and names joined by points are read in one go: a point after a word must be followed
directly by another word. Numbers are digits of any script with at most one point.

Two rules are worth knowing. An exclamation mark that is not part of `!=` is passed over when a
delimiter follows; otherwise the error names the character *after* it. And a `%` is no token.
-/

namespace DrawPlus

/-- Why a text cannot be cut into tokens. Places are line and column. -/
inductive LexicalError where
  /-- no token begins with this character, or the text ends (`none`) where one is needed -/
  | unexpected (c : Option Char) (line column : Nat)
  /-- the point after a word is not followed by a word -/
  | strayDot (line column : Nat)
  /-- a second point inside a number -/
  | secondPoint (line column : Nat)
  /-- the characters of a number denote none -/
  | numeral (error : NumeralError)
deriving DecidableEq

namespace LexicalError

def placeText (line column : Nat) : String :=
  " at line " ++ toString line ++ ", column " ++ toString column

def message : LexicalError → String
  | .unexpected c line column =>
    let shown := match c with
      | some c => c.toString
      | none => "None"
    "Unexpected character '" ++ shown ++ "'" ++ placeText line column
  | .strayDot line column => "Unexpected character after '.'" ++ placeText line column
  | .secondPoint line column => "Invalid number format" ++ placeText line column
  | .numeral error => error.message

end LexicalError

/-- The words of the language that are no identifiers. -/
def keywords : List (String × Kind) :=
  ([("int", .int), ("float", .float), ("bool", .bool), ("var", .var), ("if", .ifWord),
    ("elif", .elifWord), ("else", .elseWord), ("for", .forWord), ("while", .whileWord),
    ("true", .boolValue), ("false", .boolValue), ("cursor", .cursor),
    ("create_cursor", .createCursor), ("color", .color), ("thickness", .thickness),
    ("move", .move), ("rotate", .rotate), ("visible", .visible), ("draw_line", .drawLine),
    ("draw_rectangle", .drawRectangle), ("draw_circle", .drawCircle),
    ("draw_triangle", .drawTriangle), ("draw_ellipse", .drawEllipse), ("rgb", .rgb)] :
      List (String × Kind)) ++
  Hue.all.map fun h => (h.name, .hue h)

def Kind.ofWord (word : String) : Kind :=
  (keywords.lookup word).getD .identifier

/-- The operators that end in an equals sign, by their first character. -/
def Kind.ofSignEqual? : Char → Option Kind
  | '+' => some .plusEqual
  | '-' => some .minusEqual
  | '*' => some .timesEqual
  | '/' => some .slashEqual
  | '=' => some .equal
  | '!' => some .notEqual
  | '<' => some .lessEqual
  | '>' => some .greaterEqual
  | _ => none

def Kind.ofSign? : Char → Option Kind
  | '+' => some .plus
  | '-' => some .minus
  | '*' => some .times
  | '/' => some .slash
  | '%' => some .modulo
  | '<' => some .less
  | '>' => some .greater
  | '=' => some .assign
  | _ => none

def Kind.ofDelimiter? : Char → Option Kind
  | ';' => some .semicolon
  | ',' => some .comma
  | '(' => some .leftParen
  | ')' => some .rightParen
  | '\x7b' => some .leftBrace
  | '\x7d' => some .rightBrace
  | _ => none

/-- The blanks of the language. -/
def isGap (c : Char) : Bool :=
  c == ' ' || c == '\t' || c == '\n' || c == '\r'

def isWordStart (c : Char) : Bool :=
  Text.isLetter c || c == '_'

def isWordChar (c : Char) : Bool :=
  Text.isLetter c || Text.isDigit c || Text.isNumeral c || c == '_'

def isSignStart (c : Char) : Bool :=
  c == '+' || c == '-' || c == '*' || c == '/' || c == '<' || c == '>' || c == '=' || c == '!'

namespace Reader

def skipGaps (r : Reader) : Reader :=
  r.dropWhile isGap

/-- Pass the body of a block comment and its closing mark, if there is one. -/
def skipBlock (r : Reader) : Reader :=
  match _h : r.current with
  | none => r
  | some c =>
    if c == '*' && r.peek == some '/' then r.advance.advance
    else r.advance.skipBlock
termination_by r.remaining
decreasing_by
  have := remaining_advance _h
  omega

/-- Pass a comment, if one begins here: a line comment up to its line feed, a block comment with
its closing mark. -/
def skipComment (r : Reader) : Reader :=
  if r.current == some '/' && r.peek == some '/' then r.dropWhile (· != '\n')
  else if r.current == some '/' && r.peek == some '*' then r.advance.advance.skipBlock
  else r

def takeWord (r : Reader) : List Char × Reader :=
  r.takeWhile isWordChar

/-- The sign at the reader, one character or two when an equals sign follows, with its kind if it
is an operator. -/
def takeSign (r : Reader) : (Option Kind × List Char) × Reader :=
  let next := r.advance
  match r.current with
  | none => ((none, []), next)
  | some c =>
    if next.current == some '=' then ((Kind.ofSignEqual? c, [c, '=']), next.advance)
    else ((Kind.ofSign? c, [c]), next)

end Reader

/-- An action on a reader that may fail; after a failure the reader stays where it had got to. -/
abbrev Scan := EStateM LexicalError Reader

namespace Scan

/-- A number: digits with at most one point. -/
def number : Scan Value := fun r =>
  let whole := r.takeWhile Text.isDigit
  if whole.2.current == some '.' then
    let fraction := whole.2.advance.takeWhile Text.isDigit
    let after := fraction.2
    if after.current == some '.' then .error (.secondPoint after.line after.column) after
    else
      match Numeral.decimal (whole.1 ++ '.' :: fraction.1) with
      | .ok x => .ok (.double x) after
      | .error e => .error (.numeral e) after
  else
    match Numeral.natural whole.1 with
    | .ok n => .ok (.int n) whole.2
    | .error e => .error (.numeral e) whole.2

def word : Scan Token := fun r =>
  let run := r.takeWord
  let text := String.ofList run.1
  .ok ⟨Kind.ofWord text, .text text, r.line, r.column⟩ run.2

/-- Points and words that follow a word without a gap. -/
def dottedWords (r : Reader) : EStateM.Result LexicalError Reader (List Token) :=
  if _hdot : r.current = some '.' then
    let dot : Token := ⟨.dot, .text ".", r.line, r.column⟩
    let next := r.advance
    match next.current with
    | none => .error (.strayDot next.line next.column) next
    | some c =>
      if isWordStart c then
        let run := next.takeWord
        let text := String.ofList run.1
        match dottedWords run.2 with
        | .ok rest after =>
          .ok (dot :: ⟨Kind.ofWord text, .text text, next.line, next.column⟩ :: rest) after
        | .error e after => .error e after
      else .error (.strayDot next.line next.column) next
  else .ok [] r
termination_by r.remaining
decreasing_by
  have h1 := Reader.remaining_advance _hdot
  have h2 := Reader.remaining_takeWhile_le isWordChar r.advance
  simp only [Reader.takeWord]
  omega

/-- A delimiter, or the error for a character that begins nothing. -/
def delimiter : Scan (List Token) := fun r =>
  match r.current with
  | none => .error (.unexpected none r.line r.column) r
  | some c =>
    match Kind.ofDelimiter? c with
    | some kind => .ok [⟨kind, .text c.toString, r.line, r.column⟩] r.advance
    | none => .error (.unexpected (some c) r.line r.column) r

/-- What begins with the character `c` on which the reader stands: a gap or a comment, which give
no token, or a dotted name, a number, an operator or a delimiter. -/
def item (c : Char) : Scan (List Token) := fun r =>
  if isGap c then .ok [] r.skipGaps
  else if c == '/' && (r.peek == some '/' || r.peek == some '*') then .ok [] r.skipComment
  else if isWordStart c then
    match word r with
    | .error e after => .error e after
    | .ok first after =>
      match dottedWords after with
      | .error e last => .error e last
      | .ok rest last => .ok (first :: rest) last
  else if Text.isDigit c then
    match number r with
    | .error e after => .error e after
    | .ok value after => .ok [⟨.number, value, r.line, r.column⟩] after
  else if isSignStart c then
    let sign := r.takeSign
    match sign.1 with
    | (some kind, text) => .ok [⟨kind, .text (String.ofList text), r.line, r.column⟩] sign.2
    | (none, _) => delimiter sign.2
  else delimiter r

/-! ## Every item brings the reader forward -/

theorem remaining_skipBlock_le (r : Reader) : r.skipBlock.remaining ≤ r.remaining := by
  fun_induction Reader.skipBlock r with
  | case1 => simp
  | case2 r c h hc =>
    have h1 := Reader.remaining_advance_le r
    have h2 := Reader.remaining_advance_le r.advance
    omega
  | case3 r c h hc ih =>
    have := Reader.remaining_advance h
    omega

theorem remaining_skipComment_lt {r : Reader} (h : r.current = some '/')
    (hp : (r.peek == some '/' || r.peek == some '*') = true) :
    r.skipComment.remaining < r.remaining := by
  have h1 := Reader.remaining_advance h
  have h2 := Reader.remaining_advance_le r.advance
  have h3 := remaining_skipBlock_le r.advance.advance
  have h4 : (r.dropWhile (· != '\n')).remaining < r.remaining :=
    Reader.remaining_takeWhile_lt h (by decide)
  unfold Reader.skipComment
  simp only [h, beq_self_eq_true, Bool.true_and]
  split
  · exact h4
  · split
    · omega
    · simp_all

theorem remaining_dottedWords_le (r : Reader) (ts : List Token) (after : Reader)
    (h : dottedWords r = .ok ts after) : after.remaining ≤ r.remaining := by
  fun_induction dottedWords r generalizing ts after with
  | case1 | case3 | case4 => simp_all
  | case2 r hdot dot next c hc hw run text rest last hrest ih =>
    have h1 := Reader.remaining_advance hdot
    have h2 := Reader.remaining_takeWhile_le isWordChar r.advance
    have h3 := ih _ _ hrest
    simp only [EStateM.Result.ok.injEq] at h
    obtain ⟨-, rfl⟩ := h
    simp only [run, Reader.takeWord, next] at h3
    omega
  | case5 =>
    simp only [EStateM.Result.ok.injEq] at h
    obtain ⟨-, rfl⟩ := h
    exact Nat.le_refl _

theorem remaining_number_lt {r : Reader} {c : Char} (hc : r.current = some c)
    (hd : Text.isDigit c = true) {v : Value} {after : Reader} (h : number r = .ok v after) :
    after.remaining < r.remaining := by
  have h1 := Reader.remaining_takeWhile_lt hc hd
  have h2 := Reader.remaining_advance_le (r.takeWhile Text.isDigit).2
  have h3 := Reader.remaining_takeWhile_le Text.isDigit (r.takeWhile Text.isDigit).2.advance
  unfold number at h
  simp only at h
  split at h
  · split at h
    · simp at h
    · split at h
      · simp only [EStateM.Result.ok.injEq] at h
        obtain ⟨-, rfl⟩ := h
        omega
      · simp at h
  · split at h
    · simp only [EStateM.Result.ok.injEq] at h
      obtain ⟨-, rfl⟩ := h
      exact h1
    · simp at h

theorem remaining_delimiter_lt {r : Reader} {ts : List Token} {after : Reader}
    (h : delimiter r = .ok ts after) : after.remaining < r.remaining := by
  unfold delimiter at h
  cases hc : r.current with
  | none => simp [hc] at h
  | some c =>
    simp only [hc] at h
    split at h
    · simp only [EStateM.Result.ok.injEq] at h
      obtain ⟨-, rfl⟩ := h
      have := Reader.remaining_advance hc
      omega
    · simp at h

theorem remaining_takeSign_lt {r : Reader} {c : Char} (hc : r.current = some c) :
    r.takeSign.2.remaining < r.remaining := by
  have h1 := Reader.remaining_advance hc
  have h2 := Reader.remaining_advance_le r.advance
  unfold Reader.takeSign
  simp only [hc]
  split
  · simp only
    omega
  · simp only
    omega

/-- Reading an item passes at least one character. -/
theorem remaining_item_lt {r : Reader} {c : Char} (hc : r.current = some c) {ts : List Token}
    {after : Reader} (h : item c r = .ok ts after) : after.remaining < r.remaining := by
  unfold item at h
  split at h
  case isTrue hg =>
    simp only [EStateM.Result.ok.injEq] at h
    obtain ⟨-, rfl⟩ := h
    exact Reader.remaining_takeWhile_lt hc hg
  split at h
  case isTrue hs =>
    simp only [Bool.and_eq_true, beq_iff_eq] at hs
    obtain ⟨rfl, hp⟩ := hs
    simp only [EStateM.Result.ok.injEq] at h
    obtain ⟨-, rfl⟩ := h
    exact remaining_skipComment_lt hc hp
  split at h
  case isTrue hw =>
    have hchar : isWordChar c = true := by
      simp only [isWordStart, isWordChar, Bool.or_eq_true] at hw ⊢
      rcases hw with hw | hw <;> simp [hw]
    have h1 := Reader.remaining_takeWhile_lt hc hchar
    unfold word at h
    simp only at h
    cases hd : dottedWords r.takeWord.2 with
    | error e last => simp [hd] at h
    | ok rest last =>
      simp only [hd, EStateM.Result.ok.injEq] at h
      obtain ⟨-, rfl⟩ := h
      have h2 := remaining_dottedWords_le _ _ _ hd
      simp only [Reader.takeWord] at h2
      omega
  split at h
  case isTrue hd =>
    cases hn : number r with
    | error e after => simp [hn] at h
    | ok v last =>
      simp only [hn, EStateM.Result.ok.injEq] at h
      obtain ⟨-, rfl⟩ := h
      exact remaining_number_lt hc hd hn
  split at h
  · have h1 := remaining_takeSign_lt hc
    simp only at h
    split at h
    · simp only [EStateM.Result.ok.injEq] at h
      obtain ⟨-, rfl⟩ := h
      exact h1
    · have h2 := remaining_delimiter_lt h
      omega
  · exact remaining_delimiter_lt h

/-- The tokens from the reader to the end of the text, where the closing token takes its place
from the last character read. -/
def tokens (r : Reader) : EStateM.Result LexicalError Reader (List Token) :=
  match _hc : r.current with
  | none => .ok [⟨.endOfInput, .absent, r.line, r.column⟩] r
  | some c =>
    match _hi : item c r with
    | .error e after => .error e after
    | .ok ts after =>
      match tokens after with
      | .error e last => .error e last
      | .ok more last => .ok (ts ++ more) last
termination_by r.remaining
decreasing_by exact remaining_item_lt _hc _hi

end Scan

def Token.ofText (source : String) : Except LexicalError (List Token) :=
  match Scan.tokens (Reader.ofText source.toList) with
  | .ok ts _ => .ok ts
  | .error e _ => .error e

end DrawPlus
