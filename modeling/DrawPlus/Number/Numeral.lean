import DrawPlus.Number.Double
import DrawPlus.Text.Basic
import DrawPlus.Text.Digit

/-!
# Reading numerals

Integers and doubles are read from decimal digits of any script. An integer numeral may have at
most `maxIntegerDigits` digits. The three ways in which reading fails are the constructors of
`NumeralError`.
-/

namespace DrawPlus

/-- The greatest number of digits an integer numeral may have. -/
def maxIntegerDigits : Nat := 4300

inductive NumeralError where
  /-- the text is not an integer numeral -/
  | notInteger (text : List Char)
  /-- the text is not a decimal numeral -/
  | notDecimal (text : List Char)
  /-- the integer numeral has too many digits -/
  | tooLong (digits : Nat)
deriving DecidableEq

namespace NumeralError

/-- The wording of the error. A bad integer numeral is quoted up to 200 characters in all. -/
def message : NumeralError → String
  | .notInteger text =>
    "invalid literal for int() with base 10: " ++
      String.ofList (("'" ++ String.ofList text ++ "'").toList.take 200)
  | .notDecimal text => "could not convert string to float: '" ++ String.ofList text ++ "'"
  | .tooLong digits =>
    "Exceeds the limit (" ++ toString maxIntegerDigits ++
      " digits) for integer string conversion: value has " ++ toString digits ++
      " digits; use sys.set_int_max_str_digits() to increase the limit"

end NumeralError

namespace Numeral

/-- The integer that a list of digit values denotes, most significant first. -/
def ofDigits (digits : List Nat) : Nat :=
  digits.foldl (fun n d => 10 * n + d) 0

/-- The values of the decimal digits at the start of `text`. -/
def leadingDigits : List Char → List Nat
  | [] => []
  | c :: rest =>
    match Text.decimalValue? c with
    | some d => d :: leadingDigits rest
    | none => []

/-- Read a nonempty run of decimal digits. A run that is too long is refused as such even when
something else follows it. -/
def natural (text : List Char) : Except NumeralError Nat :=
  let digits := leadingDigits text
  if maxIntegerDigits < digits.length then .error (.tooLong digits.length)
  else if digits.isEmpty || digits.length < text.length then .error (.notInteger text)
  else .ok (ofDigits digits)

/-- Read a decimal numeral without sign or exponent: digits with one point before, between or
after them. -/
def decimal (text : List Char) : Except NumeralError Double :=
  let whole := leadingDigits text
  match text.drop whole.length with
  | '.' :: rest =>
    let fraction := leadingDigits rest
    if fraction.length < rest.length || (whole.isEmpty && fraction.isEmpty) then
      .error (.notDecimal text)
    else .ok (Double.ofDecimal false (ofDigits (whole ++ fraction)) (-(fraction.length : Int)))
  | _ => .error (.notDecimal text)

/-- Digits of an integer in which single underscores may stand between two digits. -/
def separatedDigits : List Char → Option (List Nat)
  | [] => none
  | [c] => (Text.decimalValue? c).map ([·])
  | c :: '_' :: rest => do
    let d ← Text.decimalValue? c
    return d :: (← separatedDigits rest)
  | c :: rest => do
    let d ← Text.decimalValue? c
    return d :: (← separatedDigits rest)

/-- A blank that may surround a numeral. The four separator controls may not. -/
def isMargin (c : Char) : Bool :=
  Text.isBlank c && !(0x1C ≤ c.toNat && c.toNat ≤ 0x1F)

/-- A text without the margins at its two ends. -/
def withoutMargins (text : List Char) : List Char :=
  ((text.dropWhile isMargin).reverse.dropWhile isMargin).reverse

/-- Read an integer that blanks may surround, with an optional sign and single underscores
between digits. -/
def integer? (text : List Char) : Option Int :=
  let read (body : List Char) : Option Nat := do
    let digits ← separatedDigits body
    if maxIntegerDigits < digits.length then none else some (ofDigits digits)
  match withoutMargins text with
  | '-' :: body => (read body).map fun n => -(n : Int)
  | '+' :: body => (read body).map fun n => (n : Int)
  | body => (read body).map fun n => (n : Int)

end Numeral

namespace Double

/-- The exponent part of a written double: nothing, or a mark, a sign and figures. -/
def readExponent? : List Char → Option Int
  | [] => some 0
  | 'e' :: '+' :: figures | 'e' :: figures@(_ :: _) =>
    match figures with
    | '-' :: rest => (Numeral.natural rest).toOption.map fun n => -(n : Int)
    | _ => (Numeral.natural figures).toOption.map fun n => (n : Int)
  | _ => none

/-- Read back what `Double.text` writes, the sign apart. -/
def readMagnitude? (negative : Bool) (text : List Char) : Option Double :=
  if text = ['i', 'n', 'f'] then some (infinity negative)
  else if text = ['n', 'a', 'n'] then some undefined
  else do
    let whole := Numeral.leadingDigits text
    let (fraction, rest) :=
      match text.drop whole.length with
      | '.' :: tail =>
        let fraction := Numeral.leadingDigits tail
        (fraction, tail.drop fraction.length)
      | tail => ([], tail)
    if whole.isEmpty && fraction.isEmpty then none
    let exponent ← readExponent? rest
    return ofDecimal negative (Numeral.ofDigits (whole ++ fraction)) (exponent - fraction.length)

/-- Read back what `Double.text` writes. -/
def read? (text : String) : Option Double :=
  match text.toList with
  | '-' :: rest => readMagnitude? true rest
  | rest => readMagnitude? false rest

end Double

end DrawPlus
