/-!
# Blanks and cutting texts

A class of characters is given as a list of closed ranges of code points, a long one by the lengths
of the gaps and the ranges in turn (`rangesFrom`). Blanks are the characters that trimming and
splitting into fields take away: the ASCII controls from tab to carriage return and from file
separator on, the space, the next-line control, and the spaces of other scripts. The language itself
has a narrower idea of blank, given with its tokens.

`pieces` cuts a text at every occurrence of a character, `fields` at runs of blanks, and `cut?` at
the first occurrence of a phrase.
-/

namespace DrawPlus.Text

/-- The closed ranges that come of skipping and taking so many code points in turn. -/
def rangesFrom (start : Nat) : List Nat → List (Nat × Nat)
  | skipped :: taken :: rest =>
    let first := start + skipped
    (first, first + taken - 1) :: rangesFrom (first + taken) rest
  | _ => []

/-- The range of `ranges` that holds `n`. -/
def rangeOf? (ranges : List (Nat × Nat)) (n : Nat) : Option (Nat × Nat) :=
  ranges.find? fun r => r.1 ≤ n && n ≤ r.2

/-- `n` lies in one of the closed ranges. -/
def inRanges (ranges : List (Nat × Nat)) (n : Nat) : Bool :=
  ranges.any fun r => r.1 ≤ n && n ≤ r.2

/-! ## Blanks -/

def blankRanges : List (Nat × Nat) :=
  [(0x9, 0xD), (0x1C, 0x20), (0x85, 0x85), (0xA0, 0xA0), (0x1680, 0x1680), (0x2000, 0x200A),
    (0x2028, 0x2029), (0x202F, 0x202F), (0x205F, 0x205F), (0x3000, 0x3000)]

def isBlank (c : Char) : Bool :=
  inRanges blankRanges c.toNat

def trimLeft (text : List Char) : List Char :=
  text.dropWhile isBlank

def trimRight (text : List Char) : List Char :=
  (text.reverse.dropWhile isBlank).reverse

def trim (text : List Char) : List Char :=
  trimRight (trimLeft text)

def isAllBlank (text : List Char) : Bool :=
  text.all isBlank

/-- The first field of `text` and what follows it, both after the leading blanks. -/
def cutField (text : List Char) : List Char × List Char :=
  (trimLeft text).span fun c => !isBlank c

/-! ## Cutting -/

/-- The pieces of a text between the occurrences of a character; always at least one. -/
def pieces (mark : Char) : List Char → List (List Char)
  | [] => [[]]
  | c :: rest =>
    if c = mark then [] :: pieces mark rest
    else
      match pieces mark rest with
      | [] => [[c]]
      | first :: others => (c :: first) :: others

def lines (text : List Char) : List (List Char) :=
  pieces '\n' text

/-- What precedes and what follows the first occurrence of a phrase. -/
def cut? (phrase : List Char) : List Char → Option (List Char × List Char)
  | [] => if phrase.isEmpty then some ([], []) else none
  | c :: rest =>
    if phrase.isPrefixOf (c :: rest) then some ([], (c :: rest).drop phrase.length)
    else (cut? phrase rest).map fun (before, after) => (c :: before, after)

def hasPhrase (phrase text : List Char) : Bool :=
  (cut? phrase text).isSome

/-- What stands between the first occurrence of a phrase and the next one, or the end. -/
def afterPhrase? (phrase text : List Char) : Option (List Char) :=
  (cut? phrase text).map fun (_, after) =>
    match cut? phrase after with
    | some (between, _) => between
    | none => after

/-- The fields of a text, collected while reading; `field` is the one begun. -/
def fieldsFrom (field : List Char) : List Char → List (List Char)
  | [] => if field.isEmpty then [] else [field]
  | c :: rest =>
    if isBlank c then
      if field.isEmpty then fieldsFrom [] rest else field :: fieldsFrom [] rest
    else fieldsFrom (field ++ [c]) rest

def fields (text : List Char) : List (List Char) :=
  fieldsFrom [] text

/-- The first field of a text and, if anything follows it, the rest after the blanks. A blank text
has no field. -/
def firstField? (text : List Char) : Option (List Char × Option (List Char)) :=
  let (field, after) := cutField text
  if field.isEmpty then none
  else
    let rest := trimLeft after
    some (field, if rest.isEmpty then none else some rest)

end DrawPlus.Text
