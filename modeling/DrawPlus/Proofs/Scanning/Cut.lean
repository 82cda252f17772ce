import DrawPlus.Proofs.Lexemes
import DrawPlus.Proofs.Scanning.Places

/-!
# Cutting a text into lexemes and gaps

A text that can be read is cut into pieces, one after the other and with nothing between them: the
lexemes of its tokens, and gaps, which are blanks and comments. One character more can be passed: an
exclamation mark right before a delimiter, which belongs to no token and is no gap.

`Cut before ps after` says that the pieces `ps` stand between the texts `before` and `after`, each
where its neighbours let it stand.
-/

namespace DrawPlus

variable {c : Char} {before w : List Char}

/-! ## Lexemes and gaps -/

def isNumberChar (c : Char) : Bool := Text.isDigit c || c == '.'

/-- What digits and points denote: an integer, or with a point a double. -/
inductive Value.Denoted : List Char → Value → Prop
  | integer {w : List Char} {n : ℕ} : Numeral.natural w = .ok n → Denoted w (.int n)
  | decimal {w : List Char} {x : Double} : Numeral.decimal w = .ok x → Denoted w (.double x)

/-- The word is the lexeme of the token: its value, or what denotes its value if it is a number. -/
inductive Token.Spelled : Token → List Char → Prop
  | text {t : Token} {w : List Char} : t.kind ≠ .number → t.value = .text (String.ofList w) →
      Spelled t w
  | number {t : Token} {w : List Char} : t.kind = .number → (∀ c ∈ w, isNumberChar c = true) →
      Value.Denoted w t.value → Spelled t w

/-- A blank or a comment, with the text that follows it: a line comment runs up to a line feed, a
block comment up to its first closing mark, and either may run to the end of the text. -/
inductive Gap : List Char → List Char → Prop
  | blank {c : Char} {after : List Char} : c ∈ [' ', '\t', '\r', '\n'] → Gap [c] after
  | line {cs after : List Char} : '\n' ∉ cs → after = [] ∨ after.head? = some '\n' →
      Gap ('/' :: '/' :: cs) after
  | block {cs after : List Char} : ¬['*', '/'] <:+: cs →
      Gap ('/' :: '*' :: (cs ++ ['*', '/'])) after
  | unclosed {cs : List Char} : ¬['*', '/'] <:+: cs → Gap ('/' :: '*' :: cs) []

inductive Piece where
  | lexeme (t : Token) (w : List Char)
  | gap (w : List Char)
  /-- an exclamation mark that is passed over -/
  | mark

namespace Piece

def text : Piece → List Char
  | .lexeme _ w => w
  | .gap w => w
  | .mark => ['!']

def lexeme? : Piece → Option (Token × List Char)
  | .lexeme t w => some (t, w)
  | .gap _ | .mark => none

/-- The piece is what it is called, given the text that follows it. -/
def Fits (after : List Char) : Piece → Prop
  | .lexeme t w => t.Spelled w
  | .gap w => Gap w after
  | .mark => ∃ d, after.head? = some d ∧ (Kind.ofDelimiter? d).isSome = true

/-- A lexeme does not go over a line end, its token carries its place, and a number is not part of a
longer run of digits and points. -/
def Placed (before after : List Char) : Piece → Prop
  | .lexeme t w => w ≠ [] ∧ '\n' ∉ w ∧ t.line = Text.endLine before ∧
      t.column = Text.endColumn before + 1 ∧
      (t.kind = .number → (∀ c, before.getLast? = some c → isNumberChar c = false) ∧
        ∀ c, after.head? = some c → isNumberChar c = false)
  | .gap _ | .mark => True

def textOf (ps : List Piece) : List Char := ps.flatMap text

/-- The lexemes among pieces, with their tokens. -/
def lexemesOf (ps : List Piece) : List (Token × List Char) := ps.filterMap lexeme?

@[simp] theorem textOf_nil : textOf [] = [] := rfl

@[simp] theorem textOf_cons (p : Piece) (ps : List Piece) :
    textOf (p :: ps) = p.text ++ textOf ps :=
  rfl

@[simp] theorem textOf_append (ps qs : List Piece) :
    textOf (ps ++ qs) = textOf ps ++ textOf qs := by
  simp [textOf]

@[simp] theorem lexemesOf_nil : lexemesOf [] = [] := rfl

@[simp] theorem lexemesOf_lexeme (t : Token) (w : List Char) (ps : List Piece) :
    lexemesOf (.lexeme t w :: ps) = (t, w) :: lexemesOf ps := rfl

@[simp] theorem lexemesOf_gap (w : List Char) (ps : List Piece) :
    lexemesOf (.gap w :: ps) = lexemesOf ps := rfl

@[simp] theorem lexemesOf_mark (ps : List Piece) : lexemesOf (.mark :: ps) = lexemesOf ps := rfl

@[simp] theorem lexemesOf_append (ps qs : List Piece) :
    lexemesOf (ps ++ qs) = lexemesOf ps ++ lexemesOf qs := by
  simp [lexemesOf]

/-- The pieces stand one after the other between two texts. -/
def Cut : List Char → List Piece → List Char → Prop
  | _, [], _ => True
  | before, p :: ps, after => p.Fits (textOf ps ++ after) ∧ p.Placed before (textOf ps ++ after) ∧
      Cut (before ++ p.text) ps after

theorem cut_append {after : List Char} {ps qs : List Piece} : Cut before (ps ++ qs) after ↔
      Cut before ps (textOf qs ++ after) ∧ Cut (before ++ textOf ps) qs after := by
  induction ps generalizing before with
  | nil => simp [Cut]
  | cons p ps ih => simp [Cut, ih, and_assoc]

end Piece

namespace Scan

open Piece Reader

/-- No run of digits and points goes from the one text over into the other. -/
def Apart (before after : List Char) : Prop :=
  ∀ c d, before.getLast? = some c → after.head? = some d → isNumberChar c = true →
    isNumberChar d = false

/-- The text `w` between two others is made of pieces, which have the tokens `ts`. -/
def Passed (before w after : List Char) (ts : List Token) : Prop :=
  ∃ ps, textOf ps = w ∧ (lexemesOf ps).map Prod.fst = ts ∧ Cut before ps after

theorem Passed.append {w' after : List Char} {ts us : List Token}
    (h : Passed before w (w' ++ after) ts) (h' : Passed (before ++ w) w' after us) :
    Passed before (w ++ w') after (ts ++ us) := by
  obtain ⟨ps, rfl, rfl, hps⟩ := h
  obtain ⟨qs, rfl, rfl, hqs⟩ := h'
  exact ⟨ps ++ qs, by simp, by simp, cut_append.mpr ⟨hps, hqs⟩⟩

theorem passed_lexeme {after : List Char} {t : Token} (hw : t.Spelled w)
    (hp : (Piece.lexeme t w).Placed before after) : Passed before w after [t] :=
  ⟨[.lexeme t w], by simp [Piece.text], rfl, hw, by simpa using hp, trivial⟩

theorem apart_of_run (hw : w ≠ []) (h : ∀ c ∈ w, isNumberChar c = false) (after : List Char) :
    Apart (before ++ w) after := by
  intro c d hc hd hn
  rw [List.getLast?_append_of_ne_nil before hw] at hc
  have hfalse := h c (List.mem_of_getLast? hc)
  rw [hn] at hfalse
  cases hfalse

/-- The characters that are no part of a word or a number: blanks, and those of operators and
delimiters. -/
def fences : List Char :=
  [' ', '\t', '\r', '\n', '+', '-', '*', '/', '<', '>', '=', '!', ';', ',', '(', ')',
    '\x7b', '\x7d']

theorem isNumberChar_of_mem_fences (h : c ∈ fences) : isNumberChar c = false := by
  have hall : ∀ d ∈ fences, d.toNat < 128 ∧ d.isDigit = false ∧ (d == '.') = false := by
    simp [fences]
  obtain ⟨hlt, hdigit, hpoint⟩ := hall c h
  rw [isNumberChar, Text.isDigit_of_ascii hlt, hdigit, hpoint, Bool.or_self]

theorem apart_of_fences (hw : w ≠ []) (h : ∀ c ∈ w, c ∈ fences) (after : List Char) :
    Apart (before ++ w) after :=
  apart_of_run hw (fun c hc => isNumberChar_of_mem_fences (h c hc)) after

theorem apart_nil (before : List Char) : Apart before [] := by
  intro c d hc hd
  cases hd

theorem apart_of_head {after : List Char} (h : ∀ d, after.head? = some d → isNumberChar d = false) :
    Apart before after := by
  intro c d hc hd hn
  exact h d hd

/-! ## Gaps -/

theorem isGap_iff : isGap c = true ↔ c ∈ [' ', '\t', '\r', '\n'] := by
  simp [isGap]
  tauto

theorem mem_fences_of_isGap (h : isGap c = true) : c ∈ fences := by
  simp only [isGap_iff, List.mem_cons, List.not_mem_nil, or_false] at h
  rcases h with rfl | rfl | rfl | rfl <;> simp [fences]

theorem head?_dropWhile {p : Char → Bool} {cs : List Char} {d : Char}
    (h : (cs.dropWhile p).head? = some d) : p d = false := by
  have hnot := List.head?_dropWhile_not p cs
  rwa [h] at hnot

theorem not_infix_cons {cs : List Char} (h : ¬['*', '/'] <:+: cs)
    (hc : ¬(c = '*' ∧ cs.head? = some '/')) : ¬['*', '/'] <:+: c :: cs := by
  rw [List.infix_cons_iff, not_or]
  refine ⟨fun hprefix => hc ?_, h⟩
  rw [List.cons_prefix_cons] at hprefix
  obtain ⟨hstar, tail, rfl⟩ := hprefix
  exact ⟨hstar.symm, rfl⟩

/-- In a text without the closing mark of a comment none begins, also if a star is added. -/
theorem open_of_not_infix_cons {cs : List Char} (h : ¬['*', '/'] <:+: c :: cs) :
    ¬['*', '/'] <:+: cs ∧ ¬(c = '*' ∧ cs.head? = some '/') ∧
      ∀ after, ¬(c = '*' ∧ (cs ++ '*' :: after).head? = some '/') := by
  have hopen : ¬(c = '*' ∧ cs.head? = some '/') := by
    rintro ⟨rfl, hhead⟩
    obtain ⟨ds, rfl⟩ := List.head?_eq_some_iff.mp hhead
    exact h (List.prefix_append ['*', '/'] ds).isInfix
  refine ⟨fun hc => h (hc.trans (List.suffix_cons c cs).isInfix), hopen, fun after => ?_⟩
  rintro ⟨rfl, hhead⟩
  cases cs with
  | nil => simp at hhead
  | cons d ds => exact hopen ⟨rfl, hhead⟩

theorem skipBlock_step {rest : List Char} (h : ¬(c = '*' ∧ rest.head? = some '/'))
    (before : List Char) :
    (between before (c :: rest)).skipBlock = (between (before ++ [c]) rest).skipBlock := by
  rw [skipBlock]
  simp [h]

/-- Passing a block comment goes to its first closing mark or, without one, to the end. -/
theorem skipBlock_between (before rest : List Char) :
    (∃ body after, rest = body ++ '*' :: '/' :: after ∧ ¬['*', '/'] <:+: body ∧
      (between before rest).skipBlock = between (before ++ body ++ ['*', '/']) after) ∨
    (¬['*', '/'] <:+: rest ∧ (between before rest).skipBlock = between (before ++ rest) []) := by
  induction rest generalizing before with
  | nil =>
    right
    unfold skipBlock
    simp
  | cons c rest ih =>
    by_cases hclose : c = '*' ∧ rest.head? = some '/'
    · left
      obtain ⟨rfl, hrest⟩ := hclose
      obtain ⟨after, rfl⟩ := List.head?_eq_some_iff.mp hrest
      refine ⟨[], after, rfl, by simp, ?_⟩
      unfold skipBlock
      simp
    · rw [skipBlock_step hclose]
      obtain ⟨body, after, rfl, hbody, heq⟩ | ⟨hrest, heq⟩ := ih (before ++ [c])
      · left
        refine ⟨c :: body, after, rfl, not_infix_cons hbody ?_, by simpa using heq⟩
        rintro ⟨rfl, hhead⟩
        cases body with
        | nil => simp at hhead
        | cons d body => exact hclose ⟨rfl, hhead⟩
      · right
        exact ⟨not_infix_cons hrest hclose, by simpa using heq⟩

/-! ## Words -/

theorem ofWord_ne {k : Kind} (hk : k ≠ .identifier) (hall : ∀ e ∈ keywords, e.2 ≠ k) (w : String) :
    Kind.ofWord w ≠ k := by
  unfold Kind.ofWord
  cases hw : keywords.lookup w with
  | none => exact Ne.symm hk
  | some kind =>
    obtain ⟨before, after, heq, -⟩ := List.lookup_eq_some_iff.mp hw
    exact hall (w, kind) (by simp [heq])

theorem ofWord_ne_number (w : String) : Kind.ofWord w ≠ .number :=
  ofWord_ne (by decide) (by decide) w

theorem isNumberChar_of_word {d : Char} (hword : isWordChar d = false) (hpoint : d ≠ '.') :
    isNumberChar d = false := by
  simp only [isWordChar, Bool.or_eq_false_iff] at hword
  simp [isNumberChar, hword, hpoint]

/-! ## Numbers, operators and delimiters -/

theorem isNumberChar_of_isDigit (h : Text.isDigit c = true) : isNumberChar c = true := by
  simp [isNumberChar, h]

/-- Where a run of digits stops and no point follows, there is no further part of a number. -/
theorem number_stops (cs : List Char) (h : (cs.dropWhile Text.isDigit).head? ≠ some '.') :
    ∀ d, (cs.dropWhile Text.isDigit).head? = some d → isNumberChar d = false := by
  intro d hd
  have hpoint : d ≠ '.' := by
    rintro rfl
    exact h hd
  simp [isNumberChar, head?_dropWhile hd, hpoint]

theorem ne_number_of_sign? {k : Kind} {w : String} (h : k.sign? = some w) : k ≠ .number := by
  rintro rfl
  cases h

theorem mem_fences_of_ofDelimiter? {k : Kind} (h : Kind.ofDelimiter? c = some k) :
    c ∈ fences ∧ c ≠ '\n' := by
  unfold Kind.ofDelimiter? at h
  split at h <;> cases h <;> simp [fences]

theorem isSignStart_iff : isSignStart c = true ↔ c ∈ ['+', '-', '*', '/', '<', '>', '=', '!'] := by
  simp [isSignStart, or_assoc]

/-- Every character that begins an operator is one by itself, the exclamation mark apart, and is
one with an equals sign after it. -/
theorem signs_spec : ∀ c ∈ ['+', '-', '*', '/', '<', '>', '=', '!'], c ∈ fences ∧ c ≠ '\n' ∧
    Kind.ofSignEqual? c ≠ none ∧ (Kind.ofSign? c = none → c = '!') := by
  simp [fences, Kind.ofSignEqual?, Kind.ofSign?]

end Scan

end DrawPlus
