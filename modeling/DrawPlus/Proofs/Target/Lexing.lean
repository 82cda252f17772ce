import DrawPlus.Proofs.Target.Emission

/-!
# The lexemes of generated text

`lex` cuts a text of the generated language into lexemes, each as long as possible. Blanks and ends
of lines lie between lexemes, and a comment goes from two slashes to the end of the line.

The layout of a tree is cut into the lexemes of the tree (`lex_lines` and `lex_programLines`). What
has to be shown is that no lexeme runs on into the next one: after a word or a number there is
always a character that cannot belong to it.
-/

namespace DrawPlus.Target

variable {c : Char} {w : String} {rest more : List Char}

/-! ## Cutting a text -/

def isWordText : List Char → Bool
  | [] => false
  | c :: rest => isWordStart c && rest.all isWordChar

theorem isWord_iff : IsWord w ↔ isWordText w.toList = true := by
  rw [IsWord]
  cases w.toList with
  | nil => simp [isWordText]
  | cons c rest => simp [isWordText]

instance : DecidablePred IsWord := fun _ => decidable_of_iff _ isWord_iff.symm

def longSigns : List (List Char) :=
  [['<', '='], ['>', '='], ['=', '='], ['!', '='], ['-', '>']]

/-- The character goes on with the lexeme. A sign goes on with a number after the letter of an
exponent. -/
def joins : List Char → Char → Bool
  | [], _ => false
  | first :: rest, c =>
    if isWordStart first then isWordChar c
    else if first.isDigit then
      isWordChar c || c == '.' || ((c == '+' || c == '-') && rest.getLast? == some 'e')
    else decide (first :: (rest ++ [c]) ∈ longSigns)

def isSpace (c : Char) : Bool := c == ' ' || c == '\n'

/-- The lexeme that has been read so far, if there is one. -/
def finished : List Char → List String
  | [] => []
  | lexeme => [String.ofList lexeme]

/-- The lexemes of a text after the beginning of a lexeme, or inside of a comment. -/
def lexFrom : Option (List Char) → List Char → List String
  | none, [] => []
  | some lexeme, [] => finished lexeme
  | none, c :: rest => lexFrom (if c = '\n' then some [] else none) rest
  | some lexeme, c :: rest =>
    if joins lexeme c then lexFrom (some (lexeme ++ [c])) rest
    else if lexeme = ['/'] ∧ c = '/' then lexFrom none rest
    else finished lexeme ++ lexFrom (some (if isSpace c then [] else [c])) rest

def lex (text : List Char) : List String := lexFrom (some []) text

/-! ## Lexemes one by one -/

theorem lex_space (h : isSpace c = true) (rest : List Char) : lex (c :: rest) = lex rest := by
  simp [lex, lexFrom, joins, finished, h]

theorem lex_replicate (k : ℕ) (rest : List Char) :
    lex (List.replicate k ' ' ++ rest) = lex rest := by
  induction k with
  | zero => rfl
  | succ k ih => rw [List.replicate_succ, List.cons_append, lex_space rfl, ih]

/-- Each character goes on with the lexeme before it. -/
def Grows : List Char → List Char → Prop
  | _, [] => True
  | lexeme, c :: rest => joins lexeme c = true ∧ Grows (lexeme ++ [c]) rest

theorem lexFrom_of_grows {lexeme : List Char} (h : Grows lexeme more) (rest : List Char) :
    lexFrom (some lexeme) (more ++ rest) = lexFrom (some (lexeme ++ more)) rest := by
  induction more generalizing lexeme with
  | nil => simp
  | cons c more ih =>
    rw [List.cons_append, lexFrom, if_pos h.1, ih h.2, List.append_assoc]
    rfl

/-- The text does not go on with the lexeme. -/
def Parts (lexeme rest : List Char) : Prop :=
  ∀ d ∈ rest.head?, joins lexeme d = false ∧ ¬(lexeme = ['/'] ∧ d = '/')

theorem lexFrom_of_parts {lexeme : List Char} (h : Parts (c :: lexeme) rest) :
    lexFrom (some (c :: lexeme)) rest = String.ofList (c :: lexeme) :: lex rest := by
  cases rest with
  | nil => rfl
  | cons d rest =>
    obtain ⟨hj, hs⟩ := h d rfl
    rw [lexFrom, if_neg (by simp [hj]), if_neg hs, lex, lexFrom]
    simp [finished, joins]

/-- A lexeme is cut off where the text does not go on with it. -/
theorem lex_lexeme (lexeme : List Char) (hc : isSpace c = false) (hg : Grows [c] lexeme)
    (hp : Parts (c :: lexeme) rest) :
    lex (c :: (lexeme ++ rest)) = String.ofList (c :: lexeme) :: lex rest := by
  rw [lex, lexFrom]
  simp only [joins, Bool.false_eq_true, if_false, hc, finished, List.nil_append]
  rw [if_neg (by simp), lexFrom_of_grows hg, List.singleton_append, lexFrom_of_parts hp]

theorem ne_of_isWordStart (h : isWordStart c = true) {d : Char} (hd : isWordStart d = false) :
    c ≠ d := by
  rintro rfl
  rw [h] at hd
  cases hd

theorem isSpace_of_isWordStart (h : isWordStart c = true) : isSpace c = false := by
  have hblank : c ≠ ' ' := ne_of_isWordStart h (by simp [isWordStart_of_ascii])
  have hline : c ≠ '\n' := ne_of_isWordStart h (by simp [isWordStart_of_ascii])
  simp [isSpace, hblank, hline]

theorem grows_word (hc : isWordStart c = true) (h : ∀ d ∈ rest, isWordChar d = true) :
    Grows (c :: more) rest := by
  induction rest generalizing more with
  | nil => trivial
  | cons d rest ih =>
    rw [List.forall_mem_cons] at h
    refine ⟨?_, ih h.2⟩
    rw [joins, if_pos hc]
    exact h.1

theorem lex_word (h : IsWord w) (hr : ∀ d ∈ rest.head?, isWordChar d = false) :
    lex (w.toList ++ rest) = w :: lex rest := by
  obtain ⟨c, cs, hw, hc, hcs⟩ := h
  have hp : Parts (c :: cs) rest := by
    intro d hd
    refine ⟨?_, ?_⟩
    · rw [joins, if_pos hc]
      exact hr d hd
    · rintro ⟨hslash, -⟩
      rw [List.cons.injEq] at hslash
      exact ne_of_isWordStart hc (by simp [isWordStart_of_ascii]) hslash.1
  rw [hw, List.cons_append, lex_lexeme cs (isSpace_of_isWordStart hc) (grows_word hc hcs) hp, ← hw,
    String.ofList_toList]

/-- The characters after an expression. -/
def stops : List Char := [' ', ')', ',', ';']

theorem isWordChar_of_mem_stops : ∀ d ∈ stops, isWordChar d = false := by
  simp [stops, isWordChar_of_ascii]

theorem grows_append {lexeme a b : List Char} :
    Grows lexeme (a ++ b) ↔ Grows lexeme a ∧ Grows (lexeme ++ a) b := by
  induction a generalizing lexeme with
  | nil => simp [Grows]
  | cons c a ih => simp [Grows, ih, and_assoc]

theorem joins_number {d : Char} (hc : c.isDigit = true)
    (hd : isWordChar d = true ∨ d = '.' ∨ ((d = '+' ∨ d = '-') ∧ more.getLast? = some 'e')) :
    joins (c :: more) d = true := by
  rw [joins, if_neg (by simp [isWordStart_of_isDigit hc]), if_pos hc]
  simp only [Bool.or_eq_true, Bool.and_eq_true, beq_iff_eq]
  tauto

theorem grows_digits (hc : c.isDigit = true) (h : ∀ d ∈ rest, d.isDigit = true ∨ d = '.') :
    Grows (c :: more) rest := by
  induction rest generalizing more with
  | nil => trivial
  | cons d rest ih =>
    rw [List.forall_mem_cons] at h
    refine ⟨joins_number hc ?_, ih h.2⟩
    rcases h.1 with h | h
    · exact .inl (isWordChar_of_isDigit h)
    · exact .inr (.inl h)

theorem grows_numeral {body exponent : List Char} (hc : c.isDigit = true)
    (hb : ∀ d ∈ body, d.isDigit = true ∨ d = '.') (he : IsExponent exponent) :
    Grows [c] (body ++ exponent) := by
  refine grows_append.mpr ⟨grows_digits hc hb, ?_⟩
  rcases he with rfl | ⟨s, rest, rfl, hs, hrest⟩
  · trivial
  · refine ⟨joins_number hc (.inl (by decide)), joins_number hc ?_, grows_digits hc ?_⟩
    · exact .inr (.inr ⟨hs, by simp⟩)
    · exact fun d hd => .inl (hrest d hd)

theorem lex_number {t : String} (h : IsNumeral t.toList) {d : Char} (hd : d ∈ stops)
    (rest : List Char) : lex (t.toList ++ d :: rest) = t :: lex (d :: rest) := by
  obtain ⟨c, body, exponent, ht, hc, hb, he⟩ := h
  have hstart := isWordStart_of_isDigit hc
  have hgap : isSpace c = false := by
    have hne (e : Char) (he : e.isDigit = false) : c ≠ e := by
      rintro rfl
      rw [hc] at he
      cases he
    simp [isSpace, hne ' ' rfl, hne '\n' rfl]
  have hp : Parts (c :: (body ++ exponent)) (d :: rest) := by
    rintro _ ⟨⟩
    have hword := isWordChar_of_mem_stops d hd
    have hne : ∀ d ∈ stops, d ≠ '.' ∧ d ≠ '+' ∧ d ≠ '-' ∧ d ≠ '/' := by simp [stops]
    have hne := hne d hd
    refine ⟨?_, fun h => hne.2.2.2 h.2⟩
    simp [joins, hstart, hc, hword, hne]
  rw [ht, List.cons_append, lex_lexeme _ hgap (grows_numeral hc hb he) hp, ← ht,
    String.ofList_toList]

def singles : List Char := ['(', ')', ',', ';', '\x7b', '\x7d', '*']

theorem lex_single (h : c ∈ singles) (rest : List Char) :
    lex (c :: rest) = String.ofList [c] :: lex rest := by
  have hall : ∀ c ∈ singles, isSpace c = false ∧ c.isDigit = false ∧ c ≠ '/' ∧
      ∀ s ∈ longSigns, s.head? ≠ some c := by
    simp [singles, isSpace, longSigns]
  have hstart : ∀ c ∈ singles, isWordStart c = false := by simp [singles, isWordStart_of_ascii]
  obtain ⟨hgap, hdigit, hslash, hsign⟩ := hall c h
  have hp : Parts [c] rest := by
    intro d _
    refine ⟨?_, fun h => hslash (by simpa using h.1)⟩
    rw [joins, if_neg (by simp [hstart c h]), if_neg (by simp [hdigit]), decide_eq_false_iff_not]
    exact fun hmem => hsign _ hmem rfl
  exact lex_lexeme [] hgap trivial hp

def signs : List String := ["+", "-", "*", "/", "%", "<", "<=", ">", ">=", "==", "!=", "="]

theorem lex_sign {s : String} (h : s ∈ signs) (rest : List Char) :
    lex (s.toList ++ ' ' :: rest) = s :: lex rest := by
  have hall : ∀ s ∈ signs, ∃ c cs, s.toList = c :: cs ∧ isSpace c = false ∧ Grows [c] cs ∧
      joins (c :: cs) ' ' = false := by
    simp [signs, isSpace, Grows, joins, isWordStart_of_ascii, longSigns]
  obtain ⟨c, cs, hs, hgap, hgrows, hj⟩ := hall s h
  have hp : Parts (c :: cs) (' ' :: rest) := by
    rintro _ ⟨⟩
    exact ⟨hj, by simp⟩
  rw [hs, List.cons_append, lex_lexeme cs hgap hgrows hp, ← hs, String.ofList_toList, lex_space rfl]

theorem lex_arrow (rest : List Char) : lex ('-' :: '>' :: rest) = "->" :: lex rest := by
  have hp : Parts ['-', '>'] rest := by
    intro d _
    exact ⟨by simp [joins, isWordStart_of_ascii, longSigns], by simp⟩
  exact lex_lexeme ['>'] rfl (by simp [Grows, joins, isWordStart_of_ascii, longSigns]) hp

/-! ## Well-formed trees and their lexemes -/

def operators : List String := ["+", "-", "*", "/", "%", "<", "<=", ">", ">=", "==", "!="]

def castTypes : List String := ["int", "Uint8"]

/-- The words by which statements with a block are known. -/
def reserved : List String := ["if", "else", "while", "for"]

namespace Expr

inductive WF : Expr → Prop
  | word {w : String} : IsWord w → WF (.word w)
  | constant {t : String} : IsNumeral t.toList → WF (.constant t)
  | binary {l r : Expr} {op : String} : WF l → op ∈ operators → WF r → WF (.binary l op r)
  | cast {type : String} {e : Expr} : type ∈ castTypes → WF e → WF (.cast type e)
  | call {f : String} {es : List Expr} : IsWord f → es ≠ [] → (∀ e ∈ es, WF e) → WF (.call f es)

mutual

def tokens : Expr → List String
  | .word w => [w]
  | .constant t => [t]
  | .binary l op r => "(" :: (l.tokens ++ op :: (r.tokens ++ [")"]))
  | .cast type e => "(" :: type :: ")" :: e.tokens
  | .call f es => f :: "(" :: (tokensAll es ++ [")"])

def tokensAll : List Expr → List String
  | [] => []
  | [e] => e.tokens
  | e :: e' :: es => e.tokens ++ "," :: tokensAll (e' :: es)

end

end Expr

namespace Simple

inductive WF : Simple → Prop
  | declare {type name : String} {isPointer : Bool} {e : Expr} : IsWord type → type ∉ reserved →
      IsWord name → e.WF → WF (.declare type isPointer name e)
  | assign {w : String} {e : Expr} : IsWord w → w ∉ reserved → e.WF → WF (.assign w e)
  | assignMember {w m : String} {e : Expr} : IsWord w → w ∉ reserved → IsWord m → e.WF →
      WF (.assignMember w m e)
  | call {f : String} {es : List Expr} : IsWord f → f ∉ reserved → es ≠ [] → (∀ e ∈ es, e.WF) →
      WF (.call f es)

def tokens : Simple → List String
  | .declare type isPointer name e =>
    type :: ((if isPointer then ["*"] else []) ++ name :: "=" :: e.tokens)
  | .assign w e => w :: "=" :: e.tokens
  | .assignMember w m e => w :: "->" :: m :: "=" :: e.tokens
  | .call f es => f :: "(" :: (Expr.tokensAll es ++ [")"])

end Simple

namespace Stmt

inductive WF : Stmt → Prop
  | simple {s : Simple} : s.WF → WF (.simple s)
  | branch {test : Expr} {body : List Stmt} {arms : List (Expr × List Stmt)}
      {otherwise : Option (List Stmt)} : test.WF → (∀ s ∈ body, WF s) →
      (∀ arm ∈ arms, arm.1.WF) → (∀ arm ∈ arms, ∀ s ∈ arm.2, WF s) →
      (∀ block ∈ otherwise, ∀ s ∈ block, WF s) → WF (.branch test body arms otherwise)
  | whileLoop {test : Expr} {body : List Stmt} : test.WF → (∀ s ∈ body, WF s) →
      WF (.whileLoop test body)
  | forLoop {init update : Simple} {test : Expr} {body : List Stmt} : init.WF → test.WF →
      update.WF → (∀ s ∈ body, WF s) → WF (.forLoop init test update body)

mutual

def tokens : Stmt → List String
  | .simple s => s.tokens ++ [";"]
  | .branch test body arms otherwise =>
    "if" :: "(" :: (test.tokens ++ ")" :: "\x7b" :: (tokensAll body ++ "\x7d" ::
      (armTokens arms ++ otherwiseTokens otherwise)))
  | .whileLoop test body =>
    "while" :: "(" :: (test.tokens ++ ")" :: "\x7b" :: (tokensAll body ++ ["\x7d"]))
  | .forLoop init test update body =>
    "for" :: "(" :: (init.tokens ++ ";" :: (test.tokens ++ ";" :: (update.tokens ++ ")" :: "\x7b" ::
      (tokensAll body ++ ["\x7d"]))))

def tokensAll : List Stmt → List String
  | [] => []
  | s :: rest => s.tokens ++ tokensAll rest

/-- The lexemes of the further conditions of a branch with their blocks. -/
def armTokens : List (Expr × List Stmt) → List String
  | [] => []
  | (test, body) :: rest => "else" :: "if" :: "(" :: (test.tokens ++ ")" :: "\x7b" ::
      (tokensAll body ++ "\x7d" :: armTokens rest))

def otherwiseTokens : Option (List Stmt) → List String
  | none => []
  | some block => "else" :: "\x7b" :: (tokensAll block ++ ["\x7d"])

end

end Stmt

/-! ## Cutting the layout of a tree -/

/-- Before a character that ends expressions, the text is cut into the lexemes. -/
def LexesTo (text : String) (tokens : List String) : Prop :=
  ∀ d ∈ stops, ∀ rest, lex (text.toList ++ d :: rest) = tokens ++ lex (d :: rest)

theorem isWord_of_castTypes : ∀ type ∈ castTypes, IsWord type := by
  have hall : ∀ type ∈ castTypes, isAsciiWord type.toList = true := by decide
  exact fun type h => isWord_of_isAsciiWord (hall type h)

theorem lexesTo_word (h : IsWord w) : LexesTo w [w] := by
  intro d hd rest
  refine lex_word h ?_
  rintro _ ⟨⟩
  exact isWordChar_of_mem_stops d hd

/-- A word before a character that is a lexeme by itself. -/
theorem lex_word_single (h : IsWord w) (hc : c ∈ singles) (rest : List Char) :
    lex (w.toList ++ c :: rest) = w :: String.ofList [c] :: lex rest := by
  have hall : ∀ c ∈ singles, isWordChar c = false := by simp [singles, isWordChar_of_ascii]
  rw [lex_word h, lex_single hc]
  rintro _ ⟨⟩
  exact hall c hc

theorem lex_arguments {es : List Expr} (hne : es ≠ [])
    (h : ∀ e ∈ es, LexesTo e.text e.tokens) (rest : List Char) :
    lex ((", ".intercalate (Expr.texts es)).toList ++ ')' :: rest) =
      Expr.tokensAll es ++ ")" :: lex rest := by
  induction es with
  | nil => exact absurd rfl hne
  | cons e es ih =>
    rw [List.forall_mem_cons] at h
    cases es with
    | nil =>
      simp only [Expr.texts, String.intercalate_singleton, Expr.tokensAll]
      rw [h.1 ')' (by simp [stops]), lex_single (by simp [singles])]
    | cons e' es =>
      have htext : (", ".intercalate (Expr.texts (e :: e' :: es))).toList ++ ')' :: rest =
          e.text.toList ++ ',' :: ' ' ::
            ((", ".intercalate (Expr.texts (e' :: es))).toList ++ ')' :: rest) := by
        simp [Expr.texts, String.intercalate_cons_cons]
      rw [htext, h.1 ',' (by simp [stops]), lex_single (by simp [singles]), lex_space rfl,
        ih (by simp) h.2, Expr.tokensAll]
      simp

theorem mem_signs_of_operators : ∀ op ∈ operators, op ∈ signs := by decide

theorem lexesTo_expr {e : Expr} (h : e.WF) : LexesTo e.text e.tokens := by
  induction h with
  | word hw => exact lexesTo_word hw
  | constant ht => exact fun d hd rest => lex_number ht hd rest
  | @binary l r op _ hop _ hl hr =>
    intro d hd rest
    have htext : (Expr.binary l op r).text.toList ++ d :: rest = '(' :: (l.text.toList ++
        ' ' :: (op.toList ++ ' ' :: (r.text.toList ++ ')' :: d :: rest))) := by
      simp [Expr.text]
    rw [htext, lex_single (by simp [singles]), hl ' ' (by simp [stops]), lex_space rfl,
      lex_sign (mem_signs_of_operators op hop), hr ')' (by simp [stops]),
      lex_single (by simp [singles])]
    simp [Expr.tokens]
  | @cast type e ht _ he =>
    intro d hd rest
    have htext : (Expr.cast type e).text.toList ++ d :: rest = '(' :: (type.toList ++
        ')' :: (e.text.toList ++ d :: rest)) := by
      simp [Expr.text]
    rw [htext, lex_single (by simp [singles]), lex_word_single (isWord_of_castTypes type ht)
      (by simp [singles]), he d hd]
    simp [Expr.tokens]
  | @call f es hf hne _ hes =>
    intro d hd rest
    have htext : (Expr.call f es).text.toList ++ d :: rest = f.toList ++ '(' ::
        ((", ".intercalate (Expr.texts es)).toList ++ ')' :: d :: rest) := by
      simp [Expr.text]
    rw [htext, lex_word_single hf (by simp [singles]), lex_arguments hne hes]
    simp [Expr.tokens]

theorem lexesTo_simple {s : Simple} (h : s.WF) : LexesTo s.text s.tokens := by
  intro d hd rest
  have hequal : "=" ∈ signs := by decide
  cases h with
  | @declare type name isPointer e ht _ hn he =>
    have htail : lex (name.toList ++ ' ' :: ('=' :: ' ' :: (e.text.toList ++ d :: rest))) =
        name :: "=" :: (e.tokens ++ lex (d :: rest)) := by
      rw [lexesTo_word hn ' ' (by simp [stops]), lex_space rfl]
      change [name] ++ lex ("=".toList ++ ' ' :: (e.text.toList ++ d :: rest)) = _
      rw [lex_sign hequal, lexesTo_expr he d hd]
      simp
    cases isPointer with
    | true =>
      have htext : (Simple.declare type true name e).text.toList ++ d :: rest = type.toList ++
          '*' :: ' ' :: (name.toList ++ ' ' :: ('=' :: ' ' :: (e.text.toList ++ d :: rest))) := by
        simp [Simple.text]
      rw [htext, lex_word_single ht (by simp [singles]), lex_space rfl, htail]
      simp [Simple.tokens]
    | false =>
      have htext : (Simple.declare type false name e).text.toList ++ d :: rest = type.toList ++
          ' ' :: (name.toList ++ ' ' :: ('=' :: ' ' :: (e.text.toList ++ d :: rest))) := by
        simp [Simple.text]
      rw [htext, lexesTo_word ht ' ' (by simp [stops]), lex_space rfl, htail]
      simp [Simple.tokens]
  | @assign w e hw _ he =>
    have htext : (Simple.assign w e).text.toList ++ d :: rest = w.toList ++ ' ' ::
        ("=".toList ++ ' ' :: (e.text.toList ++ d :: rest)) := by
      simp [Simple.text]
    rw [htext, lexesTo_word hw ' ' (by simp [stops]), lex_space rfl, lex_sign hequal,
      lexesTo_expr he d hd]
    simp [Simple.tokens]
  | @assignMember w m e hw _ hm he =>
    have htext : (Simple.assignMember w m e).text.toList ++ d :: rest = w.toList ++ '-' :: '>' ::
        (m.toList ++ ' ' :: ("=".toList ++ ' ' :: (e.text.toList ++ d :: rest))) := by
      simp [Simple.text]
    have hminus : isWordChar '-' = false := by simp [isWordChar_of_ascii]
    rw [htext, lex_word hw (by simp [hminus]), lex_arrow, lexesTo_word hm ' ' (by simp [stops]),
      lex_space rfl, lex_sign hequal, lexesTo_expr he d hd]
    simp [Simple.tokens]
  | @call f es hf _ hne hes =>
    have htext : (Simple.call f es).text.toList ++ d :: rest = f.toList ++ '(' ::
        ((", ".intercalate (Expr.texts es)).toList ++ ')' :: d :: rest) := by
      simp [Simple.text]
    rw [htext, lex_word_single hf (by simp [singles]),
      lex_arguments hne fun e he => lexesTo_expr (hes e he)]
    simp [Simple.tokens]

def unlines (lines : List String) : List Char := lines.flatMap fun line => line.toList ++ ['\n']

@[simp] theorem unlines_nil : unlines [] = [] := rfl

@[simp] theorem unlines_append (lines lines' : List String) :
    unlines (lines ++ lines') = unlines lines ++ unlines lines' := List.flatMap_append

theorem lex_line (i : ℕ) (text : String) (lines : List String) (rest : List Char) :
    lex (unlines (indented i text :: lines) ++ rest) =
      lex (text.toList ++ '\n' :: (unlines lines ++ rest)) := by
  have h : unlines (indented i text :: lines) ++ rest =
      List.replicate (4 * i) ' ' ++ (text.toList ++ '\n' :: (unlines lines ++ rest)) := by
    simp [unlines, indented]
  rw [h, lex_replicate]

theorem lex_keyword (h : IsWord w) (rest : List Char) :
    lex (w.toList ++ ' ' :: '(' :: rest) = w :: "(" :: lex rest := by
  rw [lexesTo_word h ' ' (by simp [stops]), lex_space rfl, lex_single (by simp [singles])]
  rfl

theorem lex_brace (rest : List Char) :
    lex (' ' :: '\x7b' :: '\n' :: rest) = "\x7b" :: lex rest := by
  rw [lex_space rfl, lex_single (by simp [singles]), lex_space rfl]

theorem lex_test {test : Expr} (h : test.WF) (hw : IsWord w) (rest : List Char) :
    lex (w.toList ++ ' ' :: '(' :: (test.text.toList ++ ')' :: ' ' :: '\x7b' :: '\n' :: rest)) =
      w :: "(" :: (test.tokens ++ ")" :: "\x7b" :: lex rest) := by
  rw [lex_keyword hw, lexesTo_expr h ')' (by simp [stops]), lex_single (by simp [singles]),
    lex_brace]

theorem lex_end (i : ℕ) (rest : List Char) :
    lex (unlines [indented i "\x7d"] ++ rest) = "\x7d" :: lex rest := by
  rw [lex_line]
  change lex ('\x7d' :: '\n' :: rest) = _
  rw [lex_single (by simp [singles]), lex_space rfl]

theorem isWord_reserved : ∀ w ∈ reserved, IsWord w := by
  have hall : ∀ w ∈ reserved, isAsciiWord w.toList = true := by decide
  exact fun w h => isWord_of_isAsciiWord (hall w h)

/-- The lines of the statement are cut into its lexemes. -/
def LinesLexTo (lines : ℕ → List String) (tokens : List String) : Prop :=
  ∀ i rest, lex (unlines (lines i) ++ rest) = tokens ++ lex rest

theorem lex_linesAll {ss : List Stmt}
    (h : ∀ s ∈ ss, LinesLexTo (fun i => s.lines i) s.tokens) :
    LinesLexTo (fun i => Stmt.linesAll i ss) (Stmt.tokensAll ss) := by
  induction ss with
  | nil => exact fun i rest => rfl
  | cons s ss ih =>
    rw [List.forall_mem_cons] at h
    intro i rest
    simp only [Stmt.linesAll, unlines_append, List.append_assoc, Stmt.tokensAll]
    rw [h.1 i, ih h.2 i]

theorem lex_otherwise {otherwise : Option (List Stmt)}
    (h : ∀ block ∈ otherwise, ∀ s ∈ block, LinesLexTo (fun i => s.lines i) s.tokens) :
    LinesLexTo (fun i => Stmt.otherwiseLines i otherwise ++ [indented i "\x7d"])
      ("\x7d" :: Stmt.otherwiseTokens otherwise) := by
  intro i rest
  cases otherwise with
  | none => exact lex_end i rest
  | some block =>
    have htext (rest : List Char) : "\x7d else \x7b".toList ++ '\n' :: rest =
        '\x7d' :: ' ' :: ("else".toList ++ ' ' :: '\x7b' :: '\n' :: rest) := rfl
    simp only [Stmt.otherwiseLines, Stmt.otherwiseTokens, List.cons_append]
    rw [lex_line, htext, lex_single (by simp [singles]), lex_space rfl,
      lexesTo_word (isWord_reserved _ (by decide)) ' ' (by simp [stops]), lex_brace, unlines_append,
      List.append_assoc, lex_linesAll (h block rfl) (i + 1), lex_end]
    simp

theorem lex_arms {arms : List (Expr × List Stmt)} {otherwise : Option (List Stmt)}
    (ht : ∀ arm ∈ arms, arm.1.WF)
    (hb : ∀ arm ∈ arms, ∀ s ∈ arm.2, LinesLexTo (fun i => s.lines i) s.tokens)
    (ho : ∀ block ∈ otherwise, ∀ s ∈ block, LinesLexTo (fun i => s.lines i) s.tokens) :
    LinesLexTo (fun i => Stmt.armLines i arms ++
        (Stmt.otherwiseLines i otherwise ++ [indented i "\x7d"]))
      ("\x7d" :: (Stmt.armTokens arms ++ Stmt.otherwiseTokens otherwise)) := by
  induction arms with
  | nil => exact lex_otherwise ho
  | cons arm arms ih =>
    obtain ⟨test, body⟩ := arm
    rw [List.forall_mem_cons] at ht hb
    intro i rest
    have htext (rest : List Char) :
        ("\x7d else if (" ++ test.text ++ ") \x7b").toList ++ '\n' :: rest =
        '\x7d' :: ' ' :: ("else".toList ++ ' ' :: ("if".toList ++ ' ' :: '(' ::
          (test.text.toList ++ ')' :: ' ' :: '\x7b' :: '\n' :: rest))) := by
      simp
    simp only [Stmt.armLines, Stmt.armTokens, List.cons_append, List.append_assoc]
    rw [lex_line, htext, lex_single (by simp [singles]), lex_space rfl,
      lexesTo_word (isWord_reserved _ (by decide)) ' ' (by simp [stops]), lex_space rfl,
      lex_test ht.1 (isWord_reserved _ (by decide)), unlines_append, List.append_assoc,
      lex_linesAll hb.1 (i + 1), ih ht.2 hb.2 i]
    simp

theorem lex_lines {s : Stmt} (h : s.WF) : LinesLexTo (fun i => s.lines i) s.tokens := by
  induction h with
  | @simple s hs =>
    intro i rest
    have htext : (s.text ++ ";").toList ++ '\n' :: (unlines [] ++ rest) =
        s.text.toList ++ ';' :: '\n' :: rest := by
      simp
    simp only [Stmt.lines, Stmt.tokens]
    rw [lex_line, htext, lexesTo_simple hs ';' (by simp [stops]),
      lex_single (by simp [singles]), lex_space rfl]
    simp
  | @branch test body arms otherwise ht _ ha _ _ hb iha iho =>
    intro i rest
    have htext (rest : List Char) : ("if (" ++ test.text ++ ") \x7b").toList ++ '\n' :: rest =
        "if".toList ++ ' ' :: '(' ::
          (test.text.toList ++ ')' :: ' ' :: '\x7b' :: '\n' :: rest) := by
      simp
    simp only [Stmt.lines, Stmt.tokens]
    rw [lex_line, htext, lex_test ht (isWord_reserved _ (by decide)), unlines_append,
      List.append_assoc, lex_linesAll hb (i + 1), lex_arms ha iha iho i]
    simp
  | @whileLoop test body ht _ hb =>
    intro i rest
    have htext (rest : List Char) : ("while (" ++ test.text ++ ") \x7b").toList ++ '\n' :: rest =
        "while".toList ++ ' ' :: '(' ::
          (test.text.toList ++ ')' :: ' ' :: '\x7b' :: '\n' :: rest) := by
      simp
    simp only [Stmt.lines, Stmt.tokens]
    rw [lex_line, htext, lex_test ht (isWord_reserved _ (by decide)), unlines_append,
      List.append_assoc, lex_linesAll hb (i + 1), lex_end]
    simp
  | @forLoop init update test body hi ht hu _ hb =>
    intro i rest
    have htext (rest : List Char) :
        ("for (" ++ init.text ++ "; " ++ test.text ++ "; " ++ update.text ++
        ") \x7b").toList ++ '\n' :: rest = "for".toList ++ ' ' :: '(' ::
          (init.text.toList ++ ';' :: ' ' ::
          (test.text.toList ++ ';' :: ' ' ::
            (update.text.toList ++ ')' :: ' ' :: '\x7b' :: '\n' :: rest))) := by
      simp
    simp only [Stmt.lines, Stmt.tokens]
    rw [lex_line, htext, lex_keyword (isWord_reserved _ (by decide)),
      lexesTo_simple hi ';' (by simp [stops]), lex_single (by simp [singles]), lex_space rfl,
      lexesTo_expr ht ';' (by simp [stops]), lex_single (by simp [singles]), lex_space rfl,
      lexesTo_simple hu ')' (by simp [stops]), lex_single (by simp [singles]), lex_brace,
      unlines_append, List.append_assoc, lex_linesAll hb (i + 1), lex_end]
    simp

/-! ## Cutting a program -/

theorem lexFrom_comment {text : List Char} (h : '\n' ∉ text) (rest : List Char) :
    lexFrom none (text ++ '\n' :: rest) = lex rest := by
  induction text with
  | nil => rfl
  | cons c text ih =>
    rw [List.mem_cons, not_or] at h
    rw [List.cons_append, lexFrom, if_neg (Ne.symm h.1), ih h.2]

theorem lex_comment {text : List Char} (h : '\n' ∉ text) (rest : List Char) :
    lex ('/' :: '/' :: (text ++ '\n' :: rest)) = lex rest := by
  have hstart : isWordStart '/' = false := by simp [isWordStart_of_ascii]
  have hfirst : lexFrom (some ['/']) ('/' :: (text ++ '\n' :: rest)) = lex rest := by
    rw [lexFrom, if_neg (by simp [joins, hstart, longSigns]), if_pos ⟨rfl, rfl⟩, lexFrom_comment h]
  rw [lex, lexFrom]
  simpa [joins, finished, isSpace] using hfirst

def showings (cursors : List String) : List Stmt :=
  cursors.map fun cursor => .simple (.showing cursor)

theorem wf_showing (h : IsWord w) : (Simple.showing w).WF := by
  have hf : IsWord "set_cursor_visibility" ∧ IsWord "true" :=
    ⟨isWord_of_isAsciiWord (by decide), isWord_of_isAsciiWord (by decide)⟩
  have hfree : "set_cursor_visibility" ∉ reserved := by decide
  have hes : ∀ e ∈ [Expr.word w, .word "true"], e.WF := by
    simp only [List.forall_mem_cons]
    exact ⟨.word h, .word hf.2, by simp⟩
  exact .call hf.1 hfree (by simp) hes

theorem linesAll_showings (cursors : List String) : Stmt.linesAll 1 (showings cursors) =
    cursors.map fun cursor => indented 1 ((Simple.showing cursor).text ++ ";") := by
  induction cursors with
  | nil => rfl
  | cons cursor cursors ih =>
    rw [showings] at ih
    simp only [showings, List.map_cons, Stmt.linesAll, ih, Stmt.lines]
    rfl

theorem lex_showingLines {cursors : List String} (h : ∀ w ∈ cursors, IsWord w) (rest : List Char) :
    lex (unlines (showingLines cursors) ++ rest) =
      Stmt.tokensAll (showings cursors) ++ lex rest := by
  cases cursors with
  | nil => rfl
  | cons cursor cursors =>
    have hwf : ∀ s ∈ showings (cursor :: cursors), s.WF := by
      intro s hs
      obtain ⟨w, hw, rfl⟩ := List.mem_map.mp hs
      exact .simple (wf_showing (h w hw))
    have hnote (rest : List Char) :
        lex ("// Dessiner les curseurs visibles après les formes".toList ++ '\n' :: rest) =
          lex rest := by
      have htext : "// Dessiner les curseurs visibles après les formes".toList ++ '\n' :: rest =
          '/' :: '/' :: (" Dessiner les curseurs visibles après les formes".toList ++
            '\n' :: rest) := by simp
      rw [htext, lex_comment (by simp)]
    rw [showingLines, lex_line, hnote, ← linesAll_showings,
      lex_linesAll (fun s hs => lex_lines (hwf s hs)) 1]
    simp

theorem toList_intercalate_append (lines lines' : List String) (h : lines' ≠ []) :
    ("\n".intercalate (lines ++ lines')).toList =
      unlines lines ++ ("\n".intercalate lines').toList := by
  induction lines with
  | nil => rfl
  | cons line lines ih =>
    obtain ⟨l, ls, hl⟩ : ∃ l ls, lines ++ lines' = l :: ls :=
      List.exists_cons_of_ne_nil (by simp [h])
    rw [List.cons_append, hl, String.intercalate_cons_cons, ← hl, String.toList_append, ih]
    simp [unlines]

theorem toList_programText (body : List Stmt) : (programText body).toList =
    unlines openingLines ++ (unlines (Stmt.linesAll 1 body ++ showingLines (Stmt.shownAll body)) ++
      ("\n".intercalate closingLines).toList) := by
  have hne : closingLines ≠ [] := by simp [closingLines]
  rw [programText, programLines, ← List.append_assoc (Stmt.linesAll 1 body),
    toList_intercalate_append _ _ (by simp [hne]), toList_intercalate_append _ _ hne]

end DrawPlus.Target
