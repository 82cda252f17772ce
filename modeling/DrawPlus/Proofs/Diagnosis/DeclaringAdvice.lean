import DrawPlus.Proofs.Diagnosis.NamedLine
import DrawPlus.Proofs.LowerCase
import DrawPlus.Proofs.Parsing.Printing
import DrawPlus.Proofs.Scope.Refusals
import DrawPlus.Proofs.Scope.Rules

/-!
# Advice on missing declarations

For a name that is not declared the diagnosis advises four declarations. The name in them is taken
from the message after that has been put into lower case. So a name with a capital in it is not the
one that is declared, if the advice can be read at all, and the declaration of a string cannot be
read for any name (`declaring_advice_iff`).
-/

namespace DrawPlus

open Text

/-! ## Texts and their lexemes -/

namespace Scan

/-- Wherever the text stands, it is read as the lexemes. -/
def ReadsAs (text : List Char) (ls : List Lexeme) : Prop :=
  ∀ before, ∃ ts last, outcome before text = .ok (ts ++ [last]) ∧ Spells ts ls

/-- Wherever the text stands, it cannot be read. -/
def Garbled (text : List Char) : Prop := ∀ before, ∃ e, outcome before text = .error e

section

variable {w after rest : List Char} {l : Lexeme} {ls ms : List Lexeme}

theorem readsAs_nil : ReadsAs [] [] := fun before => ⟨[], _, outcome_end before, rfl⟩

theorem ReadsAs.item (ha : ReadsAs after ls) (h : Item w after (some l)) :
    ReadsAs (w ++ after) (l :: ls) := by
  intro before
  obtain ⟨ts, last, hts, hspells⟩ := ha (before ++ w)
  refine ⟨l.behind before ++ ts, last, ?_, ?_⟩
  · rw [outcome_item h, hts]
    simp [Except.map]
  · rw [Spells, List.map_append, Lexeme.map_said_behind, hspells]
    rfl

theorem ReadsAs.blank (h : ReadsAs after ls) : ReadsAs (' ' :: after) ls := by
  intro before
  rw [outcome_blank rfl]
  exact h (before ++ [' '])

theorem ReadsAs.spaced (h : ReadsAs rest ls) (hms : ∀ l ∈ ms, l.Legible) :
    ReadsAs (Lexeme.spaced ms ++ rest) (ms ++ ls) := by
  induction ms with
  | nil => exact h
  | cons m ms ih =>
    rw [List.forall_mem_cons] at hms
    have hm := (ih hms.2).blank.item (item_of_legible hms.1 (stops_blank _))
    simpa using hm

theorem Garbled.item {l : Option Lexeme} (h : Item w after l) (ha : Garbled after) :
    Garbled (w ++ after) := by
  intro before
  obtain ⟨e, he⟩ := ha (before ++ w)
  exact ⟨e, (outcome_item_eq_error h).mpr he⟩

theorem Garbled.spaced (h : Garbled rest) (hms : ∀ l ∈ ms, l.Legible) :
    Garbled (Lexeme.spaced ms ++ rest) := by
  intro before
  obtain ⟨ts, -, hread⟩ := exists_outcome_spaced hms before rest
  obtain ⟨e, he⟩ := h (before ++ Lexeme.spaced ms)
  exact ⟨e, by rw [hread, he]; rfl⟩

theorem endsNumber_cons {d : Char} (h : isNumberChar d = false) : EndsNumber (d :: rest) := by
  intro e he
  cases he
  exact h

theorem ReadsAs.delimiter {c : Char} {k : Kind} (h : Kind.ofDelimiter? c = some k)
    (ha : ReadsAs after ls) : ReadsAs (c :: after) (.sign k :: ls) :=
  ha.item (.delimiter h)

theorem ReadsAs.zero {d : Char} (hd : isNumberChar d = false) (h : ReadsAs (d :: after) ls) :
    ReadsAs ('0' :: d :: after) (.number (.int 0) :: ls) :=
  h.item (w := ['0']) (.integer (by simp) (by simp [Text.isDigit]) (endsNumber_cons hd) rfl)

theorem ReadsAs.assign (h : ReadsAs after ls) :
    ReadsAs ('=' :: ' ' :: after) (.sign .assign :: ls) :=
  h.blank.item (item_of_legible (.operator '=' rfl rfl) (stops_blank after))

/-- Nothing that begins with a stranger can be read. -/
theorem garbled_of_beginsNothing {c : Char} (hc : BeginsNothing c) (rest : List Char) :
    Garbled (c :: rest) :=
  fun before => ⟨_, outcome_halt (.stranger rest hc) before⟩

end

end Scan

/-! ## Names in lower case -/

def inLowerCase (w : String) : String := String.ofList (lower w.toList)

theorem beginsNothing_dotAbove : BeginsNothing dotAbove :=
  ⟨rfl, by decide +kernel, by decide +kernel, rfl, rfl⟩

/-- A name in lower case is a word, unless reading halts at the dot of a dotted capital. -/
theorem isWord_or_garbled {w : String} (h : IsName w) (rest : List Char) :
    IsWord (inLowerCase w) ∨ Scan.Garbled ((inLowerCase w).toList ++ rest) := by
  have hchars := h.chars
  obtain ⟨c, cs, hw, hc, -⟩ := h.start
  obtain ⟨d, ds, hlower, hd⟩ := exists_lower_cons hc cs
  have htext : (inLowerCase w).toList = d :: ds := by
    rw [inLowerCase, String.toList_ofList, hw, hlower]
  have hword : ∀ e ∈ ds.takeWhile isWordChar, isWordChar e = true := fun e he =>
    List.mem_takeWhile_imp he
  have hcut := List.takeWhile_append_dropWhile (p := isWordChar) (l := ds)
  cases hrest : ds.dropWhile isWordChar with
  | nil =>
    rw [hrest, List.append_nil] at hcut
    exact .inl ⟨d, ds, htext, hd, hcut ▸ hword⟩
  | cons e es =>
    have hmem : e ∈ lower w.toList := by
      rw [hw, hlower, ← hcut, hrest]
      simp
    have hstop : isWordChar e = false := by
      have hhead := List.head_dropWhile_not isWordChar (l := ds) (by simp [hrest])
      simpa [hrest] using hhead
    obtain rfl : e = dotAbove := by
      rcases isWordChar_or_dot_of_mem_lower hchars hmem with he | he
      · rw [he] at hstop
        cases hstop
      · exact he
    right
    have hfirst : IsWord (String.ofList (d :: ds.takeWhile isWordChar)) :=
      ⟨d, _, String.toList_ofList, hd, hword⟩
    have hends : EndsName (dotAbove :: (es ++ rest)) := by
      intro e he
      cases he
      exact ⟨hstop, by decide⟩
    have hitem := Scan.Garbled.item (@Item.words _ [] _ hfirst (by simp) hends)
      (Scan.garbled_of_beginsNothing beginsNothing_dotAbove (es ++ rest))
    rw [htext, ← hcut, hrest]
    simpa [Lexeme.dotted] using hitem

/-- The names that size the window have a capital in them. -/
theorem not_isWindow_of_inLowerCase {w : String} (h : inLowerCase w = w) :
    ¬NameRule.IsWindow (.text w) := by
  have hwindow : ∀ v ∈ ["windowWidth", "windowHeight"], inLowerCase v ≠ v := by decide
  rintro (hw | hw)
  · obtain rfl := Value.text.inj hw
    exact hwindow _ (by simp) h
  · obtain rfl := Value.text.inj hw
    exact hwindow _ (by simp) h

/-! ## The declared name -/

/-- The text is one statement, and the name is all that it declares. -/
def DeclaresOnly (source name : String) : Prop :=
  ∃ n, Node.ofText source = .ok (.program [n]) ∧ Step.names n.steps = [.text name]

open Grammar

theorem exists_statements_of_readsAs {source : String} {ls : List Lexeme}
    (h : Scan.ReadsAs source.toList ls) : ∃ ts, Spells ts ls ∧
      ∀ ns, Node.ofText source = .ok (.program ns) ↔ Statements .window ts ns := by
  obtain ⟨ts, last, hok, hspells⟩ := h []
  have ht : Token.ofText source = .ok (ts ++ [last]) := by
    rw [Scan.ofText_eq_outcome, hok]
  have hl := lexed_of_ofText ht
  refine ⟨ts, hspells, fun ns => ⟨fun hn => ?_, fun hns => ?_⟩⟩
  · obtain ⟨tokens, htokens, htree⟩ := exists_ofTokens_of_ofText hn
    obtain rfl := Except.ok.inj (ht.symm.trans htokens)
    obtain ⟨ms, hms, hstatements⟩ := derived_of_ofTokens hl htree
    obtain rfl := Node.program.inj hms
    rwa [List.dropLast_concat] at hstatements
  · refine ofText_of_ofTokens ht (ofTokens_of_derived hl ?_)
    rwa [List.dropLast_concat]

theorem not_declaresOnly_of_garbled {source name : String} (h : Scan.Garbled source.toList) :
    ¬DeclaresOnly source name := by
  rintro ⟨n, hn, -⟩
  obtain ⟨tokens, ht, -⟩ := exists_ofTokens_of_ofText hn
  obtain ⟨e, he⟩ := h []
  rw [Scan.ofText_eq_outcome, he] at ht
  cases ht

theorem statement_of_statements {R : NameRule} {ts : List Token} {n : Node}
    (h : Statements R ts [n]) : Statement R ts n := by
  cases h with
  | cons hn hrest =>
    cases hrest
    rwa [List.append_nil]

/-- What a statement is that does not begin with a name or with the word for a branch or a loop. -/
theorem declaration_or_creation {R : NameRule} {t : Token} {ts us : List Token} {n : Node}
    (h : Statement R us n) (hus : us = t :: ts)
    (ht : t.kind ∉ [Kind.identifier, .ifWord, .forWord, .whileWord]) :
    Declaration R us n ∨ Creation us n := by
  cases h with
  | declaration hd => exact .inl hd
  | creation hc => exact .inr hc
  | assignment ha =>
    obtain ⟨rfl, -⟩ := List.cons.inj hus
    cases ha <;> simp_all
  | call hc =>
    obtain ⟨rfl, -⟩ := List.cons.inj hus
    cases hc <;> simp_all
  | branch | forLoop | whileLoop =>
    obtain ⟨rfl, -⟩ := List.cons.inj hus
    simp_all

theorem names_of_declaration {R : NameRule} {v t x : Token} {ts us : List Token} {n : Node}
    (h : Declaration R us n) (hus : us = v :: t :: x :: ts) :
    v.kind = .var ∧ Step.names n.steps = [x.value] := by
  cases h with
  | intro hv =>
    cases hus
    exact ⟨hv, rfl⟩

theorem names_of_creation {w x : Token} {ts us : List Token} {n : Node} (h : Creation us n)
    (hus : us = w :: x :: ts) : w.kind = .cursor ∧ Step.names n.steps = [x.value] := by
  cases h with
  | intro hw =>
    cases hus
    exact ⟨hw, rfl⟩

/-- The lexemes declare a name, if they are a statement, and for an ordinary name they are one. -/
structure Declares (ls : List Lexeme) (name : String) : Prop where
  names : ∀ {ts n}, Spells ts ls → Statement .window ts n → Step.names n.steps = [.text name]
  derives : ∀ {ts}, Spells ts ls → Kind.ofWord name = .identifier →
    ¬NameRule.IsWindow (.text name) → ∃ n, Statement .window ts n

theorem declares_variable {type name : String} {k : Kind} {v : Value} (hk : Kind.ofWord type = k)
    (htype : k ∈ [Kind.int, .float, .bool, .color]) :
    Declares [.word "var", .word type, .word name, .sign .assign, .number v, .sign .semicolon]
      name := by
  have hparts {ts : List Token} (h : Spells ts [.word "var", .word type, .word name, .sign .assign,
      .number v, .sign .semicolon]) : ∃ w t x a m z, ts = [w, t, x, a, m, z] ∧ w.kind = .var ∧
      t.kind = k ∧ x.kind = Kind.ofWord name ∧ x.value = .text name ∧ a.kind = .assign ∧
      m.kind = .number ∧ z.kind = .semicolon := by
    obtain ⟨w, us, rfl, hw, -, h⟩ := h.word
    obtain ⟨t, us, rfl, ht, -, h⟩ := h.word
    obtain ⟨x, us, rfl, hx, hvalue, h⟩ := h.word
    obtain ⟨a, us, rfl, ha, h⟩ := h.sign
    obtain ⟨m, us, rfl, hm, -, h⟩ := h.number
    obtain ⟨z, us, rfl, hz, h⟩ := h.sign
    obtain rfl := h.nil
    exact ⟨w, t, x, a, m, z, rfl, hw, ht.trans hk, hx, hvalue, ha, hm, hz⟩
  constructor
  · intro ts n hts h
    obtain ⟨w, t, x, a, m, z, rfl, hw, -, -, hvalue, -⟩ := hparts hts
    rcases declaration_or_creation h rfl (by simp [hw]) with hd | hc
    · rw [(names_of_declaration hd rfl).2, hvalue]
    · have hcursor := (names_of_creation hc rfl).1
      rw [hw] at hcursor
      cases hcursor
  · intro ts hts hname hwindow
    obtain ⟨w, t, x, a, m, z, rfl, hw, ht, hx, hvalue, ha, hm, hz⟩ := hparts hts
    have hnumber := Sum.product (.factor (.number hm))
    exact ⟨_, .declaration (.intro hw (ht ▸ htype) (hx.trans hname) ha hnumber
      (fun h => absurd (hvalue ▸ h) hwindow) hz)⟩

theorem declares_cursor {name : String} {v u : Value} :
    Declares [.word "cursor", .word name, .sign .assign, .word "create_cursor", .sign .leftParen,
      .number v, .sign .comma, .number u, .sign .rightParen, .sign .semicolon] name := by
  constructor
  · intro ts n hts h
    obtain ⟨w, us, rfl, hw, -, hts⟩ := hts.word
    obtain ⟨x, us, rfl, -, hvalue, hts⟩ := hts.word
    rcases declaration_or_creation h rfl (by rw [hw]; decide) with hd | hc
    · obtain ⟨a, us, rfl, -, -⟩ := hts.sign
      have hvar := (names_of_declaration hd rfl).1
      rw [hw] at hvar
      cases hvar
    · rw [(names_of_creation hc rfl).2, hvalue]
  · intro ts hts hname _
    obtain ⟨w, us, rfl, hw, -, hts⟩ := hts.word
    obtain ⟨x, us, rfl, hx, -, hts⟩ := hts.word
    obtain ⟨a, us, rfl, ha, hts⟩ := hts.sign
    obtain ⟨k, us, rfl, hk, -, hts⟩ := hts.word
    obtain ⟨p, us, rfl, hp, hts⟩ := hts.sign
    obtain ⟨m, us, rfl, hm, -, hts⟩ := hts.number
    obtain ⟨c, us, rfl, hc, hts⟩ := hts.sign
    obtain ⟨l, us, rfl, hl, -, hts⟩ := hts.number
    obtain ⟨q, us, rfl, hq, hts⟩ := hts.sign
    obtain ⟨z, us, rfl, hz, hts⟩ := hts.sign
    obtain rfl := hts.nil
    exact ⟨_, .creation (@Creation.intro _ _ _ _ _ _ _ _ [m] [l] _ _ hw (hx.trans hname) ha hk hp
      (.product (.factor (.number hm))) hc (.product (.factor (.number hl))) hq hz)⟩

/-! ## The four declarations -/

open Scan in
/-- A text that would declare the name in lower case declares the name if it is in lower case, and
otherwise it does not. -/
theorem declaresOnly_iff {front ls : List Lexeme} {tail : List Char} {source w : String}
    (hsource : source.toList = Lexeme.spaced front ++ ((inLowerCase w).toList ++ ' ' :: tail))
    (hfront : ∀ l ∈ front, l.Legible) (htail : ReadsAs tail ls)
    (hdeclares : Declares (front ++ .word (inLowerCase w) :: ls) (inLowerCase w)) (hw : IsName w) :
    DeclaresOnly source w ↔ inLowerCase w = w := by
  by_cases hword : IsWord (inLowerCase w)
  · have hlegible : (Lexeme.word (inLowerCase w)).Legible := .words hword (by simp)
    have hreads : ReadsAs source.toList (front ++ .word (inLowerCase w) :: ls) := by
      have hname := htail.blank.item (item_of_legible hlegible (stops_blank tail))
      rw [hsource]
      refine ReadsAs.spaced ?_ hfront
      simpa [Lexeme.text, Lexeme.word, Lexeme.dotted] using hname
    obtain ⟨ts, hspells, htree⟩ := exists_statements_of_readsAs hreads
    constructor
    · rintro ⟨n, hn, hnames⟩
      have hlower := hdeclares.names hspells (statement_of_statements ((htree [n]).mp hn))
      rw [hnames] at hlower
      simpa using hlower.symm
    · intro hlower
      obtain ⟨n, hn⟩ := hdeclares.derives hspells (by rw [hlower]; exact ofWord_of_isName hw)
        (by rw [hlower]; exact not_isWindow_of_inLowerCase hlower)
      have hstatements : Statements .window ts [n] := by
        simpa using Statements.cons hn .nil
      exact ⟨n, (htree [n]).mpr hstatements, by rw [hdeclares.names hspells hn, hlower]⟩
  · refine iff_of_false (not_declaresOnly_of_garbled ?_) fun hlower => ?_
    · have hgarbled := (isWord_or_garbled hw (' ' :: tail)).resolve_left hword
      rw [hsource]
      exact hgarbled.spaced hfront
    · exact hword (by rw [hlower]; exact hw.start)

namespace Diagnosis

open Scan

theorem legible_asciiWord {w : String} (h : isAsciiWord w.toList = true) :
    (Lexeme.word w).Legible :=
  .words (isWord_of_isAsciiWord h) (by simp)

section

variable {w : String}

theorem declaresOnly_int_iff (hw : IsName w) :
    DeclaresOnly ("var int " ++ inLowerCase w ++ " = 0;") w ↔ inLowerCase w = w := by
  have htail : ReadsAs "= 0;".toList [.sign .assign, .number (.int 0), .sign .semicolon] :=
    ((readsAs_nil.delimiter rfl).zero (by rfl)).assign
  refine @declaresOnly_iff [.word "var", .word "int"] _ _ _ _ ?_ ?_ htail ?_ hw
  · simp [Lexeme.text, Lexeme.word, Lexeme.dotted]
  · simp [legible_asciiWord, isAsciiWord]
  · exact declares_variable (k := .int) (by decide) (by decide)

theorem declaresOnly_float_iff (hw : IsName w) :
    DeclaresOnly ("var float " ++ inLowerCase w ++ " = 0.0;") w ↔ inLowerCase w = w := by
  obtain ⟨x, hx⟩ : ∃ x, Numeral.decimal ['0', '.', '0'] = .ok x := ⟨_, rfl⟩
  have hnumber : Item ['0', '.', '0'] [';'] (some (.number (.double x))) :=
    @Item.decimal ['0'] ['0'] _ _ (by simp) (by simp [Text.isDigit]) (by simp [Text.isDigit])
      (endsNumber_cons (by rfl)) hx
  have htail : ReadsAs "= 0.0;".toList [.sign .assign, .number (.double x), .sign .semicolon] :=
    ((readsAs_nil.delimiter rfl).item hnumber).assign
  refine @declaresOnly_iff [.word "var", .word "float"] _ _ _ _ ?_ ?_ htail ?_ hw
  · simp [Lexeme.text, Lexeme.word, Lexeme.dotted]
  · simp [legible_asciiWord, isAsciiWord]
  · exact declares_variable (k := .float) (by decide) (by decide)

theorem declaresOnly_cursor_iff (hw : IsName w) :
    DeclaresOnly ("cursor " ++ inLowerCase w ++ " = create_cursor(0, 0);") w ↔
      inLowerCase w = w := by
  have hends : EndsName "(0, 0);".toList := by
    intro d hd
    cases hd
    exact ⟨by rw [isWordChar_of_ascii (by decide)]; rfl, by decide⟩
  have harguments : ReadsAs "(0, 0);".toList [.sign .leftParen, .number (.int 0), .sign .comma,
      .number (.int 0), .sign .rightParen, .sign .semicolon] :=
    ((((((readsAs_nil.delimiter rfl).delimiter rfl).zero (by rfl)).blank).delimiter
      rfl).zero (by rfl)).delimiter rfl
  have hword : IsWord "create_cursor" := isWord_of_isAsciiWord (by decide)
  have htail :
      ReadsAs "= create_cursor(0, 0);".toList (.sign .assign :: .word "create_cursor" :: _) :=
    (harguments.item (@Item.words _ [] _ hword (by simp) hends)).assign
  refine @declaresOnly_iff [.word "cursor"] _ _ _ _ ?_ ?_ htail ?_ hw
  · simp [Lexeme.text, Lexeme.word, Lexeme.dotted]
  · simp [legible_asciiWord, isAsciiWord]
  · exact declares_cursor

theorem beginsNothing_quote : BeginsNothing '"' :=
  ⟨rfl, by rw [isWordStart_of_ascii (by decide)]; rfl, rfl, rfl, rfl⟩

/-- There are no quotes in the language, so that the declaration of a string is none. -/
theorem not_declaresOnly_string (hw : IsName w) (name : String) :
    ¬DeclaresOnly ("var string " ++ inLowerCase w ++ " = \"\";") name := by
  have hquote : Garbled "\"\";".toList := garbled_of_beginsNothing beginsNothing_quote _
  have hassign : (Lexeme.sign .assign).Legible := .operator '=' rfl rfl
  have hname : Garbled ((inLowerCase w).toList ++ ' ' :: ("= \"\";".toList)) := by
    rcases isWord_or_garbled hw (' ' :: ("= \"\";".toList)) with hword | hgarbled
    · have hlegible : (Lexeme.word (inLowerCase w)).Legible := .words hword (by simp)
      have hrest := @Garbled.spaced _ [.word (inLowerCase w), .sign .assign] hquote (by
        simp [hlegible, hassign])
      simpa [Lexeme.text, Lexeme.word, Lexeme.dotted, Kind.sign?] using hrest
    · exact hgarbled
  refine not_declaresOnly_of_garbled ?_
  have hall := @Garbled.spaced _ [.word "var", .word "string"] hname (by
    simp [legible_asciiWord, isAsciiWord])
  simpa [Lexeme.text, Lexeme.word, Lexeme.dotted] using hall

/-! ## The advice -/

theorem lower_undeclared (w : String) :
    lower (ScopeError.undeclared (.text w)).message.toList =
      "variable".toList ++ ' ' :: (lower w.toList ++ ' ' :: "not declared".toList) := by
  have hmessage : (ScopeError.undeclared (.text w)).message.toList =
      "Variable".toList ++ ' ' :: (w.toList ++ ' ' :: "not declared".toList) := by
    change ("Variable " ++ w ++ " not declared").toList = _
    simp
  have hfirst : lower "Variable".toList = "variable".toList := by decide
  have hlast : lower "not declared".toList = "not declared".toList := by decide
  rw [hmessage, lower_append_blank, lower_append_blank, hfirst, hlast]

theorem fields_append_blank {word : List Char} (hne : word ≠ [])
    (h : ∀ c ∈ word, isBlank c = false) (rest : List Char) :
    fields (word ++ ' ' :: rest) = word :: fields rest := by
  have hspace : isBlank ' ' = true := rfl
  rw [fields, fieldsFrom_append h, List.nil_append, fieldsFrom, if_pos hspace,
    if_neg (by simpa using hne), fields]

/-- The name is the second word, if it is one word without apostrophes. -/
theorem missingName?_undeclared {name : List Char} (hne : name ≠ [])
    (hblank : ∀ c ∈ name, isBlank c = false) (hmark : Char.ofNat 0x27 ∉ name) :
    missingName? ("variable".toList ++ ' ' :: (name ++ ' ' :: "not declared".toList)) =
      some name := by
  have hnone : ("variable".toList ++ ' ' :: (name ++ ' ' :: "not declared".toList)).contains
      (Char.ofNat 0x27) = false := by
    simp [hmark]
  have hfirst : "variable".toList.all (fun c => !isBlank c) = true := rfl
  rw [missingName?, hnone, if_neg (by simp), fields_append_blank (by simp) (by simpa using hfirst),
    fields_append_blank hne hblank]
  rfl

theorem ruleAdvice?_undeclared (hw : IsName w) :
    ruleAdvice? (ScopeError.undeclared (.text w)).message =
      some (declarationsOf (inLowerCase w)) := by
  obtain ⟨c, cs, hcons, hc, -⟩ := hw.start
  obtain ⟨d, ds, hlower, -⟩ := exists_lower_cons hc cs
  have hne : lower w.toList ≠ [] := by simp [hcons, hlower]
  have hchars : ∀ e ∈ lower w.toList, isWordChar e = true ∨ e = dotAbove := fun e he =>
    isWordChar_or_dot_of_mem_lower hw.chars he
  have hblank : ∀ e ∈ lower w.toList, isBlank e = false := by
    intro e he
    rcases hchars e he with hword | rfl
    · exact isBlank_of_isWordChar hword
    · rfl
  have hmark : Char.ofNat 0x27 ∉ lower w.toList := by
    intro he
    have hneither : ¬(isWordChar (Char.ofNat 0x27) = true ∨ Char.ofNat 0x27 = dotAbove) := by
      rw [isWordChar_of_ascii (by decide)]
      decide
    exact hneither (hchars _ he)
  have hphrase : hasPhrase "not declared".toList
      ("variable".toList ++ ' ' :: (lower w.toList ++ ' ' :: "not declared".toList)) = true := by
    rw [← Bool.not_eq_false, hasPhrase_eq_false_iff, not_not]
    exact ⟨"variable".toList ++ ' ' :: (lower w.toList ++ [' ']), [], by simp⟩
  unfold ruleAdvice?
  rw [lower_undeclared, if_pos hphrase, missingName?_undeclared hne hblank hmark]
  rfl

/-- What is advised declares the name if the name is in lower case, with the exception of a
string. -/
theorem declaresOnly_advice_iff (hw : IsName w) {source : String}
    (hsource : source ∈ declarationsOf (inLowerCase w)) : DeclaresOnly source w ↔
      inLowerCase w = w ∧ source ≠ "var string " ++ inLowerCase w ++ " = \"\";" := by
  have hother {source : String} (h : DeclaresOnly source w ↔ inLowerCase w = w)
      (hstart : ¬"var s".toList <+: source.toList) : DeclaresOnly source w ↔
        inLowerCase w = w ∧ source ≠ "var string " ++ inLowerCase w ++ " = \"\";" := by
    rw [h, and_iff_left]
    rintro rfl
    simp at hstart
  simp only [declarationsOf, List.mem_cons, List.not_mem_nil, or_false] at hsource
  rcases hsource with rfl | rfl | rfl | rfl
  · exact hother (declaresOnly_int_iff hw) (by simp)
  · exact hother (declaresOnly_float_iff hw) (by simp)
  · exact iff_of_false (not_declaresOnly_string hw w) fun h => h.2 rfl
  · exact hother (declaresOnly_cursor_iff hw) (by simp)

end

/-- The code is refused since the name is not declared. -/
def LacksName (code : String) (v : Value) : Prop :=
  ∃ tree, Node.ofText code = .ok tree ∧ tree.check = .error (.undeclared v)

theorem exists_isName_of_lacksName {code : String} {v : Value} (h : LacksName code v) :
    ∃ w, v = .text w ∧ IsName w := by
  obtain ⟨tree, htree, hcheck⟩ := h
  cases isOrdinary_of_check htree hcheck with
  | name hname hw => exact ⟨_, Option.some.inj hname, hw⟩

/-- For a name that is not declared four declarations are advised. Those of a variable with a number
and of a cursor declare the name if it is in lower case, and otherwise another one, or they cannot
be read. That of a string cannot be read. -/
theorem declaring_advice_iff {code : String} {v : Value} (h : LacksName code v) :
    ∃ w, v = .text w ∧
      ruleAdvice? (ScopeError.undeclared v).message = some (declarationsOf (inLowerCase w)) ∧
      ∀ source ∈ declarationsOf (inLowerCase w), (DeclaresOnly source w ↔
        inLowerCase w = w ∧ source ≠ "var string " ++ inLowerCase w ++ " = \"\";") := by
  obtain ⟨w, rfl, hw⟩ := exists_isName_of_lacksName h
  exact ⟨w, rfl, ruleAdvice?_undeclared hw, fun _ hsource => declaresOnly_advice_iff hw hsource⟩

theorem lacksName_x : LacksName "x = 1;" "x" := by
  have htokens : Token.ofText "x = 1;" = .ok [⟨.identifier, "x", 1, 1⟩, ⟨.assign, "=", 1, 3⟩,
      ⟨.number, .int 1, 1, 5⟩, ⟨.semicolon, ";", 1, 6⟩, ⟨.endOfInput, .absent, 1, 6⟩] := by
    decide +kernel
  exact ⟨.program [.assign "x" (.number (.int 1))], ofText_of_ofTokens htokens rfl, rfl⟩

theorem lacksName_capital : LacksName "X = 1;" "X" := by
  have htokens : Token.ofText "X = 1;" = .ok [⟨.identifier, "X", 1, 1⟩, ⟨.assign, "=", 1, 3⟩,
      ⟨.number, .int 1, 1, 5⟩, ⟨.semicolon, ";", 1, 6⟩, ⟨.endOfInput, .absent, 1, 6⟩] := by
    decide +kernel
  exact ⟨.program [.assign "X" (.number (.int 1))], ofText_of_ofTokens htokens rfl, rfl⟩

/-- The name `x` is in lower case, and all but the string declares it. -/
theorem declaring_advice_iff_lower : LacksName "x = 1;" "x" ∧
    ruleAdvice? "Variable x not declared" = some (declarationsOf "x") ∧
    ∀ source ∈ declarationsOf "x", (DeclaresOnly source "x" ↔ source ≠ "var string x = \"\";") := by
  have hlower : inLowerCase "x" = "x" := rfl
  obtain ⟨w, hw, hadvice, hall⟩ := declaring_advice_iff lacksName_x
  obtain rfl := Value.text.inj hw
  rw [hlower] at hadvice hall
  exact ⟨lacksName_x, hadvice, fun source hsource => by simpa using hall source hsource⟩

/-- For `X` nothing that is advised declares it, and for `x` the string cannot be declared. -/
theorem declaring_advice_wrong :
    (LacksName "X = 1;" "X" ∧ ruleAdvice? "Variable X not declared" = some (declarationsOf "x") ∧
      ∀ source ∈ declarationsOf "x", ¬DeclaresOnly source "X") ∧
    (LacksName "x = 1;" "x" ∧ ruleAdvice? "Variable x not declared" = some (declarationsOf "x") ∧
      "var string x = \"\";" ∈ declarationsOf "x" ∧ ¬DeclaresOnly "var string x = \"\";" "x") := by
  have hcapital : IsName "X" := isName_of_isAsciiWord (by decide) (by decide)
  have hx : IsName "x" := isName_of_isAsciiWord (by decide) (by decide)
  have hlowered : inLowerCase "X" = "x" := rfl
  have hlower : inLowerCase "x" = "x" := rfl
  have hadvised := ruleAdvice?_undeclared hcapital
  have hadvice := ruleAdvice?_undeclared hx
  rw [hlowered] at hadvised
  have hstring := not_declaresOnly_string hx "x"
  rw [hlower] at hadvice hstring
  refine ⟨⟨lacksName_capital, hadvised, fun source hsource h => ?_⟩,
    lacksName_x, hadvice, by decide, hstring⟩
  rw [← hlowered] at hsource
  have heq := ((declaresOnly_advice_iff hcapital hsource).mp h).1
  rw [hlowered] at heq
  exact absurd heq (by decide)

end Diagnosis

end DrawPlus
