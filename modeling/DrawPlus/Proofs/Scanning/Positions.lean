import DrawPlus.Proofs.Scanning.Items

/-!
# The tokens of a text and where they stand

The tokens of a text account for all of it: what is in none of their lexemes is in a blank or a
comment, exclamation marks directly before a delimiter apart. And each token carries the place of
its lexeme, the lexemes stand one after the other without overlapping, and the closing token carries
the place where the text ends. Both are read off the pieces into which a text is cut
(`cut_of_ofText`).
-/

namespace DrawPlus

open Piece

variable {before w : List Char} {ps : List Piece} {t : Token}

/-! ## A text is cut into pieces -/

namespace Scan

/-- A lexeme that is no number, right behind a text. -/
theorem passed_behind {before w after : List Char} {k : Kind} (hk : k ≠ .number) (hw : w ≠ [])
    (hfeed : '\n' ∉ w) :
    Passed before w after [.behind before k (.text (String.ofList w))] :=
  passed_lexeme (.text hk rfl) ⟨hw, hfeed, rfl, rfl, fun h => absurd h hk⟩

theorem passed_word {w : String} (hw : IsWord w) (before after : List Char) :
    Passed before w.toList after [.behind before (.ofWord w) w] := by
  have hfeed : '\n' ∉ w.toList := fun hmem =>
    ne_feed_of_isWordChar (isWordChar_of_isWord hw _ hmem) rfl
  obtain ⟨c, rest, hlist, -⟩ := hw
  have hpassed := @passed_behind before _ after _ (ofWord_ne_number w) (by simp [hlist]) hfeed
  rwa [String.ofList_toList] at hpassed

theorem passed_dotted {more : List String} (hm : ∀ w ∈ more, IsWord w) (before after : List Char) :
    Passed before (Lexeme.dotted more) after (Lexeme.dottedBehind before more) := by
  induction more generalizing before with
  | nil => exact ⟨[], rfl, rfl, trivial⟩
  | cons w more ih =>
    rw [List.forall_mem_cons] at hm
    have hpoint : Passed before ['.'] (w.toList ++ Lexeme.dotted more ++ after)
        [.behind before .dot "."] := passed_behind (by simp) (by simp) (by simp)
    have hword := passed_word hm.1 (before ++ ['.']) (Lexeme.dotted more ++ after)
    have hmore := ih hm.2 (before ++ ['.'] ++ w.toList)
    simpa [Lexeme.dotted, Lexeme.dottedBehind] using hpoint.append (hword.append hmore)

/-- A run of digits and points that denotes a value, with no further digit or point at its ends. -/
theorem passed_number {after : List Char} {v : Value} (hw : w ≠ [])
    (hall : ∀ c ∈ w, isNumberChar c = true) (hv : Value.Denoted w v)
    (ha : Apart before (w ++ after)) (hafter : EndsNumber after) :
    Passed before w after [.behind before .number v] := by
  have hfeed : '\n' ∉ w := by
    intro hmem
    have hnumber := hall _ hmem
    rw [isNumberChar_of_mem_fences (by simp [fences])] at hnumber
    cases hnumber
  obtain ⟨c, cs, rfl⟩ := List.exists_cons_of_ne_nil hw
  have hbefore : ∀ d, before.getLast? = some d → isNumberChar d = false := by
    intro d hd
    by_contra hnumber
    have hnot := ha d c hd rfl (by simpa using hnumber)
    rw [hall c (by simp)] at hnot
    cases hnot
  exact passed_lexeme (.number rfl hall hv) ⟨hw, hfeed, rfl, rfl, fun _ => ⟨hbefore, hafter⟩⟩

theorem apart_of_gap {after : List Char} (h : Gap w after) (before : List Char) :
    Apart (before ++ w) after := by
  cases h with
  | blank hc =>
    apply apart_of_fences (by simp)
    simpa using mem_fences_of_isGap (isGap_iff.mpr hc)
  | line hcs ha =>
    refine apart_of_head fun d hd => isNumberChar_of_mem_fences ?_
    obtain rfl : d = '\n' := by
      rcases ha with rfl | ha
      · cases hd
      · simpa [ha] using hd.symm
    simp [fences]
  | @block cs _ hcs =>
    have hfences : Apart (before ++ '/' :: '*' :: cs ++ ['*', '/']) after :=
      apart_of_fences (by simp) (by simp [fences]) after
    simpa using hfences
  | unclosed hcs => exact apart_nil _

/-- An item is made of pieces with the tokens of its lexeme, and no number goes over its end. -/
theorem passed_item {after : List Char} {l : Option Lexeme} (h : Item w after l)
    (ha : Apart before (w ++ after)) :
    Passed before w after (l.elim [] (Lexeme.behind before)) ∧ Apart (before ++ w) after := by
  cases h with
  | gap hgap =>
    have hpassed : Passed before w after [] :=
      ⟨[.gap w], by simp [Piece.text], rfl, hgap, trivial, trivial⟩
    exact ⟨hpassed, apart_of_gap hgap before⟩
  | @words first more _ hf hm hafter =>
    have hfirst := passed_word hf before (Lexeme.dotted more ++ after)
    refine ⟨hfirst.append (passed_dotted hm _ after), apart_of_head fun d hd => ?_⟩
    exact isNumberChar_of_word (hafter d hd).1 (hafter d hd).2
  | integer hne hw hafter hn =>
    have hall : ∀ d ∈ w, isNumberChar d = true := fun d hd => isNumberChar_of_isDigit (hw d hd)
    exact ⟨passed_number hne hall (.integer hn) ha hafter, apart_of_head hafter⟩
  | @decimal whole fraction _ x hne hwhole hfraction hafter hx =>
    have hall : ∀ d ∈ whole ++ '.' :: fraction, isNumberChar d = true := by
      rw [List.forall_mem_append, List.forall_mem_cons]
      exact ⟨fun d hd => isNumberChar_of_isDigit (hwhole d hd), rfl,
        fun d hd => isNumberChar_of_isDigit (hfraction d hd)⟩
    exact ⟨passed_number (by simp) hall (.decimal hx) ha hafter, apart_of_head hafter⟩
  | @operator c k _ hc hk _ _ =>
    obtain ⟨hfence, hfeed, -, -⟩ := signs_spec c (isSignStart_iff.mp hc)
    have hsign := sign?_of_ofSign? hk
    have hpassed := @passed_behind before [c] after k (ne_number_of_sign? hsign) (by simp)
      (by simpa using Ne.symm hfeed)
    exact ⟨by simpa [Lexeme.behind, hsign] using hpassed,
      apart_of_fences (by simp) (by simpa) after⟩
  | @operatorEqual c k _ hc hk =>
    obtain ⟨hfence, hfeed, -, -⟩ := signs_spec c (isSignStart_iff.mp hc)
    have hequal : '=' ∈ fences := by simp [fences]
    have hsign := sign?_of_ofSignEqual? hk
    have hpassed := @passed_behind before [c, '='] after k (ne_number_of_sign? hsign) (by simp)
      (by simp [Ne.symm hfeed])
    refine ⟨by simpa [Lexeme.behind, hsign] using hpassed, apart_of_fences (by simp) ?_ after⟩
    simp [hfence, hequal]
  | @delimiter c k _ hk =>
    obtain ⟨hfence, hfeed⟩ := mem_fences_of_ofDelimiter? hk
    have hsign := sign?_of_ofDelimiter? hk
    have hpassed := @passed_behind before [c] after k (ne_number_of_sign? hsign) (by simp)
      (by simpa using Ne.symm hfeed)
    exact ⟨by simpa [Lexeme.behind, hsign] using hpassed,
      apart_of_fences (by simp) (by simpa) after⟩

/-- A text that can be read is cut into pieces, up to the closing token, which stands at its end. -/
theorem cut_outcome (before rest : List Char) : ∀ {ts : List Token}, outcome before rest = .ok ts →
    Apart before rest → ∃ us, Passed before rest [] us ∧
      ts = us ++ [⟨.endOfInput, .absent, Text.endLine (before ++ rest),
        Text.endColumn (before ++ rest)⟩] := by
  induction before, rest using reading_induction with
  | done before =>
    intro ts h ha
    rw [outcome_end] at h
    cases h
    exact ⟨[], ⟨[], rfl, rfl, trivial⟩, by simp⟩
  | item before w after l hitem ih =>
    intro ts h ha
    obtain ⟨hpassed, hapart⟩ := passed_item hitem ha
    obtain ⟨more, hmore, rfl⟩ := outcome_item_eq_ok hitem h
    obtain ⟨us, hus, rfl⟩ := ih hmore hapart
    exact ⟨_, Passed.append (by simpa using hpassed) hus, by simp⟩
  | mark before d more hd ih =>
    intro ts h ha
    rw [outcome_mark hd] at h
    have hmark : Passed before ['!'] (d :: more ++ []) [] :=
      ⟨[.mark], rfl, rfl, ⟨d, rfl, hd⟩, trivial, trivial⟩
    obtain ⟨us, hus, rfl⟩ := ih h (apart_of_fences (by simp) (by simp [fences]) _)
    exact ⟨us, hmark.append hus, by simp⟩
  | halt before rest read f hhalt =>
    intro ts h ha
    rw [outcome_halt hhalt] at h
    cases h

end Scan

theorem cut_of_ofText {source : String} {ts : List Token} (h : Token.ofText source = .ok ts) :
    ∃ ps, textOf ps = source.toList ∧ Cut [] ps [] ∧ ts = (lexemesOf ps).map Prod.fst ++
      [⟨.endOfInput, .absent, Text.endLine source.toList, Text.endColumn source.toList⟩] := by
  have hstart : Scan.Apart [] source.toList := by
    intro c d hc
    cases hc
  rw [Scan.ofText_eq_outcome] at h
  obtain ⟨us, ⟨ps, htext, rfl, hcut⟩, rfl⟩ := Scan.cut_outcome [] source.toList h hstart
  exact ⟨ps, htext, hcut, rfl⟩

/-- The closing token is the last one and the only one of its kind. -/
theorem inside_of_ofText {source : String} {body : List Token}
    (h : Token.ofText source = .ok (body ++ [t])) : Token.Inside body := by
  obtain ⟨body', last, heq, -, hbody⟩ := lexed_of_ofText h
  obtain ⟨rfl, -⟩ := List.append_inj' heq rfl
  exact fun u hu => (hbody u hu).kind_ne_endOfInput

/-! ## No character is lost -/

namespace Piece

/-- Each piece is what it is called, with the later pieces after it. -/
def Fitting : List Piece → Prop
  | [] => True
  | p :: ps => p.Fits (textOf ps) ∧ Fitting ps

theorem Cut.fitting (h : Cut before ps []) : Fitting ps := by
  induction ps generalizing before with
  | nil => trivial
  | cons p ps ih =>
    obtain ⟨hp, -, hps⟩ := h
    constructor
    · simpa using hp
    · exact ih hps

theorem Fitting.infix_of_mark (h : Fitting ps) (hm : .mark ∈ ps) :
    ∃ d, (Kind.ofDelimiter? d).isSome = true ∧ ['!', d] <:+: textOf ps := by
  induction ps with
  | nil => simp at hm
  | cons p ps ih =>
    rcases List.mem_cons.mp hm with rfl | hm
    · obtain ⟨⟨d, hd, hdelimiter⟩, -⟩ := h
      obtain ⟨rest, hrest⟩ := List.head?_eq_some_iff.mp hd
      exact ⟨d, hdelimiter, [], rest, by simp [Piece.text, hrest]⟩
    · obtain ⟨d, hdelimiter, hinfix⟩ := ih h.2 hm
      exact ⟨d, hdelimiter, hinfix.trans (List.suffix_append _ _).isInfix⟩

end Piece

/-- The text is made of the lexemes of its tokens, in order, and of gaps. Only where an exclamation
mark stands directly before a delimiter can there be a further piece, the mark. -/
theorem ofText_pieces {source : String} {ts : List Token} (h : Token.ofText source = .ok ts) :
    ∃ ps, textOf ps = source.toList ∧ Fitting ps ∧
      (lexemesOf ps).map Prod.fst = ts.filter (·.kind ≠ .endOfInput) ∧
      ((∀ d, (Kind.ofDelimiter? d).isSome = true → ¬['!', d] <:+: source.toList) → .mark ∉ ps) := by
  obtain ⟨ps, htext, hcut, rfl⟩ := cut_of_ofText h
  refine ⟨ps, htext, hcut.fitting, ?_, ?_⟩
  · have hinside := inside_of_ofText h
    rw [List.filter_append, List.filter_eq_self.mpr fun t ht => decide_eq_true (hinside t ht)]
    simp
  · intro hnone hm
    obtain ⟨d, hdelimiter, hinfix⟩ := hcut.fitting.infix_of_mark hm
    exact hnone d hdelimiter (htext ▸ hinfix)

/-- A word, a comment, a mark that is passed over, a delimiter and a comment. -/
theorem ofText_pieces_mark : ∃ ts, Token.ofText "a/*b*/!;// c" = .ok ts ∧
    ∃ ps, textOf ps = "a/*b*/!;// c".toList ∧ Fitting ps ∧
      (lexemesOf ps).map Prod.fst = ts.filter (·.kind ≠ .endOfInput) ∧
      ((∀ d, (Kind.ofDelimiter? d).isSome = true → ¬['!', d] <:+: "a/*b*/!;// c".toList) →
        .mark ∉ ps) := by
  have h : Token.ofText "a/*b*/!;// c" = .ok [⟨.identifier, "a", 1, 1⟩, ⟨.semicolon, ";", 1, 8⟩,
      ⟨.endOfInput, .absent, 1, 12⟩] := by decide +kernel
  exact ⟨_, h, ofText_pieces h⟩

/-- A text of two characters has one token, of one character, and the other is in no gap. -/
theorem ofText_mark_lost : Token.ofText "!;" = .ok [⟨.semicolon, ";", 1, 2⟩,
      ⟨.endOfInput, .absent, 1, 2⟩] ∧
    ¬∃ ps, textOf ps = "!;".toList ∧ Fitting ps ∧
      (lexemesOf ps).map Prod.fst = [⟨.semicolon, ";", 1, 2⟩] ∧ .mark ∉ ps := by
  constructor
  · decide +kernel
  · rintro ⟨ps, htext, hfit, htokens, hmark⟩
    have hlist : "!;".toList = ['!', ';'] := by decide
    rw [hlist] at htext
    -- whatever the first piece is, it does not begin with the exclamation mark
    cases ps with
    | nil => simp at htext
    | cons p ps =>
      cases p with
      | lexeme t w =>
        obtain ⟨rfl, -⟩ : t = ⟨.semicolon, ";", 1, 2⟩ ∧ _ := by simpa using htokens
        cases hfit.1 with
        | text _ hvalue =>
          obtain rfl : [';'] = w := by simpa using congrArg String.toList (Value.text.inj hvalue)
          simp [Piece.text] at htext
        | number hk _ _ => cases hk
      | gap w =>
        have hgap : Gap w (textOf ps) := hfit.1
        rw [textOf_cons] at htext
        generalize textOf ps = after at hgap htext
        cases hgap with
        | blank hc =>
          obtain ⟨rfl, -⟩ : _ = '!' ∧ _ := by simpa [Piece.text] using htext
          simp at hc
        | line _ _ | block _ | unclosed _ => simp [Piece.text] at htext
      | mark => simp at hmark

/-! ## Places -/

/-- The word is the lexeme of the token and stands at the token's place: on its line, from its
column on. If it is a number, it is a whole run of digits and points. -/
def Token.StandsIn (source : List Char) (t : Token) (w : List Char) : Prop :=
  ∃ (k : ℕ) (left right : List Char),
    (Text.lines source)[k]? = some (left ++ w ++ right) ∧ t.line = k + 1 ∧
    t.column = left.length + 1 ∧ w ≠ [] ∧ t.Spelled w ∧
    (t.kind = .number → (∀ c, left.getLast? = some c → isNumberChar c = false) ∧
      ∀ c, right.head? = some c → isNumberChar c = false)

/-- The first token's word ends before the second token's word begins. -/
def Precedes (e f : Token × List Char) : Prop :=
  e.1.line < f.1.line ∨ e.1.line = f.1.line ∧ e.1.column + e.2.length ≤ f.1.column

/-- The token stands after the text. -/
def Token.After (before : List Char) (t : Token) : Prop :=
  (Text.endLine before : Int) < t.line ∨
    (Text.endLine before : Int) = t.line ∧ (Text.endColumn before : Int) < t.column

theorem Token.After.of_append (h : t.After (before ++ w)) : t.After before := by
  have hplace := Text.place_append before w
  unfold Token.After at *
  omega

theorem standsIn_of_placed {after : List Char} (hw : t.Spelled w)
    (h : (Piece.lexeme t w).Placed before after) : t.StandsIn (before ++ (w ++ after)) w := by
  obtain ⟨hne, hfeed, hline, hcolumn, hnumber⟩ := h
  refine ⟨Text.endLine before - 1, Text.lastLine before, Text.firstLine after,
    Text.line_of_word before after hfeed, ?_, hcolumn, hne, hw, fun hk => ⟨?_, ?_⟩⟩
  · have hpos : 0 < Text.endLine before := List.length_pos_of_ne_nil (Text.lines_ne_nil before)
    omega
  · intro c hc
    exact (hnumber hk).1 c (Text.getLast?_lastLine hc)
  · intro c hc
    exact (hnumber hk).2 c (Text.head?_firstLine hc)

theorem standsIn_of_cut {after : List Char} (h : Cut before ps after) :
    ∀ e ∈ lexemesOf ps, e.1.StandsIn (before ++ (textOf ps ++ after)) e.2 := by
  induction ps generalizing before with
  | nil => simp
  | cons p ps ih =>
    obtain ⟨hfits, hplaced, hps⟩ := h
    have hrest := ih hps
    simp only [List.append_assoc] at hrest
    cases p with
    | lexeme t w =>
      rw [lexemesOf_lexeme, List.forall_mem_cons]
      constructor
      · simpa [Piece.text] using standsIn_of_placed hfits hplaced
      · simpa using hrest
    | gap w => simpa using hrest
    | mark => simpa using hrest

/-- The lexemes of a cut stand after what is before it, each after the last. -/
theorem precedes_of_cut {after : List Char} (h : Cut before ps after) :
    (∀ e ∈ lexemesOf ps, e.1.After before) ∧ (lexemesOf ps).Pairwise Precedes := by
  induction ps generalizing before with
  | nil => simp
  | cons p ps ih =>
    obtain ⟨-, hplaced, hps⟩ := h
    obtain ⟨hafter, hpairs⟩ := ih hps
    have hpassed : ∀ e ∈ lexemesOf ps, e.1.After before := fun e he => (hafter e he).of_append
    cases p with
    | lexeme t w =>
      obtain ⟨-, hfeed, hline, hcolumn, -⟩ := hplaced
      rw [lexemesOf_lexeme, List.forall_mem_cons, List.pairwise_cons]
      refine ⟨⟨?_, hpassed⟩, ?_, hpairs⟩
      · right
        simp only
        omega
      · intro e he
        have hplace := hafter e he
        simp only [Token.After, Piece.text, Text.endLine_append_of_notMem hfeed,
          Text.endColumn_append_of_notMem hfeed] at hplace
        unfold Precedes
        simp only
        omega
    | gap w => exact ⟨by simpa using hpassed, hpairs⟩
    | mark => exact ⟨by simpa using hpassed, hpairs⟩

/-- Every token but the last has its lexeme at its place, the lexemes do not overlap, and the last
token is the closing one, with the number of lines and the length of the last line. -/
theorem ofText_positions {source : String} {ts : List Token} (h : Token.ofText source = .ok ts) :
    ∃ body : List (Token × List Char),
      ts = body.map Prod.fst ++ [⟨.endOfInput, .absent, (Text.lines source.toList).length,
        ((Text.lines source.toList).getLastD []).length⟩] ∧
      (∀ e ∈ body, e.1.kind ≠ .endOfInput ∧ e.1.StandsIn source.toList e.2) ∧
      body.Pairwise Precedes := by
  obtain ⟨ps, htext, hcut, rfl⟩ := cut_of_ofText h
  refine ⟨lexemesOf ps, rfl, fun e he => ⟨?_, ?_⟩, (precedes_of_cut hcut).2⟩
  · exact inside_of_ofText h e.1 (List.mem_map_of_mem he)
  · simpa [htext] using standsIn_of_cut hcut e he

/-- Two lines with a number, an operator of two characters and a comment. -/
theorem ofText_positions_lines : ∃ ts, Token.ofText "x+=2.5;\n /*\n*/ y" = .ok ts ∧
    ∃ body : List (Token × List Char),
      ts = body.map Prod.fst ++ [⟨.endOfInput, .absent,
        (Text.lines "x+=2.5;\n /*\n*/ y".toList).length,
        ((Text.lines "x+=2.5;\n /*\n*/ y".toList).getLastD []).length⟩] ∧
      (∀ e ∈ body, e.1.kind ≠ .endOfInput ∧ e.1.StandsIn "x+=2.5;\n /*\n*/ y".toList e.2) ∧
      body.Pairwise Precedes := by
  have h : (Token.ofText "x+=2.5;\n /*\n*/ y").isOk = true := by decide +kernel
  cases hs : Token.ofText "x+=2.5;\n /*\n*/ y" with
  | ok ts => exact ⟨ts, rfl, ofText_positions hs⟩
  | error e =>
    rw [hs] at h
    cases h

end DrawPlus
