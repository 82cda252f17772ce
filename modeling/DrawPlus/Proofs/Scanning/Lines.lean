import DrawPlus.Proofs.Scanning.Items

/-!
# Reading line by line

A text that can be read, and that does not end inside of a block comment, can be read as the first
lines of a longer text. What is read of the lines after it is what is read of them alone, with the
line numbers moved down (`ofText_lines`).

Two facts make it up. An item stays one when a line feed and anything else is added after it
(`Item.extend`), so nothing that is being read goes over the line feed. And what is read behind a
line feed depends on the text before it in the line numbers only (`outcome_below`).
-/

namespace DrawPlus

/-! ## Where a text ends -/

inductive Region where
  | code
  | lineComment
  | blockComment
deriving DecidableEq

/-- Where a text ends that begins in the region. -/
def Region.after : Region → List Char → Region
  | region, [] => region
  | .code, '/' :: '/' :: cs => Region.lineComment.after cs
  | .code, '/' :: '*' :: cs => Region.blockComment.after cs
  | .code, _ :: cs => Region.code.after cs
  | .lineComment, '\n' :: cs => Region.code.after cs
  | .lineComment, _ :: cs => Region.lineComment.after cs
  | .blockComment, '*' :: '/' :: cs => Region.code.after cs
  | .blockComment, _ :: cs => Region.blockComment.after cs

namespace Region

theorem after_code_cons {c : Char} {cs : List Char}
    (h : c = '/' → ∀ d ∈ ['/', '*'], cs.head? ≠ some d) :
    Region.code.after (c :: cs) = Region.code.after cs := by
  rw [after]
  · rintro ds rfl rfl
    exact h rfl '/' (by simp) rfl
  · rintro ds rfl rfl
    exact h rfl '*' (by simp) rfl

theorem after_code_append {w : List Char} (h : '/' ∉ w) (cs : List Char) :
    Region.code.after (w ++ cs) = Region.code.after cs := by
  induction w with
  | nil => rfl
  | cons c w ih =>
    rw [List.mem_cons, not_or] at h
    rw [List.cons_append, after_code_cons fun hc => absurd hc.symm h.1, ih h.2]

theorem after_lineComment {w : List Char} (h : '\n' ∉ w) (cs : List Char) :
    Region.lineComment.after (w ++ cs) = Region.lineComment.after cs := by
  induction w with
  | nil => rfl
  | cons c w ih =>
    rw [List.mem_cons, not_or] at h
    rw [List.cons_append, after, ih h.2]
    rintro rfl
    exact h.1 rfl

theorem after_blockComment_cons {c : Char} {cs : List Char}
    (h : ¬(c = '*' ∧ cs.head? = some '/')) :
    Region.blockComment.after (c :: cs) = Region.blockComment.after cs := by
  rw [after]
  rintro ds rfl rfl
  exact h ⟨rfl, rfl⟩

theorem after_blockComment_open {w : List Char} (h : ¬['*', '/'] <:+: w) :
    Region.blockComment.after w = .blockComment := by
  induction w with
  | nil => rfl
  | cons c w ih =>
    obtain ⟨hrest, hopen, -⟩ := Scan.open_of_not_infix_cons h
    rw [after_blockComment_cons hopen, ih hrest]

theorem after_blockComment_closed {w : List Char} (h : ¬['*', '/'] <:+: w) (cs : List Char) :
    Region.blockComment.after (w ++ '*' :: '/' :: cs) = Region.code.after cs := by
  induction w with
  | nil => simp [after]
  | cons c w ih =>
    obtain ⟨hrest, -, hopen⟩ := Scan.open_of_not_infix_cons h
    rw [List.cons_append, after_blockComment_cons (hopen _), ih hrest]

end Region

/-! ## Items before a line feed -/

/-- A text ends outside of block comments. -/
def Closed (cs : List Char) : Prop := Region.code.after cs ≠ .blockComment

theorem slash_notMem_of_isWordChar {w : List Char} (h : ∀ d ∈ w, isWordChar d = true) :
    '/' ∉ w := by
  intro hmem
  have hslash := h _ hmem
  simp [isWordChar_of_ascii] at hslash

theorem head?_append_feed {after more : List Char} {d : Char}
    (h : (after ++ '\n' :: more).head? = some d) : after.head? = some d ∨ d = '\n' := by
  cases after with
  | nil => exact .inr (by simpa using h.symm)
  | cons c after => exact .inl h

theorem EndsNumber.feed {after : List Char} (h : EndsNumber after) (more : List Char) :
    EndsNumber (after ++ '\n' :: more) := by
  intro d hd
  rcases head?_append_feed hd with hd | rfl
  · exact h d hd
  · exact Scan.isNumberChar_of_mem_fences (by simp [Scan.fences])

theorem EndsName.feed {after : List Char} (h : EndsName after) (more : List Char) :
    EndsName (after ++ '\n' :: more) := by
  intro d hd
  rcases head?_append_feed hd with hd | rfl
  · exact h d hd
  · simp [isWordChar_of_ascii]

theorem ne_head?_feed {after : List Char} {c : Char} (h : after.head? ≠ some c) (hc : c ≠ '\n')
    (more : List Char) : (after ++ '\n' :: more).head? ≠ some c := by
  intro hd
  rcases head?_append_feed hd with hd | rfl
  · exact h hd
  · exact hc rfl

theorem closed_append {w : List Char} (h : '/' ∉ w) (cs : List Char) :
    Closed (w ++ cs) ↔ Closed cs := by
  rw [Closed, Region.after_code_append h, Closed]

/-- What follows a gap ends outside of block comments if the gap and it do, and then lines can be
added. -/
theorem Gap.feed {w after : List Char} (h : Gap w after) (hclosed : Closed (w ++ after)) :
    Closed after ∧ ∀ more, Gap w (after ++ '\n' :: more) := by
  cases h with
  | @blank c after hc =>
    have hslash : '/' ∉ [c] := by
      rw [List.mem_singleton]
      rintro rfl
      simp at hc
    exact ⟨(closed_append hslash after).mp hclosed, fun more => .blank hc⟩
  | @line cs after hcs ha =>
    have hregion : Region.lineComment.after after ≠ .blockComment := by
      rw [← Region.after_lineComment hcs]
      simpa [Closed, Region.after] using hclosed
    rcases ha with rfl | ha
    · exact ⟨by simp [Closed, Region.after], fun more => .line hcs (.inr rfl)⟩
    · obtain ⟨after, rfl⟩ := List.head?_eq_some_iff.mp ha
      exact ⟨by simpa [Closed, Region.after] using hregion, fun more => .line hcs (.inr rfl)⟩
  | @block cs after hcs =>
    refine ⟨?_, fun more => .block hcs⟩
    rw [Closed, ← Region.after_blockComment_closed hcs]
    simpa [Closed, Region.after] using hclosed
  | unclosed hcs =>
    exact absurd (by simpa [Region.after] using Region.after_blockComment_open hcs) hclosed

/-- The same for all items. No lexeme has a slash in it but the operators of division. -/
theorem Item.feed {w after : List Char} {l : Option Lexeme} (h : Item w after l)
    (hclosed : Closed (w ++ after)) : Closed after ∧ ∀ more, Item w (after ++ '\n' :: more) l := by
  cases h with
  | gap hgap =>
    obtain ⟨hafter, hmore⟩ := hgap.feed hclosed
    exact ⟨hafter, fun more => .gap (hmore more)⟩
  | @words first more' after hf hm ha =>
    have hslash : '/' ∉ first.toList ++ Lexeme.dotted more' := by
      simp only [Lexeme.dotted, List.mem_append, List.mem_flatMap, List.mem_cons, not_or,
        not_exists, not_and]
      exact ⟨slash_notMem_of_isWordChar (Scan.isWordChar_of_isWord hf), fun w hw => ⟨by decide,
        slash_notMem_of_isWordChar (Scan.isWordChar_of_isWord (hm w hw))⟩⟩
    exact ⟨(closed_append hslash after).mp hclosed, fun more => .words hf hm (ha.feed more)⟩
  | integer hne hw ha hn =>
    have hslash := slash_notMem_of_isWordChar fun d hd => Scan.isWordChar_of_digit (hw d hd)
    exact ⟨(closed_append hslash after).mp hclosed, fun more => .integer hne hw (ha.feed more) hn⟩
  | @decimal whole fraction after x hne hwhole hfraction ha hx =>
    have hslash : '/' ∉ whole ++ '.' :: fraction := by
      simp only [List.mem_append, List.mem_cons, not_or]
      exact ⟨slash_notMem_of_isWordChar fun d hd => Scan.isWordChar_of_digit (hwhole d hd),
        by decide, slash_notMem_of_isWordChar fun d hd => Scan.isWordChar_of_digit (hfraction d hd)⟩
    exact ⟨(closed_append hslash after).mp hclosed, fun more =>
      .decimal hne hwhole hfraction (ha.feed more) hx⟩
  | @operator c k after hc hk hequal hcomment =>
    have hregion := Region.after_code_cons hcomment
    refine ⟨by rwa [Closed, ← hregion], fun more => .operator hc hk ?_ fun hslash d hd => ?_⟩
    · exact ne_head?_feed hequal (by decide) more
    · apply ne_head?_feed (hcomment hslash d hd)
      rintro rfl
      simp at hd
  | @operatorEqual c k after hc hk =>
    have hregion := @Region.after_code_cons c ('=' :: after) (by simp)
    have hregion' := @Region.after_code_cons '=' after (by simp)
    exact ⟨by rwa [Closed, ← hregion', ← hregion], fun more => .operatorEqual hc hk⟩
  | @delimiter c k after hk =>
    have hslash : '/' ∉ [c] := by
      rw [List.mem_singleton]
      rintro rfl
      cases hk
    exact ⟨(closed_append hslash after).mp hclosed, fun more => .delimiter hk⟩

namespace Scan

/-- A text that can be read and ends outside of block comments is read as before when lines are
added, up to its closing token. -/
theorem outcome_feed (before rest : List Char) {ts : List Token} (h : outcome before rest = .ok ts)
    (hclosed : Closed rest) : ∃ body last, ts = body ++ [last] ∧ last.kind = .endOfInput ∧
      ∀ more, outcome before (rest ++ '\n' :: more) =
        (outcome (before ++ rest ++ ['\n']) more).map (body ++ ·) := by
  induction before, rest using reading_induction generalizing ts with
  | done before =>
    rw [outcome_end] at h
    cases h
    refine ⟨[], _, rfl, rfl, fun more => ?_⟩
    rw [List.nil_append, outcome_blank rfl, List.append_nil]
    cases outcome (before ++ ['\n']) more <;> rfl
  | item before w after l hitem ih =>
    obtain ⟨hafter, hmore⟩ := hitem.feed hclosed
    rw [outcome_item hitem] at h
    cases hus : outcome (before ++ w) after with
    | error e =>
      rw [hus] at h
      cases h
    | ok us =>
      rw [hus] at h
      cases h
      obtain ⟨body, last, rfl, hlast, heq⟩ := ih hus hafter
      refine ⟨l.elim [] (Lexeme.behind before) ++ body, last, by simp, hlast, fun more => ?_⟩
      rw [List.append_assoc, outcome_item (hmore more), heq, map_append_map,
        List.append_assoc before]
  | mark before d more' hd ih =>
    have hslash : '/' ∉ ['!'] := by decide
    rw [outcome_mark hd] at h
    obtain ⟨body, last, rfl, hlast, heq⟩ := ih h ((closed_append hslash _).mp hclosed)
    refine ⟨body, last, rfl, hlast, fun more => ?_⟩
    have hmore := heq more
    simp only [List.cons_append] at hmore ⊢
    rw [outcome_mark hd, hmore]
    simp
  | halt before rest read f hhalt =>
    rw [outcome_halt hhalt] at h
    cases h

end Scan

/-! ## Line numbers behind a line feed -/

/-- A token so many lines further down. -/
def Token.below (lines : ℕ) (t : Token) : Token := { t with line := t.line + lines }

/-- An error so many lines further down. An error that has no place is left as it is. -/
def LexicalError.below (lines : ℕ) : LexicalError → LexicalError
  | .unexpected c line column => .unexpected c (line + lines) column
  | .strayDot line column => .strayDot (line + lines) column
  | .secondPoint line column => .secondPoint (line + lines) column
  | .numeral error => .numeral error

namespace Text

theorem endLine_append_feed (cs ds : List Char) :
    endLine (cs ++ '\n' :: ds) = endLine ds + endLine cs := by
  rw [endLine_append, lines_feed, List.tail_cons, endLine, endLine, Nat.add_comm]

theorem endColumn_append_feed (cs ds : List Char) :
    endColumn (cs ++ '\n' :: ds) = endColumn ds := by
  obtain ⟨l, ls, hl⟩ := List.exists_cons_of_ne_nil (lines_ne_nil ds)
  simp [endColumn, lastLine, lines_append, lines_feed, hl, List.getLast?_cons]

end Text

theorem Token.behind_below (cs ds : List Char) (k : Kind) (v : Value) :
    Token.behind (cs ++ '\n' :: ds) k v = (Token.behind ds k v).below (Text.endLine cs) := by
  simp [Token.behind, Token.below, Text.endLine_append_feed, Text.endColumn_append_feed]

theorem Fault.after_below (cs read : List Char) (f : Fault) :
    f.after (cs ++ '\n' :: read) = (f.after read).below (Text.endLine cs) := by
  cases f <;> simp [Fault.after, LexicalError.below, Text.endLine_append_feed,
    Text.endColumn_append_feed]

namespace Lexeme

theorem dottedBehind_below (cs ds : List Char) (more : List String) :
    dottedBehind (cs ++ '\n' :: ds) more =
      (dottedBehind ds more).map (Token.below (Text.endLine cs)) := by
  induction more generalizing ds with
  | nil => rfl
  | cons w more ih =>
    have hpoint := Token.behind_below cs (ds ++ ['.']) (.ofWord w) w
    have hrest := ih (ds ++ '.' :: w.toList)
    simp only [dottedBehind, List.append_assoc, List.cons_append, List.map_cons] at hpoint hrest ⊢
    rw [hpoint, hrest, Token.behind_below]

theorem behind_below (cs ds : List Char) (l : Lexeme) :
    l.behind (cs ++ '\n' :: ds) = (l.behind ds).map (Token.below (Text.endLine cs)) := by
  cases l with
  | words first more =>
    have hrest := dottedBehind_below cs (ds ++ first.toList) more
    simp only [behind, List.append_assoc, List.cons_append, List.map_cons] at hrest ⊢
    rw [hrest, Token.behind_below]
  | number v => simp [behind, Token.behind_below]
  | sign k => simp [behind, Token.behind_below]

end Lexeme

namespace Scan

/-- What is read behind a line feed is what is read there by itself, so many lines further down. -/
theorem outcome_below (cs before rest : List Char) :
    outcome (cs ++ '\n' :: before) rest =
      ((outcome before rest).map (List.map (Token.below (Text.endLine cs)))).mapError
        (LexicalError.below (Text.endLine cs)) := by
  induction before, rest using reading_induction with
  | done before =>
    simp [outcome_end, Except.map, Except.mapError, Token.below, Text.endLine_append_feed,
      Text.endColumn_append_feed]
  | item before w after l hitem ih =>
    have htokens : l.elim [] (Lexeme.behind (cs ++ '\n' :: before)) =
        (l.elim [] (Lexeme.behind before)).map (Token.below (Text.endLine cs)) := by
      cases l with
      | none => rfl
      | some l => exact Lexeme.behind_below cs before l
    have hnext := ih
    rw [← List.cons_append, ← List.append_assoc] at hnext
    rw [outcome_item hitem, outcome_item hitem, hnext, htokens]
    cases outcome (before ++ w) after <;> simp [Except.map, Except.mapError]
  | mark before d more hd ih =>
    rw [outcome_mark hd, outcome_mark hd, ← ih, List.append_assoc, List.cons_append]
  | halt before rest read f hhalt =>
    have hfault := Fault.after_below cs (before ++ read) f
    rw [outcome_halt hhalt, outcome_halt hhalt, List.append_assoc, List.cons_append, hfault]
    rfl

end Scan

/-- The tokens of a text with lines added are those of the text, without the closing one, and those
of the added lines, further down; and an error in the added lines is the same error further down. -/
theorem ofText_lines {first : String} {ts : List Token} {last : Token}
    (h : Token.ofText first = .ok (ts ++ [last])) (hclosed : Closed first.toList)
    (second : String) :
    let down := 1 + first.toList.count '\n'
    last.kind = .endOfInput ∧ Token.ofText (first ++ "\n" ++ second) =
      ((Token.ofText second).map fun us => ts ++ us.map (Token.below down)).mapError
        (LexicalError.below down) := by
  intro down
  have hdown : down = Text.endLine first.toList := by
    rw [Text.endLine_eq_count, Nat.add_comm]
  rw [Scan.ofText_eq_outcome] at h
  obtain ⟨body, last', hts, hlast, heq⟩ := Scan.outcome_feed [] first.toList h hclosed
  obtain ⟨rfl, rfl⟩ := List.append_singleton_inj.mp hts
  have htext : (first ++ "\n" ++ second).toList = first.toList ++ '\n' :: second.toList := by simp
  refine ⟨hlast, ?_⟩
  rw [Scan.ofText_eq_outcome, Scan.ofText_eq_outcome, htext, heq, List.nil_append,
    Scan.outcome_below, hdown]
  cases Scan.outcome [] second.toList <;> rfl

/-- A text that ends in a line comment, and an error in the second of two lines after it. -/
theorem ofText_lines_error : Token.ofText "a.b /= 2\n//" = .ok ([⟨.identifier, "a", 1, 1⟩,
      ⟨.dot, ".", 1, 2⟩, ⟨.identifier, "b", 1, 3⟩, ⟨.slashEqual, "/=", 1, 5⟩,
      ⟨.number, .int 2, 1, 8⟩] ++ [⟨.endOfInput, .absent, 2, 2⟩]) ∧
    Closed "a.b /= 2\n//".toList ∧ Token.ofText "x\n!y" = .error (.unexpected 'y' 2 2) ∧
    Token.ofText ("a.b /= 2\n//" ++ "\n" ++ "x\n!y") = .error (.unexpected 'y' 4 2) := by
  have hfirst : Token.ofText "a.b /= 2\n//" = .ok ([⟨.identifier, "a", 1, 1⟩, ⟨.dot, ".", 1, 2⟩,
      ⟨.identifier, "b", 1, 3⟩, ⟨.slashEqual, "/=", 1, 5⟩, ⟨.number, .int 2, 1, 8⟩] ++
      [⟨.endOfInput, .absent, 2, 2⟩]) := by decide +kernel
  have hclosed : Closed "a.b /= 2\n//".toList := by simp [Closed, Region.after]
  have hsecond : Token.ofText "x\n!y" = .error (.unexpected 'y' 2 2) := by decide +kernel
  have hlines := (ofText_lines hfirst hclosed "x\n!y").2
  rw [hsecond] at hlines
  exact ⟨hfirst, hclosed, hsecond, hlines⟩

end DrawPlus
