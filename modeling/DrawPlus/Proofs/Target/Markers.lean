import DrawPlus.Proofs.Parsing.ReadBack
import DrawPlus.Proofs.Target.Traces

/-!
# The markers at the end of a program

After its statements, the code of a program shows cursors once more, so that their markers are not
hidden by shapes. It does so for every statement of the program that shows a cursor, wherever it
stands: for a cursor that is shown in a block, although the block may not be executed, and as often
as there are such statements.

Which cursors have been shown by then in every run can be read off the program (`surelyShowsAll`).
Those that are shown by a statement outside of all blocks are among them.
-/

namespace DrawPlus

namespace Node

mutual

/-- The statement shows the cursor whatever its tests give. -/
def surelyShows (w : String) : Node → Bool
  | .branch _ body arms otherwise =>
    surelyShowsAll w body && (surelyShowsArms w arms && surelyShowsOtherwise w otherwise)
  | n => n.shows.contains w

def surelyShowsAll (w : String) : List Node → Bool
  | [] => false
  | n :: ns => n.surelyShows w || surelyShowsAll w ns

def surelyShowsArms (w : String) : List (Node × List Node) → Bool
  | [] => true
  | (_, body) :: arms => surelyShowsAll w body && surelyShowsArms w arms

def surelyShowsOtherwise (w : String) : Option (List Node) → Bool
  | none => false
  | some block => surelyShowsAll w block

end

theorem surelyShows_of_shows {n : Node} {w : String} (h : w ∈ n.shows) :
    n.surelyShows w = true := by
  cases n with
  | branch => cases h
  | _ => exact List.contains_iff_mem.mpr h

/-- A cursor that is shown outside of all blocks is surely shown. -/
theorem surelyShowsAll_of_mem {ns : List Node} {w : String} (h : w ∈ ns.flatMap shows) :
    surelyShowsAll w ns = true := by
  induction ns with
  | nil => cases h
  | cons n ns ih =>
    rw [List.flatMap_cons, List.mem_append] at h
    rw [surelyShowsAll, Bool.or_eq_true]
    exact h.imp surelyShows_of_shows ih

end Node

namespace Target

open Node

def showsCursor (w : String) (s : Simple) : Bool := s.shown.contains w

theorem showsCursor_of_translates {n : Node} {s : Simple} (h : Translates n (.simple s))
    (w : String) : showsCursor w s = n.surelyShows w := by
  have hshown : s.shown = n.flat.flatMap shows := (accounts_of_translates .names h).shown_eq
  rw [showsCursor, hshown]
  cases h with
  | start h => cases h <;> rfl
  | _ => simp [flat, surelyShows]

mutual

theorem always_of_translates {n : Node} {s : Stmt} (h : Translates n s) (w : String) :
    s.always (showsCursor w) = n.surelyShows w := by
  match s, h with
  | .simple _, h => exact showsCursor_of_translates h w
  | .branch .., .branch _ hb ha ho =>
    rw [Stmt.always, surelyShows, always_of_translatesAll hb w, always_of_translatesArms ha w,
      always_of_translatesOtherwise ho w]
  | .whileLoop .., .whileLoop .. => rfl
  | .forLoop .., .forLoop hi _ _ _ => cases hi <;> rfl

theorem always_of_translatesAll {ns : List Node} {ss : List Stmt} (h : TranslatesAll ns ss)
    (w : String) : Stmt.alwaysAll (showsCursor w) ss = surelyShowsAll w ns := by
  match h with
  | .nil => rfl
  | .cons hn hns =>
    rw [Stmt.alwaysAll, surelyShowsAll, always_of_translates hn w, always_of_translatesAll hns w]

theorem always_of_translatesArms {arms : List (Node × List Node)}
    {arms' : List (Expr × List Stmt)} (h : TranslatesArms arms arms') (w : String) :
    Stmt.alwaysArms (showsCursor w) arms' = surelyShowsArms w arms := by
  match h with
  | .nil => rfl
  | .cons _ hb ha =>
    rw [Stmt.alwaysArms, surelyShowsArms, always_of_translatesAll hb w,
      always_of_translatesArms ha w]

theorem always_of_translatesOtherwise {otherwise : Option (List Node)}
    {otherwise' : Option (List Stmt)} (h : TranslatesOtherwise otherwise otherwise') (w : String) :
    Stmt.alwaysOtherwise (showsCursor w) otherwise' = surelyShowsOtherwise w otherwise := by
  match h with
  | .none => rfl
  | .empty => rfl
  | .some hn => exact always_of_translatesAll hn w

end

section

variable {ns : List Node} {body : List Stmt}

/-- The lines of a program, with those that show its cursors once more. -/
theorem code_eq_lines (h : TranslatesAll ns body) :
    (Node.program ns).code .standard = .ok ("\n".intercalate (openingLines ++
      (Stmt.linesAll 1 body ++ (showingLines ((flatAll ns).flatMap shows) ++ closingLines)))) := by
  rw [code_of_translates h, programText, programLines,
    (accounts_of_translatesAll .names h).shown_eq]

theorem readProgram_lines (h : TranslatesAll ns body) :
    readProgram ("\n".intercalate (openingLines ++ (Stmt.linesAll 1 body ++
      (showingLines ((flatAll ns).flatMap shows) ++ closingLines)))) =
      some (body ++ showings ((flatAll ns).flatMap shows)) := by
  have hread := readProgram_of_translates h
  rwa [programText, programLines, (accounts_of_translatesAll .names h).shown_eq] at hread

/-- The cursors that have been shown in every run. -/
theorem allHit_showsCursor_iff (h : TranslatesAll ns body) (w : String) :
    AllHit (showsCursor w) (Stmt.ExecutesAll body) ↔ surelyShowsAll w ns = true := by
  rw [← alwaysAll_iff, always_of_translatesAll h w]

end

/-! ## Accepted programs -/

/-- After the lines of the statements of an accepted program come those that show its cursors once
more: one line for each statement of the program that shows a cursor, in the order of the program. A
cursor has been shown by then in every run exactly if it is surely shown, and that is so for one
that is shown outside of all blocks. -/
theorem final_markers_eq {source : String} {ns : List Node}
    (h : Node.ofText source = .ok (.program ns)) (hc : (Node.program ns).check = .ok ()) :
    let cursors := (flatAll ns).flatMap shows
    ∃ body text, TranslatesAll ns body ∧ (Node.program ns).code .standard = .ok text ∧
      text = "\n".intercalate
        (openingLines ++ (Stmt.linesAll 1 body ++ (showingLines cursors ++ closingLines))) ∧
      readProgram text = some (body ++ showings cursors) ∧
      (∀ w, AllHit (showsCursor w) (Stmt.ExecutesAll body) ↔ surelyShowsAll w ns = true) ∧
      ∀ w ∈ ns.flatMap shows, surelyShowsAll w ns = true := by
  intro cursors
  obtain ⟨body, hbody⟩ := exists_translatesAll_of_ofText h hc
  refine ⟨body, _, hbody, code_eq_lines hbody, rfl, readProgram_lines hbody,
    allHit_showsCursor_iff hbody, ?_⟩
  intro w hw
  exact surelyShowsAll_of_mem hw

def showingCursor : Node := .cursorMethod "c" "visible" []

theorem isStatement_showingCursor : showingCursor.IsStatement .printable := by
  have hname : IsName "c" := isName_of_isAsciiWord (by decide) (by decide)
  have hbegins : NameRule.window.begins "c" := by simp [NameRule.window, NameRule.IsWindow]
  exact .change ⟨"c", rfl, hname⟩ hbegins ⟨"visible", by decide, rfl⟩ (by simp)

/-- The cursor is shown in both blocks of a branch. -/
def eitherWay : List Node :=
  drawing [.branch (.truth "true") [showingCursor] [] (some [showingCursor])]

/-- The cursor has been shown in every run, though in blocks only, and it has two lines. -/
theorem final_markers_eq_eitherWay : ∃ body text,
    Node.ofText (Node.source (.program eitherWay)) = .ok (.program eitherWay) ∧
      (Node.program eitherWay).check = .ok () ∧
      (Node.program eitherWay).code .standard = .ok text ∧
      readProgram text = some (body ++ showings ["c", "c"]) ∧
      AllHit (showsCursor "c") (Stmt.ExecutesAll body) ∧ eitherWay.flatMap shows = [] := by
  have hsource : Node.ofText (Node.source (.program eitherWay)) = .ok (.program eitherWay) := by
    apply ofText_drawing
    · rw [List.forall_mem_singleton]
      have hshowing := isStatement_showingCursor
      exact .branch (.expr (.truth (.inl rfl))) (by simpa using hshowing) (by simp) (by simp)
        (by simpa using hshowing)
    · simp [lexemes, lexemesAll, lexemesListed, lexemesArms, lexemesOtherwise, showingCursor]
  have hc : (Node.program eitherWay).check = .ok () := rfl
  obtain ⟨body, text, -, hcode, -, hread, hsurely, -⟩ := final_markers_eq hsource hc
  exact ⟨body, text, hsource, hc, hcode, hread, (hsurely "c").mpr rfl, rfl⟩

/-- The cursor is shown in a block that is never executed. -/
def hidden : List Node := drawing [.branch (.truth "false") [showingCursor] [] none]

/-- The cursor is shown twice. -/
def shownTwice : List Node := drawing [showingCursor, showingCursor]

/-- The line at the end of the first program is there although the cursor may never have been shown
before, and the second program has two lines for its cursor. -/
theorem final_markers_unshown :
    (∃ body text, Node.ofText (Node.source (.program hidden)) = .ok (.program hidden) ∧
      (Node.program hidden).check = .ok () ∧ (Node.program hidden).code .standard = .ok text ∧
      readProgram text = some (body ++ showings ["c"]) ∧ hidden.flatMap shows = [] ∧
      ∃ trace, Stmt.ExecutesAll body trace ∧ hits (showsCursor "c") trace = false) ∧
    ∃ body text, Node.ofText (Node.source (.program shownTwice)) = .ok (.program shownTwice) ∧
      (Node.program shownTwice).check = .ok () ∧
      (Node.program shownTwice).code .standard = .ok text ∧
      readProgram text = some (body ++ showings ["c", "c"]) := by
  have hshowing := isStatement_showingCursor
  constructor
  · have hsource : Node.ofText (Node.source (.program hidden)) = .ok (.program hidden) := by
      apply ofText_drawing
      · rw [List.forall_mem_singleton]
        exact .branch (.expr (.truth (.inr rfl))) (by simpa using hshowing) (by simp) (by simp)
          (by simp)
      · simp [lexemes, lexemesAll, lexemesListed, lexemesArms, lexemesOtherwise, showingCursor]
    have hc : (Node.program hidden).check = .ok () := rfl
    obtain ⟨body, hbody⟩ := exists_translatesAll_of_ofText hsource hc
    refine ⟨body, _, hsource, hc, code_eq_lines hbody, readProgram_lines hbody, rfl, ?_⟩
    have hnot : ¬AllHit (showsCursor "c") (Stmt.ExecutesAll body) := by
      rw [allHit_showsCursor_iff hbody]
      exact Bool.false_ne_true
    simpa [AllHit] using hnot
  · have hsource : Node.ofText (Node.source (.program shownTwice)) = .ok (.program shownTwice) := by
      apply ofText_drawing
      · simpa using hshowing
      · simp [lexemes, lexemesListed, showingCursor]
    have hc : (Node.program shownTwice).check = .ok () := rfl
    obtain ⟨body, hbody⟩ := exists_translatesAll_of_ofText hsource hc
    exact ⟨body, _, hsource, hc, code_eq_lines hbody, readProgram_lines hbody⟩

end Target

end DrawPlus
