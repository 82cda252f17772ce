import DrawPlus.Proofs.Parsing.Printing

/-!
# Reading back what was printed

A printed program is read as the tree it was printed from, as long as no operation in it is a
remainder. With a remainder, reading stops at the first percent sign, although the grammar derives
the tree from the tokens that the printed lexemes stand for.
-/

namespace DrawPlus

open Lexeme

variable {ns : List Node} {n : Node} {w : String}

/-! ## Printed lexemes are legible -/

/-- Each of the lexemes is legible or a percent sign. -/
def Lexeme.Clear (ls : List Lexeme) : Prop := ∀ l ∈ ls, l.Legible ∨ l = .sign .modulo

namespace Lexeme

variable {ls ms : List Lexeme}

theorem Clear.nil : Clear [] := by simp [Clear]

theorem Clear.cons {l : Lexeme} (hl : l.Legible) (hls : Clear ls) : Clear (l :: ls) :=
  List.forall_mem_cons.mpr ⟨.inl hl, hls⟩

theorem Clear.append (hls : Clear ls) (hms : Clear ms) : Clear (ls ++ ms) :=
  List.forall_mem_append.mpr ⟨hls, hms⟩

theorem legible_semicolon : (sign .semicolon).Legible := .delimiter ';' rfl

theorem legible_comma : (sign .comma).Legible := .delimiter ',' rfl

theorem legible_assign : (sign .assign).Legible := .operator '=' rfl rfl

theorem Clear.inParens (h : Clear ls) : Clear (inParens ls) :=
  .cons (.delimiter '(' rfl) (h.append (.cons (.delimiter ')' rfl) .nil))

theorem Clear.inBraces (h : Clear ls) : Clear (inBraces ls) :=
  .cons (.delimiter '\x7b' rfl) (h.append (.cons (.delimiter '\x7d' rfl) .nil))

theorem legible_keyword (k : Kind) (h : (w, k) ∈ keywords) : (word w).Legible :=
  .words (isWord_of_isAsciiWord (isAsciiWord_keyword _ h)) (by simp)

theorem legible_name (h : IsName w) : (word w).Legible := .words h.start (by simp)

end Lexeme

namespace Node

theorem clear_asOperand (h : Clear n.lexemes) : Clear (asOperand n n.lexemes) := by
  cases n with
  | binary l op r => exact h.inParens
  | _ => exact h

theorem legible_arithmetic {op : Kind} (h : op.isArithmetic = true) :
    (sign op).Legible ∨ sign op = .sign .modulo := by
  simp only [Kind.isArithmetic, decide_eq_true_eq, List.mem_cons, List.not_mem_nil, or_false] at h
  rcases h with rfl | rfl | rfl | rfl | rfl
  · exact .inl (.operator '+' rfl rfl)
  · exact .inl (.operator '-' rfl rfl)
  · exact .inl (.operator '*' rfl rfl)
  · exact .inl (.operator '/' rfl rfl)
  · exact .inr rfl

theorem legible_comparison {op : Kind} (h : op.isComparison = true) : (sign op).Legible := by
  simp only [Kind.isComparison, decide_eq_true_eq, List.mem_cons, List.not_mem_nil, or_false] at h
  rcases h with rfl | rfl | rfl | rfl | rfl | rfl
  · exact .operator '<' rfl rfl
  · exact .operatorEqual '<' rfl rfl
  · exact .operator '>' rfl rfl
  · exact .operatorEqual '>' rfl rfl
  · exact .operatorEqual '=' rfl rfl
  · exact .operatorEqual '!' rfl rfl

theorem hue_mem_keywords : ∀ c ∈ Hue.all, (c.name, Kind.hue c) ∈ keywords := by decide

theorem type_mem_keywords : ∀ k ∈ [Kind.int, .float, .bool, .color], (k.word, k) ∈ keywords := by
  decide

theorem method_mem_keywords : ∀ m ∈ changeWords ++ drawWords, (m, Kind.ofWord m) ∈ keywords := by
  decide

theorem IsExpr.clear (h : IsExpr .printable n) : Clear n.lexemes := by
  induction h with
  | number hv =>
    obtain ⟨n, rfl, hn⟩ := hv
    exact .cons (.number hn) .nil
  | truth hw =>
    rcases hw with rfl | rfl
    · exact .cons (legible_keyword .boolValue (by decide)) .nil
    · exact .cons (legible_keyword .boolValue (by decide)) .nil
  | hue hv =>
    obtain ⟨c, rfl⟩ := hv
    exact .cons (legible_keyword _ (hue_mem_keywords c (Token.Faithful.mem_all_hue c))) .nil
  | mixed _ _ _ ihr ihg ihb =>
    have hgiven := ihr.append (.cons legible_comma (ihg.append (.cons legible_comma ihb)))
    exact .cons (legible_keyword .rgb (by decide)) hgiven.inParens
  | name hx =>
    obtain ⟨w, rfl, hw⟩ := hx
    exact .cons (legible_name hw) .nil
  | binary _ hop _ ihl ihr =>
    exact (clear_asOperand ihl).append
      (List.forall_mem_cons.mpr ⟨legible_arithmetic hop, clear_asOperand ihr⟩)

theorem IsTest.clear {n : Node} (h : IsTest .printable n) : Clear n.lexemes := by
  cases h with
  | expr he => exact he.clear
  | comparison hl hop hr =>
    exact (clear_asOperand hl.clear).append
      (.cons (legible_comparison hop) (clear_asOperand hr.clear))

theorem IsAssignment.clear {n : Node} (h : IsAssignment .printable n) : Clear n.lexemes := by
  obtain ⟨⟨w, rfl, hw⟩, he⟩ := h
  exact .cons (legible_name hw) (.cons legible_assign he.clear)

theorem IsDeclaration.clear {n : Node} (h : IsDeclaration .printable n) : Clear n.lexemes := by
  obtain ⟨hk, ⟨w, rfl, hw⟩, -, he⟩ := h
  exact .cons (legible_keyword .var (by decide)) (.cons (legible_keyword _ (type_mem_keywords _ hk))
    (.cons (legible_name hw) (.cons legible_assign he.clear)))

theorem IsStart.clear {n : Node} (h : IsStart .printable n) : Clear n.lexemes := by
  cases h with
  | declaration hd => exact hd.clear
  | assignment ha => exact ha.clear

theorem clear_lexemesListed (h : ∀ n ∈ ns, IsExpr .printable n) : Clear (lexemesListed ns) := by
  cases ns with
  | nil => exact .nil
  | cons n ns =>
    induction ns generalizing n with
    | nil => exact (h n (by simp)).clear
    | cons m ns ih =>
      rw [List.forall_mem_cons] at h
      exact h.1.clear.append (.cons legible_comma (ih m h.2))

theorem clear_lexemesAll (h : ∀ n ∈ ns, Clear n.lexemes) : Clear (lexemesAll ns) := by
  induction ns with
  | nil => exact .nil
  | cons n ns ih =>
    rw [List.forall_mem_cons] at h
    exact h.1.append (.cons legible_semicolon (ih h.2))

theorem clear_lexemesArms {arms : List (Node × List Node)}
    (ht : ∀ arm ∈ arms, IsTest .printable arm.1) (h : ∀ arm ∈ arms, ∀ n ∈ arm.2, Clear n.lexemes) :
    Clear (lexemesArms arms) := by
  induction arms with
  | nil => exact .nil
  | cons arm arms ih =>
    rw [List.forall_mem_cons] at ht h
    exact .cons (legible_keyword .elifWord (by decide))
      (ht.1.clear.inParens.append ((clear_lexemesAll h.1).inBraces.append (ih ht.2 h.2)))

theorem clear_lexemesOtherwise {otherwise : Option (List Node)}
    (h : ∀ block ∈ otherwise, ∀ n ∈ block, Clear n.lexemes) :
    Clear (lexemesOtherwise otherwise) := by
  cases otherwise with
  | none => exact .nil
  | some block =>
    exact .cons (legible_keyword .elseWord (by decide)) (clear_lexemesAll (h block rfl)).inBraces

theorem clear_call {m : String} (hw : IsName w) (hm : m ∈ changeWords ++ drawWords)
    (hns : ∀ n ∈ ns, IsExpr .printable n) :
    Clear (.words w [m] :: inParens (lexemesListed ns)) := by
  have hword : IsWord m := isWord_of_isAsciiWord (isAsciiWord_keyword _ (method_mem_keywords m hm))
  exact .cons (.words hw.start (by simpa using hword)) (clear_lexemesListed hns).inParens

theorem IsStatement.clear {n : Node} (h : IsStatement .printable n) : Clear n.lexemes := by
  induction h with
  | declaration hd => exact hd.clear
  | assignment hw _ he => exact (IsAssignment.intro hw he).clear
  | creation hw hx hy =>
    obtain ⟨w, rfl, hw⟩ := hw
    have hgiven := hx.clear.append (.cons legible_comma hy.clear)
    exact .cons (legible_keyword .cursor (by decide)) (.cons (legible_name hw) (.cons legible_assign
      (.cons (legible_keyword .createCursor (by decide)) hgiven.inParens)))
  | change hw _ hm hns =>
    obtain ⟨w, rfl, hw⟩ := hw
    obtain ⟨m, hm, rfl⟩ := hm
    exact clear_call hw (List.mem_append_left _ hm) hns
  | draw hw _ hm hns =>
    obtain ⟨w, rfl, hw⟩ := hw
    obtain ⟨m, hm, rfl⟩ := hm
    exact clear_call hw (List.mem_append_right _ hm) hns
  | branch ht _ hts _ _ ihbody ihbodies iho =>
    exact .cons (legible_keyword .ifWord (by decide)) (ht.clear.inParens.append
      ((clear_lexemesAll ihbody).inBraces.append
        ((clear_lexemesArms hts ihbodies).append (clear_lexemesOtherwise iho))))
  | whileLoop ht _ ih =>
    exact .cons (legible_keyword .whileWord (by decide))
      (ht.clear.inParens.append (clear_lexemesAll ih).inBraces)
  | forLoop hi ht hu _ ih =>
    have hheader := hi.clear.append (.cons legible_semicolon (ht.clear.append
      (.cons legible_semicolon hu.clear)))
    exact .cons (legible_keyword .forWord (by decide))
      (hheader.inParens.append (clear_lexemesAll ih).inBraces)

/-! ## Percent signs come from remainders -/

@[simp] theorem modulo_mem_enclosed {a z : Kind} {ls : List Lexeme} (ha : a ≠ .modulo)
    (hz : z ≠ .modulo) : sign .modulo ∈ enclosed a z ls ↔ sign .modulo ∈ ls := by
  simp [enclosed, ha.symm, hz.symm]

@[simp] theorem modulo_mem_asOperand {ls : List Lexeme} :
    sign .modulo ∈ asOperand n ls ↔ sign .modulo ∈ ls := by
  cases n <;> simp [asOperand]

@[simp] theorem modulo_ne_word (w : String) : sign .modulo ≠ word w := by simp [word]

theorem modulo_mem_lexemesAll :
    sign .modulo ∈ lexemesAll ns ↔ ∃ n ∈ ns, sign .modulo ∈ n.lexemes := by
  induction ns with
  | nil => simp [lexemesAll]
  | cons n ns ih => simp [lexemesAll, ih]

theorem modulo_mem_lexemesListed :
    sign .modulo ∈ lexemesListed ns ↔ ∃ n ∈ ns, sign .modulo ∈ n.lexemes := by
  cases ns with
  | nil => simp [lexemesListed]
  | cons n ns =>
    induction ns generalizing n with
    | nil => simp [lexemesListed]
    | cons m ns ih => simp [lexemesListed, ih]

theorem modulo_mem_lexemesArms {arms : List (Node × List Node)} :
    sign .modulo ∈ lexemesArms arms ↔ ∃ arm ∈ arms, sign .modulo ∈ arm.1.lexemes ∨
      ∃ n ∈ arm.2, sign .modulo ∈ n.lexemes := by
  induction arms with
  | nil => simp [lexemesArms]
  | cons arm arms ih => simp [lexemesArms, modulo_mem_lexemesAll, ih, or_assoc]

theorem modulo_mem_lexemesOtherwise {otherwise : Option (List Node)} :
    sign .modulo ∈ lexemesOtherwise otherwise ↔
      ∃ n ∈ otherwise.getD [], sign .modulo ∈ n.lexemes := by
  cases otherwise with
  | none => simp [lexemesOtherwise]
  | some block => simp [lexemesOtherwise, modulo_mem_lexemesAll]

theorem modulo_mem_branch {test : Node} {body : List Node} {arms : List (Node × List Node)}
    {otherwise : Option (List Node)} :
    sign .modulo ∈ (Node.branch test body arms otherwise).lexemes ↔
      ∃ c ∈ (Node.branch test body arms otherwise).children, sign .modulo ∈ c.2.lexemes := by
  have hparts : sign .modulo ∈ (Node.branch test body arms otherwise).lexemes ↔
      sign .modulo ∈ test.lexemes ∨ (∃ n ∈ body, sign .modulo ∈ n.lexemes) ∨
        (∃ arm ∈ arms, sign .modulo ∈ arm.1.lexemes ∨ ∃ n ∈ arm.2, sign .modulo ∈ n.lexemes) ∨
        ∃ n ∈ otherwise.getD [], sign .modulo ∈ n.lexemes := by
    simp [lexemes, modulo_mem_lexemesAll, modulo_mem_lexemesArms, modulo_mem_lexemesOtherwise]
  rw [hparts]
  constructor
  · rintro (h | ⟨n, hn, h⟩ | ⟨arm, harm, h | ⟨n, hn, h⟩⟩ | ⟨n, hn, h⟩)
    · exact ⟨(.operand, test), by simp [children], h⟩
    · exact ⟨(.statement, n), by simp [children, hn], h⟩
    · exact ⟨(.operand, arm.1), by simpa [children] using .inr ⟨arm.2, harm⟩, h⟩
    · exact ⟨(.statement, n), by simpa [children] using .inr (.inl ⟨arm.1, arm.2, harm, hn⟩), h⟩
    · exact ⟨(.statement, n), by simp [children, hn], h⟩
  · rintro ⟨⟨p, m⟩, hm, h⟩
    simp only [children, List.cons_append, List.mem_cons, List.mem_append, List.mem_flatMap,
      List.mem_map, Prod.mk.injEq] at hm
    obtain ⟨-, rfl⟩ | (⟨n, hn, -, rfl⟩ | ⟨arm, harm, ⟨-, rfl⟩ | ⟨n, hn, -, rfl⟩⟩) |
      ⟨n, hn, -, rfl⟩ := hm
    · exact .inl h
    · exact .inr (.inl ⟨n, hn, h⟩)
    · exact .inr (.inr (.inl ⟨arm, harm, .inl h⟩))
    · exact .inr (.inr (.inl ⟨arm, harm, .inr ⟨n, hn, h⟩⟩))
    · exact .inr (.inr (.inr ⟨n, hn, h⟩))

/-- A percent sign is printed for a remainder, or for one of the things that the node holds. -/
theorem modulo_mem_lexemes : sign .modulo ∈ n.lexemes ↔
    (∃ l r, n = .binary l .modulo r) ∨ ∃ c ∈ n.children, sign .modulo ∈ c.2.lexemes := by
  cases n with
  | absent | bare | number | text | truth | «variable» => simp [lexemes, children]
  | varDecl | assign | cursorCreation => simp [lexemes, children]
  | program ns => simp [lexemes, children, modulo_mem_lexemesAll]
  | cursorMethod cursor method given => simp [lexemes, children, modulo_mem_lexemesListed]
  | drawCommand cursor shape given => simp [lexemes, children, modulo_mem_lexemesListed]
  | branch test body arms otherwise => simpa using modulo_mem_branch
  | whileLoop test body => simp [lexemes, children, modulo_mem_lexemesAll]
  | forLoop init test update body => simp [lexemes, children, modulo_mem_lexemesAll, or_assoc]
  | binary l op r => simp [lexemes, children, eq_comm (a := Kind.modulo), or_left_comm]
  | color name components =>
    cases components with
    | none => simp [lexemes, children]
    | some given => simp [lexemes, children, modulo_mem_lexemesListed]

/-- The parts of what a node holds are parts of the node. -/
theorem Part.of_child {m k : Node} {p q : Place} (hm : (p, m) ∈ n.children) (hk : m.Part q k) :
    n.Part q k := by
  induction hk with
  | child hc => exact .deeper (.child hm) hc
  | deeper _ hc ih => exact .deeper ih hc

/-- A percent sign is printed for no other reason than a remainder. -/
theorem exists_remainder (h : sign .modulo ∈ n.lexemes) :
    (∃ l r, n = .binary l .modulo r) ∨ ∃ p l r, n.Part p (.binary l .modulo r) := by
  induction n using induction_children with
  | h n ih =>
    rcases modulo_mem_lexemes.mp h with h | ⟨⟨p, m⟩, hm, h⟩
    · exact .inl h
    · right
      rcases ih p m hm h with ⟨l, r, rfl⟩ | ⟨q, l, r, hpart⟩
      · exact ⟨p, l, r, .child hm⟩
      · exact ⟨q, l, r, hpart.of_child hm⟩

/-- For a remainder anywhere in the tree a percent sign is printed. -/
theorem modulo_mem_of_part {tree : Node} {p : Place} (hp : tree.Part p n)
    (h : sign .modulo ∈ n.lexemes) : sign .modulo ∈ tree.lexemes := by
  induction hp with
  | child hc => exact modulo_mem_lexemes.mpr (.inr ⟨_, hc, h⟩)
  | deeper _ hc ih => exact ih (modulo_mem_lexemes.mpr (.inr ⟨_, hc, h⟩))

/-- Some operation in the tree is a remainder. -/
def HasRemainder (tree : Node) : Prop := ∃ p l r, tree.Part p (.binary l .modulo r)

theorem hasRemainder_program_iff :
    HasRemainder (.program ns) ↔ sign .modulo ∈ (Node.program ns).lexemes := by
  constructor
  · rintro ⟨p, l, r, hp⟩
    exact modulo_mem_of_part hp (modulo_mem_lexemes.mpr (.inl ⟨l, r, rfl⟩))
  · intro h
    rcases exists_remainder h with ⟨l, r, heq⟩ | h
    · cases heq
    · exact h

end Node

/-! ## Whole programs -/

open Node

theorem clear_program (h : ∀ n ∈ ns, n.IsStatement .printable) : Clear (Node.program ns).lexemes :=
  clear_lexemesAll fun n hn => (h n hn).clear

/-- The tokens that a printed program stands for are read as the program. -/
theorem ofTokens_of_spells (h : ∀ n ∈ ns, n.IsStatement .printable) {tokens : List Token}
    (hl : Token.Lexed tokens) (hs : Spells tokens.dropLast (Node.program ns).lexemes) :
    Node.ofTokens tokens = .ok (.program ns) :=
  ofTokens_of_derived hl (statements_of_spells (fun n hn => (h n hn).derived) hs)

theorem ofText_of_notMem_modulo (h : ∀ n ∈ ns, n.IsStatement .printable)
    (hm : sign .modulo ∉ (Node.program ns).lexemes) :
    Node.ofText (source (.program ns)) = .ok (.program ns) := by
  have hlegible : ∀ l ∈ (Node.program ns).lexemes, l.Legible := by
    intro l hl
    rcases clear_program h l hl with hlegible | rfl
    · exact hlegible
    · exact absurd hl hm
  obtain ⟨ts, last, htext, hs⟩ := exists_ofText_spaced hlegible
  refine ofText_of_ofTokens htext (ofTokens_of_spells h (lexed_of_ofText htext) ?_)
  rw [List.dropLast_concat]
  exact hs

theorem ofText_of_mem_modulo (h : ∀ n ∈ ns, n.IsStatement .printable)
    (hm : sign .modulo ∈ (Node.program ns).lexemes) : Node.ofText (source (.program ns)) =
      .error (.lexical (.unexpected '%' 1 ((source (.program ns)).toList.idxOf '%' + 1))) := by
  obtain ⟨before, after, heq, hbefore⟩ := List.eq_append_cons_of_mem hm
  have hlegible : ∀ l ∈ before, l.Legible := by
    intro l hl
    rcases clear_program h l (by simp [heq, hl]) with hlegible | rfl
    · exact hlegible
    · exact absurd hl hbefore
  have htext := ofText_percent hlegible after
  rw [← heq] at htext
  unfold Node.ofText source
  rw [htext]

/-- A printed program is read back if nothing in it is a remainder. Otherwise reading its text stops
at the first percent sign, although its tokens are read in any case. -/
theorem ofText_source {ns : List Node} (h : ∀ n ∈ ns, n.IsStatement .printable) :
    let tree := Node.program ns
    (¬tree.HasRemainder → Node.ofText tree.source = .ok tree) ∧
      (tree.HasRemainder → Node.ofText tree.source =
        .error (.lexical (.unexpected '%' 1 (tree.source.toList.idxOf '%' + 1)))) ∧
      ∀ tokens, Token.Lexed tokens → Spells tokens.dropLast tree.lexemes →
        Node.ofTokens tokens = .ok tree := by
  simp only [hasRemainder_program_iff]
  exact ⟨ofText_of_notMem_modulo h, ofText_of_mem_modulo h,
    fun tokens hl hs => ofTokens_of_spells h hl hs⟩

theorem isExpr_figure {n : ℕ} (h : n < 10) : IsExpr .printable (.number (.int n)) :=
  .number ⟨n, rfl, h.trans_le (Nat.le_self_pow (by decide) 10)⟩

theorem windowSize_lt : 400 < 10 ^ maxIntegerDigits :=
  (by decide : 400 < 10 ^ 3).trans_le (Nat.pow_le_pow_right (by decide) (by decide))

theorem isExpr_name (h : IsName w) : IsExpr .printable (.variable w) :=
  .name ⟨w, rfl, h⟩

/-- A loop that draws, with operands that are operations. -/
def circles : List Node :=
  [.varDecl (some .int) "n" (.number (.int 2)),
    .cursorCreation "c" (.number (.int 9)) (.variable "n"),
    .forLoop (.assign "i" (.number (.int 0)))
      (.binary (.binary (.variable "i") .plus (.number (.int 1))) .lessEqual (.variable "n"))
      (.assign "i" (.binary (.variable "i") .plus (.number (.int 1))))
      [.cursorMethod "c" "color"
          [.color .absent (some [.variable "i", .variable "n", .number (.int 7)])],
        .branch (.truth "true")
          [.drawCommand "c" "draw_circle" [.binary (.number (.int 3)) .times
            (.binary (.variable "i") .minus (.number (.int 1)))]]
          [(.binary (.variable "i") .equal (.variable "n"), [])]
          (some [.whileLoop (.truth "false") [.cursorMethod "c" "visible" []]])]]

example : source (.program circles) = "var int n = 2 ; cursor c = create_cursor ( 9 , n ) ; " ++
    "for ( i = 0 ; ( i + 1 ) <= n ; i = i + 1 ) \x7b c.color ( rgb ( i , n , 7 ) ) ; " ++
    "if ( true ) \x7b c.draw_circle ( 3 * ( i - 1 ) ) ; \x7d elif ( i == n ) \x7b \x7d " ++
    "else \x7b while ( false ) \x7b c.visible ( ) ; \x7d ; \x7d ; \x7d ; " := by
  decide +kernel

theorem isStatement_circles : ∀ n ∈ circles, n.IsStatement .printable := by
  have hi : IsName "i" := isName_of_isAsciiWord (by decide) (by decide)
  have hn : IsName "n" := isName_of_isAsciiWord (by decide) (by decide)
  have hc : IsName "c" := isName_of_isAsciiWord (by decide) (by decide)
  have hbegins : NameRule.window.begins "c" := by simp [NameRule.window, NameRule.IsWindow]
  have hdeclares : NameRule.window.declares .int "n" (.number (.int 2)) := by
    simp [NameRule.window, NameRule.IsWindow]
  have hnext : IsExpr .printable (.binary (.variable "i") .plus (.number (.int 1))) :=
    .binary (isExpr_name hi) rfl (isExpr_figure (by decide))
  have hradius : IsExpr .printable (.binary (.number (.int 3)) .times
      (.binary (.variable "i") .minus (.number (.int 1)))) :=
    .binary (isExpr_figure (by decide)) rfl
      (.binary (isExpr_name hi) rfl (isExpr_figure (by decide)))
  have hmixed : IsExpr .printable
      (.color .absent (some [.variable "i", .variable "n", .number (.int 7)])) :=
    .mixed (isExpr_name hi) (isExpr_name hn) (isExpr_figure (by decide))
  have hvisible : IsStatement .printable (.cursorMethod "c" "visible" []) :=
    .change ⟨"c", rfl, hc⟩ hbegins ⟨"visible", by decide, rfl⟩ (by simp)
  have hwhile : IsStatement .printable
      (.whileLoop (.truth "false") [.cursorMethod "c" "visible" []]) :=
    .whileLoop (.expr (.truth (.inr rfl))) (by simpa using hvisible)
  simp only [circles, List.forall_mem_cons, List.not_mem_nil, false_implies, implies_true, and_true]
  refine ⟨.declaration (.intro (by decide) ⟨"n", rfl, hn⟩ hdeclares (isExpr_figure (by decide))),
    .creation ⟨"c", rfl, hc⟩ (isExpr_figure (by decide)) (isExpr_name hn),
    .forLoop (.assignment (.intro ⟨"i", rfl, hi⟩ (isExpr_figure (by decide))))
      (.comparison hnext rfl (isExpr_name hn)) (.intro ⟨"i", rfl, hi⟩ hnext) ?_⟩
  simp only [List.forall_mem_cons, List.not_mem_nil, false_implies, implies_true, and_true]
  refine ⟨.change ⟨"c", rfl, hc⟩ hbegins ⟨"color", by decide, rfl⟩ (by simpa using hmixed),
    .branch (.expr (.truth (.inl rfl))) ?_ ?_ (by simp) ?_⟩
  · simpa using .draw ⟨"c", rfl, hc⟩ hbegins ⟨"draw_circle", by decide, rfl⟩
      (by simpa using hradius)
  · simpa using .comparison (isExpr_name hi) rfl (isExpr_name hn)
  · simpa using hwhile

/-- The remainder of five by two. -/
def remainder : List Node :=
  [.assign "x" (.binary (.number (.int 5)) .modulo (.number (.int 2)))]

theorem isStatement_remainder : ∀ n ∈ remainder, n.IsStatement .printable := by
  have hx : IsName "x" := isName_of_isAsciiWord (by decide) (by decide)
  have hbegins : NameRule.window.begins "x" := by simp [NameRule.window, NameRule.IsWindow]
  exact List.forall_mem_singleton.mpr (.assignment ⟨"x", rfl, hx⟩ hbegins
    (.binary (isExpr_figure (by decide)) rfl (isExpr_figure (by decide))))

/-- The loop is read back. The remainder is not, and the place of its percent sign is named. -/
theorem ofText_source_circles :
    (∀ n ∈ circles, n.IsStatement .printable) ∧ ¬HasRemainder (.program circles) ∧
      Node.ofText (source (.program circles)) = .ok (.program circles) ∧
      (∀ n ∈ remainder, n.IsStatement .printable) ∧ HasRemainder (.program remainder) ∧
      Node.ofText (source (.program remainder)) = .error (.lexical (.unexpected '%' 1 7)) := by
  have hnone : ¬HasRemainder (.program circles) := by
    rw [hasRemainder_program_iff]
    simp [circles, lexemes, lexemesAll, lexemesListed, lexemesArms, lexemesOtherwise]
  have hsome : HasRemainder (.program remainder) :=
    ⟨.operand, _, _, .deeper (.child (.head _)) (.head _)⟩
  exact ⟨isStatement_circles, hnone, (ofText_source isStatement_circles).1 hnone,
    isStatement_remainder, hsome, (ofText_source isStatement_remainder).2.1 hsome⟩

/-- A program that can be printed and is not read back. -/
theorem remainder_not_read_back :
    (∀ n ∈ remainder, n.IsStatement .printable) ∧ source (.program remainder) = "x = 5 % 2 ; " ∧
      Node.ofText "x = 5 % 2 ; " ≠ .ok (.program remainder) := by
  have hsource : source (.program remainder) = "x = 5 % 2 ; " := by decide +kernel
  have hmodulo : sign .modulo ∈ (Node.program remainder).lexemes := by
    simp [remainder, lexemes, lexemesAll]
  refine ⟨isStatement_remainder, hsource, ?_⟩
  rw [← hsource, ofText_of_mem_modulo isStatement_remainder hmodulo]
  exact nofun

/-- A program with a window and a cursor, which goes on with the given statements. -/
def drawing (ns : List Node) : List Node :=
  .varDecl (some .int) "windowWidth" (.number (.int 400)) ::
    .varDecl (some .int) "windowHeight" (.number (.int 400)) ::
    .cursorCreation "c" (.number (.int 1)) (.number (.int 2)) :: ns

theorem ofText_drawing (h : ∀ n ∈ ns, n.IsStatement .printable)
    (hm : ∀ n ∈ ns, .sign .modulo ∉ n.lexemes) :
    Node.ofText (Node.source (.program (drawing ns))) = .ok (.program (drawing ns)) := by
  have hdeclares (w : String) : NameRule.window.declares .int w (.number (.int 400)) := by
    intro _
    refine ⟨rfl, ?_⟩
    rintro v ⟨⟩
    decide
  have hsize : IsExpr .printable (.number (.int 400)) :=
    .number ⟨400, rfl, windowSize_lt⟩
  have hname : IsName "windowWidth" ∧ IsName "windowHeight" ∧ IsName "c" :=
    ⟨isName_of_isAsciiWord (by decide) (by decide), isName_of_isAsciiWord (by decide) (by decide),
      isName_of_isAsciiWord (by decide) (by decide)⟩
  apply ofText_of_notMem_modulo
  · simp only [drawing, List.forall_mem_cons]
    exact ⟨.declaration (.intro (by decide) ⟨_, rfl, hname.1⟩ (hdeclares _) hsize),
      .declaration (.intro (by decide) ⟨_, rfl, hname.2.1⟩ (hdeclares _) hsize),
      .creation ⟨_, rfl, hname.2.2⟩ (isExpr_figure (by decide)) (isExpr_figure (by decide)),
      h⟩
  · rw [lexemes, modulo_mem_lexemesAll]
    rintro ⟨n, hn, hmodulo⟩
    simp only [drawing, List.mem_cons] at hn
    rcases hn with rfl | rfl | rfl | hn
    · simp [lexemes] at hmodulo
    · simp [lexemes] at hmodulo
    · simp [lexemes] at hmodulo
    · exact hm n hn hmodulo

end DrawPlus
