import DrawPlus.Proofs.Numbers.Display
import DrawPlus.Proofs.Target.Syntax

/-!
# Translation into the generated language

`Translates n s` says that the statement `s` of the generated language stands for the statement `n`,
constructor by constructor and without mention of lines or pages. Only trees that are read from a
text are translated. A call with too few arguments is not, and the arguments of a call that are too
many are dropped. A number that is too large to be written stands as a word.

The characters of a translated expression are known (`Plain`): no end of line and no semicolon is
among them.
-/

namespace DrawPlus.Target

/-! ## The relation -/

/-- The expression stands for the node. -/
inductive TranslatesExpr : Node → Expr → Prop
  | number {v : Value} : v.IsLiteral → v.isFinite = true →
      TranslatesExpr (.number v) (.constant v.display)
  | infinite {v : Value} : v.IsLiteral → v.isFinite = false →
      TranslatesExpr (.number v) (.word "inf")
  | truth {w : String} : w = "true" ∨ w = "false" → TranslatesExpr (.truth w) (.word w)
  | hue (h : Hue) : TranslatesExpr (.color h.name none) (.word h.constant)
  | mixed {r g b : Node} {r' g' b' : Expr} : TranslatesExpr r r' → TranslatesExpr g g' →
      TranslatesExpr b b' → TranslatesExpr (.color .absent (some [r, g, b]))
        (.call "custom_color" [.cast "Uint8" r', .cast "Uint8" g', .cast "Uint8" b',
          .constant "255"])
  | name {w : String} : IsName w → TranslatesExpr (.variable w) (.word w)
  | binary {l r : Node} {l' r' : Expr} {op : Kind} {s : String} : TranslatesExpr l l' →
      op.isArithmetic = true ∨ op.isComparison = true → op.sign? = some s →
      TranslatesExpr r r' → TranslatesExpr (.binary l op r) (.binary l' s r')

/-- The types of variables and how they are spelled. -/
def typeWords : List (Kind × String) :=
  [(.int, "int"), (.float, "float"), (.bool, "bool"), (.color, "SDL_Color")]

/-- The simple statement stands for the declaration or assignment. -/
inductive TranslatesStart : Node → Simple → Prop
  | declaration {k : Kind} {t w : String} {e : Node} {e' : Expr} : (k, t) ∈ typeWords → IsName w →
      TranslatesExpr e e' → TranslatesStart (.varDecl (some k) w e) (.declare t false w e')
  | assignment {w : String} {e : Node} {e' : Expr} : IsName w → TranslatesExpr e e' →
      TranslatesStart (.assign w e) (.assign w e')

/-- The methods that become calls, the functions they call and how many arguments these take. -/
def changeCalls : List (String × String × ℕ) :=
  [("move", "move_cursor", 1), ("rotate", "rotate_cursor", 1), ("color", "set_cursor_color", 1)]

/-- The shapes, the functions that draw them and how many arguments these take. -/
def drawCalls : List (String × String × ℕ) :=
  [("draw_line", "cursor_draw_line", 1), ("draw_rectangle", "cursor_draw_rectangle", 3),
    ("draw_circle", "cursor_draw_circle", 2), ("draw_triangle", "cursor_draw_triangle", 3),
    ("draw_ellipse", "cursor_draw_ellipse", 3)]

mutual

/-- The statement of the generated language stands for the statement. -/
inductive Translates : Node → Stmt → Prop
  | start {n : Node} {s : Simple} : TranslatesStart n s → Translates n (.simple s)
  | creation {w : String} {x y : Node} {x' y' : Expr} : IsName w → TranslatesExpr x x' →
      TranslatesExpr y y' → Translates (.cursorCreation w x y)
        (.simple (.declare "Cursor" true w (.call "create_cursor" [x', y'])))
  | change {w m f : String} {k : ℕ} {ns : List Node} {es : List Expr} : IsName w →
      (m, f, k) ∈ changeCalls → List.Forall₂ TranslatesExpr ns es → k ≤ ns.length →
      Translates (.cursorMethod w m ns) (.simple (.call f (.word w :: es.take k)))
  | thickness {w : String} {n : Node} {ns : List Node} {e : Expr} {es : List Expr} : IsName w →
      List.Forall₂ TranslatesExpr (n :: ns) (e :: es) →
      Translates (.cursorMethod w "thickness" (n :: ns))
        (.simple (.assignMember w "thickness" (.cast "int" e)))
  | visible {w : String} {ns : List Node} {es : List Expr} : IsName w →
      List.Forall₂ TranslatesExpr ns es →
      Translates (.cursorMethod w "visible" ns) (.simple (.showing w))
  | draw {w m f : String} {k : ℕ} {ns : List Node} {es : List Expr} : IsName w →
      (m, f, k) ∈ drawCalls → List.Forall₂ TranslatesExpr ns es → k ≤ ns.length →
      Translates (.drawCommand w m ns) (.simple (.call f (.word w :: es.take k)))
  | branch {test : Node} {body : List Node} {arms : List (Node × List Node)}
      {otherwise : Option (List Node)} {test' : Expr} {body' : List Stmt}
      {arms' : List (Expr × List Stmt)} {otherwise' : Option (List Stmt)} :
      TranslatesExpr test test' → TranslatesAll body body' → TranslatesArms arms arms' →
      TranslatesOtherwise otherwise otherwise' →
      Translates (.branch test body arms otherwise) (.branch test' body' arms' otherwise')
  | whileLoop {test : Node} {body : List Node} {test' : Expr} {body' : List Stmt} :
      TranslatesExpr test test' → TranslatesAll body body' →
      Translates (.whileLoop test body) (.whileLoop test' body')
  | forLoop {init test update : Node} {body : List Node} {init' update' : Simple} {test' : Expr}
      {body' : List Stmt} : TranslatesStart init init' → TranslatesExpr test test' →
      TranslatesStart update update' → TranslatesAll body body' →
      Translates (.forLoop init test update body) (.forLoop init' test' update' body')

/-- The statements stand for the statements, one for one. -/
inductive TranslatesAll : List Node → List Stmt → Prop
  | nil : TranslatesAll [] []
  | cons {n : Node} {ns : List Node} {s : Stmt} {ss : List Stmt} : Translates n s →
      TranslatesAll ns ss → TranslatesAll (n :: ns) (s :: ss)

/-- The further conditions and blocks of a branch stand for each other. -/
inductive TranslatesArms : List (Node × List Node) → List (Expr × List Stmt) → Prop
  | nil : TranslatesArms [] []
  | cons {test : Node} {body : List Node} {arms : List (Node × List Node)} {test' : Expr}
      {body' : List Stmt} {arms' : List (Expr × List Stmt)} : TranslatesExpr test test' →
      TranslatesAll body body' → TranslatesArms arms arms' →
      TranslatesArms ((test, body) :: arms) ((test', body') :: arms')

/-- The last block of a branch; an empty one is left out. -/
inductive TranslatesOtherwise : Option (List Node) → Option (List Stmt) → Prop
  | none : TranslatesOtherwise .none .none
  | empty : TranslatesOtherwise (.some []) .none
  | some {n : Node} {ns : List Node} {ss : List Stmt} : TranslatesAll (n :: ns) ss →
      TranslatesOtherwise (.some (n :: ns)) (.some ss)

end

/-! ## Which trees are translated -/

/-- The kinds that stand between the operands of a translated operation. -/
theorem operator_cases {op : Kind} (h : op.isArithmetic = true ∨ op.isComparison = true) :
    op ∈ [Kind.plus, .minus, .times, .slash, .modulo, .less, .lessEqual, .greater, .greaterEqual,
      .equal, .notEqual] := by
  simp only [Kind.isArithmetic, Kind.isComparison, decide_eq_true_eq, ← List.mem_append] at h
  exact h

theorem sign?_of_operator {op : Kind} (h : op.isArithmetic = true ∨ op.isComparison = true) :
    ∃ s, op.sign? = some s := by
  have hall : ∀ k ∈ [Kind.plus, .minus, .times, .slash, .modulo, .less, .lessEqual, .greater,
      .greaterEqual, .equal, .notEqual], k.sign?.isSome = true := by decide
  exact Option.isSome_iff_exists.mp (hall op (operator_cases h))

theorem exists_translatesExpr {n : Node} (h : n.IsExpr .lexed) : ∃ e, TranslatesExpr n e := by
  induction h with
  | @number v hv =>
    cases hf : v.isFinite with
    | true => exact ⟨_, .number hv hf⟩
    | false => exact ⟨_, .infinite hv hf⟩
  | truth hv =>
    rcases hv with rfl | rfl
    · exact ⟨_, .truth (.inl rfl)⟩
    · exact ⟨_, .truth (.inr rfl)⟩
  | hue hv =>
    obtain ⟨h, rfl⟩ := hv
    exact ⟨_, .hue h⟩
  | mixed _ _ _ hr hg hb =>
    obtain ⟨r, hr⟩ := hr
    obtain ⟨g, hg⟩ := hg
    obtain ⟨b, hb⟩ := hb
    exact ⟨_, .mixed hr hg hb⟩
  | name hx =>
    obtain ⟨w, rfl, hw⟩ := hx
    exact ⟨_, .name hw⟩
  | binary _ hop _ hl hr =>
    obtain ⟨l, hl⟩ := hl
    obtain ⟨r, hr⟩ := hr
    obtain ⟨s, hs⟩ := sign?_of_operator hop
    exact ⟨_, .binary hl hop hs hr⟩

theorem exists_translatesTest {n : Node} (h : n.IsTest .lexed) : ∃ e, TranslatesExpr n e :=
  exists_translatesExpr (h.isExpr Vocabulary.isCoarse_lexed)

theorem exists_forall₂_translatesExpr {ns : List Node} (h : ∀ n ∈ ns, n.IsExpr .lexed) :
    ∃ es, List.Forall₂ TranslatesExpr ns es := by
  induction ns with
  | nil => exact ⟨[], .nil⟩
  | cons n ns ih =>
    rw [List.forall_mem_cons] at h
    obtain ⟨e, he⟩ := exists_translatesExpr h.1
    obtain ⟨es, hes⟩ := ih h.2
    exact ⟨e :: es, .cons he hes⟩

theorem exists_translatesStart {n : Node} (h : n.IsStart .lexed) : ∃ s, TranslatesStart n s := by
  cases h with
  | declaration h =>
    obtain @⟨k, x, e, hk, ⟨w, rfl, hw⟩, -, he⟩ := h
    obtain ⟨e', he⟩ := exists_translatesExpr he
    have htype : ∃ t, (k, t) ∈ typeWords := by
      simp only [List.mem_cons, List.not_mem_nil, or_false] at hk
      rcases hk with rfl | rfl | rfl | rfl <;> simp [typeWords]
    obtain ⟨t, ht⟩ := htype
    exact ⟨_, .declaration ht hw he⟩
  | assignment h =>
    obtain ⟨⟨w, rfl, hw⟩, he⟩ := h
    obtain ⟨e', he⟩ := exists_translatesExpr he
    exact ⟨_, .assignment hw he⟩

/-- How many arguments each method takes. -/
def takes : List (String × ℕ) :=
  [("move", 1), ("rotate", 1), ("color", 1), ("thickness", 1), ("visible", 0), ("draw_line", 1),
    ("draw_rectangle", 3), ("draw_circle", 2), ("draw_triangle", 3), ("draw_ellipse", 3)]

/-- A property of statements that their parts inherit, and that no call with too few arguments
has. -/
structure Supplied (P : Node → Prop) : Prop where
  body_of_branch {test : Node} {body : List Node} {arms : List (Node × List Node)}
    {otherwise : Option (List Node)} : P (.branch test body arms otherwise) → ∀ n ∈ body, P n
  arms_of_branch {test : Node} {body : List Node} {arms : List (Node × List Node)}
    {otherwise : Option (List Node)} : P (.branch test body arms otherwise) →
    ∀ arm ∈ arms, ∀ n ∈ arm.2, P n
  otherwise_of_branch {test : Node} {body : List Node} {arms : List (Node × List Node)}
    {otherwise : Option (List Node)} : P (.branch test body arms otherwise) →
    ∀ block ∈ otherwise, ∀ n ∈ block, P n
  body_of_whileLoop {test : Node} {body : List Node} : P (.whileLoop test body) → ∀ n ∈ body, P n
  body_of_forLoop {init test update : Node} {body : List Node} :
    P (.forLoop init test update body) → ∀ n ∈ body, P n
  enough_of_change {w m : String} {ns : List Node} {k : ℕ} :
    P (.cursorMethod w m ns) → m ∈ Node.changeWords → (m, k) ∈ takes → k ≤ ns.length
  enough_of_draw {w m : String} {ns : List Node} {k : ℕ} :
    P (.drawCommand w m ns) → m ∈ Node.drawWords → (m, k) ∈ takes → k ≤ ns.length

theorem exists_translatesAll {ns : List Node} (h : ∀ n ∈ ns, ∃ s, Translates n s) :
    ∃ ss, TranslatesAll ns ss := by
  induction ns with
  | nil => exact ⟨[], .nil⟩
  | cons n ns ih =>
    rw [List.forall_mem_cons] at h
    obtain ⟨s, hs⟩ := h.1
    obtain ⟨ss, hss⟩ := ih h.2
    exact ⟨s :: ss, .cons hs hss⟩

theorem exists_translatesArms {arms : List (Node × List Node)}
    (ht : ∀ arm ∈ arms, arm.1.IsTest .lexed)
    (hb : ∀ arm ∈ arms, ∀ n ∈ arm.2, ∃ s, Translates n s) : ∃ arms', TranslatesArms arms arms' := by
  induction arms with
  | nil => exact ⟨[], .nil⟩
  | cons arm arms ih =>
    rw [List.forall_mem_cons] at ht hb
    obtain ⟨test, htest⟩ := exists_translatesTest ht.1
    obtain ⟨body, hbody⟩ := exists_translatesAll hb.1
    obtain ⟨arms', harms⟩ := ih ht.2 hb.2
    exact ⟨(test, body) :: arms', .cons htest hbody harms⟩

theorem exists_translatesOtherwise {otherwise : Option (List Node)}
    (h : ∀ block ∈ otherwise, ∀ n ∈ block, ∃ s, Translates n s) :
    ∃ otherwise', TranslatesOtherwise otherwise otherwise' := by
  match otherwise with
  | none => exact ⟨none, .none⟩
  | some [] => exact ⟨none, .empty⟩
  | some (n :: ns) =>
    obtain ⟨ss, hss⟩ := exists_translatesAll (h (n :: ns) rfl)
    exact ⟨some ss, .some hss⟩

theorem exists_translates_change {w m : String} {ns : List Node} (hw : IsName w)
    (hm : m ∈ Node.changeWords) (hns : ∀ n ∈ ns, n.IsExpr .lexed)
    (hk : ∀ k, (m, k) ∈ takes → k ≤ ns.length) : ∃ s, Translates (.cursorMethod w m ns) s := by
  obtain ⟨es, hes⟩ := exists_forall₂_translatesExpr hns
  have hall : ∀ m ∈ Node.changeWords, m = "thickness" ∨ m = "visible" ∨
      ∃ e ∈ changeCalls, e.1 = m ∧ (m, e.2.2) ∈ takes := by decide
  rcases hall m hm with rfl | rfl | ⟨⟨m, f, k⟩, he, rfl, ht⟩
  · have hpos := hk 1 (by decide)
    cases hes with
    | nil => simp at hpos
    | cons he hes => exact ⟨_, .thickness hw (.cons he hes)⟩
  · exact ⟨_, .visible hw hes⟩
  · exact ⟨_, .change hw he hes (hk k ht)⟩

theorem exists_translates_draw {w m : String} {ns : List Node} (hw : IsName w)
    (hm : m ∈ Node.drawWords) (hns : ∀ n ∈ ns, n.IsExpr .lexed)
    (hk : ∀ k, (m, k) ∈ takes → k ≤ ns.length) : ∃ s, Translates (.drawCommand w m ns) s := by
  obtain ⟨es, hes⟩ := exists_forall₂_translatesExpr hns
  have hall : ∀ m ∈ Node.drawWords, ∃ e ∈ drawCalls, e.1 = m ∧ (m, e.2.2) ∈ takes := by decide
  obtain ⟨⟨m, f, k⟩, he, rfl, ht⟩ := hall m hm
  exact ⟨_, .draw hw he hes (hk k ht)⟩

/-- A statement with enough arguments everywhere is translated. -/
theorem exists_translates {P : Node → Prop} (hP : Supplied P) {n : Node}
    (h : n.IsStatement .lexed) (hn : P n) : ∃ s, Translates n s := by
  induction h with
  | declaration h =>
    obtain ⟨s, hs⟩ := exists_translatesStart (.declaration h)
    exact ⟨_, .start hs⟩
  | assignment hx _ he =>
    obtain ⟨s, hs⟩ := exists_translatesStart (.assignment (.intro hx he))
    exact ⟨_, .start hs⟩
  | creation hw hx hy =>
    obtain ⟨w, rfl, hw⟩ := hw
    obtain ⟨x, hx⟩ := exists_translatesExpr hx
    obtain ⟨y, hy⟩ := exists_translatesExpr hy
    exact ⟨_, .creation hw hx hy⟩
  | change hw _ hm hns =>
    obtain ⟨w, rfl, hw⟩ := hw
    obtain ⟨m, hm, rfl⟩ := hm
    exact exists_translates_change hw hm hns fun k => hP.enough_of_change hn hm
  | draw hw _ hm hns =>
    obtain ⟨w, rfl, hw⟩ := hw
    obtain ⟨m, hm, rfl⟩ := hm
    exact exists_translates_draw hw hm hns fun k => hP.enough_of_draw hn hm
  | branch ht _ ha _ _ ihb iha iho =>
    obtain ⟨test, ht⟩ := exists_translatesTest ht
    obtain ⟨body, hb⟩ := exists_translatesAll fun n h => ihb n h (hP.body_of_branch hn n h)
    obtain ⟨arms, ha⟩ := exists_translatesArms ha
      fun arm h n h' => iha arm h n h' (hP.arms_of_branch hn arm h n h')
    obtain ⟨otherwise, ho⟩ := exists_translatesOtherwise
      fun b h n h' => iho b h n h' (hP.otherwise_of_branch hn b h n h')
    exact ⟨_, .branch ht hb ha ho⟩
  | whileLoop ht _ ihb =>
    obtain ⟨test, ht⟩ := exists_translatesTest ht
    obtain ⟨body, hb⟩ := exists_translatesAll fun n h => ihb n h (hP.body_of_whileLoop hn n h)
    exact ⟨_, .whileLoop ht hb⟩
  | forLoop hi ht hu _ ihb =>
    obtain ⟨init, hi⟩ := exists_translatesStart hi
    obtain ⟨test, ht⟩ := exists_translatesTest ht
    obtain ⟨update, hu⟩ := exists_translatesStart (.assignment hu)
    obtain ⟨body, hb⟩ := exists_translatesAll fun n h => ihb n h (hP.body_of_forLoop hn n h)
    exact ⟨_, .forLoop hi ht hu hb⟩

/-! ## The characters of a translation -/

def isPlain (c : Char) : Bool :=
  c ∈ [' ', '(', ')', ',', '.', '+', '-', '*', '/', '%', '<', '>', '=', '!', '_'] || isWordChar c

/-- Every character is one of expressions. -/
def Plain (text : String) : Prop := text.toList.all isPlain = true

instance : DecidablePred Plain := fun text =>
  inferInstanceAs (Decidable (text.toList.all isPlain = true))

theorem plain_iff {text : String} : Plain text ↔ ∀ c ∈ text.toList, isPlain c = true :=
  List.all_eq_true

@[simp] theorem plain_append {s t : String} : Plain (s ++ t) ↔ Plain s ∧ Plain t := by
  simp [Plain]

theorem isPlain_of_isWordChar {c : Char} (h : isWordChar c = true) : isPlain c = true := by
  simp [isPlain, h]

theorem plain_of_isName {w : String} (h : IsName w) : Plain w := by
  obtain ⟨⟨c, rest, hw, hc, hrest⟩, -⟩ := h
  rw [plain_iff, hw]
  intro d hd
  rcases List.mem_cons.mp hd with rfl | hd
  · exact isPlain_of_isWordChar (isWordChar_of_isWordStart hc)
  · exact isPlain_of_isWordChar (hrest d hd)

theorem isPlain_of_isNumeral {text : List Char} (h : IsNumeral text) :
    ∀ c ∈ text, isPlain c = true := by
  have hdigit {c : Char} (hc : c.isDigit = true) : isPlain c = true :=
    isPlain_of_isWordChar (isWordChar_of_isDigit hc)
  obtain ⟨d, body, exponent, rfl, hd, hbody, he⟩ := h
  intro c hc
  simp only [List.mem_cons, List.mem_append] at hc
  rcases hc with rfl | hc | hc
  · exact hdigit hd
  · rcases hbody c hc with h | rfl
    · exact hdigit h
    · rfl
  · rcases he with rfl | ⟨s, rest, rfl, hs, hrest⟩
    · cases hc
    · simp only [List.mem_cons] at hc
      rcases hc with rfl | rfl | hc
      · rfl
      · rcases hs with rfl | rfl <;> rfl
      · exact hdigit (hrest c hc)

theorem plain_sign : ∀ op ∈ [Kind.plus, .minus, .times, .slash, .modulo, .less, .lessEqual,
    .greater, .greaterEqual, .equal, .notEqual], ∀ s ∈ op.sign?, Plain s := by
  decide

theorem plain_of_translatesExpr {n : Node} {e : Expr} (h : TranslatesExpr n e) : Plain e.text := by
  induction h with
  | number hv hf => exact plain_iff.mpr (isPlain_of_isNumeral (Value.isNumeral_display hv hf))
  | infinite _ _ => decide
  | truth hw => rcases hw with rfl | rfl <;> decide
  | hue h => cases h <;> decide
  | mixed _ _ _ hr hg hb =>
    have hl : Plain "custom_color" ∧ Plain "(" ∧ Plain "Uint8" ∧ Plain ")" ∧ Plain ", " ∧
        Plain "255" := by simp [Plain, isPlain, isWordChar_of_ascii]
    simp only [Expr.text, Expr.texts, String.intercalate_cons_cons, String.intercalate_singleton,
      plain_append, hl, hr, hg, hb, and_self]
  | name hw => exact plain_of_isName hw
  | binary _ hop hs _ hl hr =>
    have hp : Plain "(" ∧ Plain " " ∧ Plain ")" := by decide
    have hop := plain_sign _ (operator_cases hop) _ hs
    simp only [Expr.text, plain_append, hp, hop, hl, hr, and_self]

end DrawPlus.Target
