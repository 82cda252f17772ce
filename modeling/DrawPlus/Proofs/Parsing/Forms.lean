import DrawPlus.Proofs.Parsing.Programs
import DrawPlus.Proofs.Scanning.Items

/-!
# The trees that are read

A tree may hold any node anywhere. Those that are read are built in a few forms: expressions stand
where expressions belong, statements where statements belong, and in the header of a loop stand
declarations and assignments. The rules for the names that size the window are part of the forms: no
statement assigns to such a name, but a header may. The number of arguments of a call is the one
thing about calls that reading leaves open.

What may stand at the ends of a tree is said by a vocabulary. Trees that are read from tokens, also
from such as no text has, may hold any values there (`isStatement_of_ofTokens`), and those that are
read from a text hold what the tokens of a text carry (`isStatement_of_ofText`). Both vocabularies
are coarser than the grammar: a comparison counts as an expression.
-/

namespace DrawPlus

/-- What a literal number can stand for. -/
inductive Value.IsLiteral : Value → Prop
  | int (n : ℕ) : IsLiteral (.int n)
  | double {x : Double} : x.IsMeasure → IsLiteral (.double x)

/-- What may stand where a tree has no trees in it: literals, names, operators, and the words for
methods that change a cursor or draw with it. -/
structure Vocabulary where
  number : Value → Prop
  truth : Value → Prop
  hue : Value → Prop
  name : Value → Prop
  operator : Kind → Prop
  change : Value → Prop
  draw : Value → Prop

namespace Node

def changeWords : List String := ["color", "thickness", "move", "rotate", "visible"]

def drawWords : List String :=
  ["draw_line", "draw_rectangle", "draw_circle", "draw_triangle", "draw_ellipse"]

section

variable (V : Vocabulary)

inductive IsExpr : Node → Prop
  | number {v : Value} : V.number v → IsExpr (.number v)
  | truth {v : Value} : V.truth v → IsExpr (.truth v)
  | hue {v : Value} : V.hue v → IsExpr (.color v none)
  | mixed {r g b : Node} : IsExpr r → IsExpr g → IsExpr b →
      IsExpr (.color .absent (some [r, g, b]))
  | name {x : Value} : V.name x → IsExpr (.variable x)
  | binary {l r : Node} {op : Kind} : IsExpr l → V.operator op → IsExpr r → IsExpr (.binary l op r)

/-- Conditions: expressions, and comparisons of two of them. -/
inductive IsTest : Node → Prop
  | expr {n : Node} : IsExpr V n → IsTest n
  | comparison {l r : Node} {op : Kind} : IsExpr V l → op.isComparison = true → IsExpr V r →
      IsTest (.binary l op r)

inductive IsAssignment : Node → Prop
  | intro {x : Value} {e : Node} : V.name x → IsExpr V e → IsAssignment (.assign x e)

inductive IsDeclaration : Node → Prop
  | intro {k : Kind} {x : Value} {e : Node} : k ∈ [Kind.int, .float, .bool, .color] → V.name x →
      NameRule.window.declares k x e → IsExpr V e → IsDeclaration (.varDecl (some k) x e)

/-- What can begin the header of a loop. -/
inductive IsStart : Node → Prop
  | declaration {n : Node} : IsDeclaration V n → IsStart n
  | assignment {n : Node} : IsAssignment V n → IsStart n

inductive IsStatement : Node → Prop
  | declaration {k : Kind} {x : Value} {e : Node} : IsDeclaration V (.varDecl (some k) x e) →
      IsStatement (.varDecl (some k) x e)
  | assignment {x : Value} {e : Node} : V.name x → NameRule.window.begins x → IsExpr V e →
      IsStatement (.assign x e)
  | creation {x : Value} {a b : Node} : V.name x → IsExpr V a → IsExpr V b →
      IsStatement (.cursorCreation x a b)
  | change {c m : Value} {ns : List Node} : V.name c → NameRule.window.begins c → V.change m →
      (∀ n ∈ ns, IsExpr V n) → IsStatement (.cursorMethod c m ns)
  | draw {c m : Value} {ns : List Node} : V.name c → NameRule.window.begins c → V.draw m →
      (∀ n ∈ ns, IsExpr V n) → IsStatement (.drawCommand c m ns)
  | branch {test : Node} {body : List Node} {arms : List (Node × List Node)}
      {otherwise : Option (List Node)} : IsTest V test → (∀ n ∈ body, IsStatement n) →
      (∀ arm ∈ arms, IsTest V arm.1) → (∀ arm ∈ arms, ∀ n ∈ arm.2, IsStatement n) →
      (∀ block ∈ otherwise, ∀ n ∈ block, IsStatement n) →
      IsStatement (.branch test body arms otherwise)
  | whileLoop {test : Node} {body : List Node} : IsTest V test → (∀ n ∈ body, IsStatement n) →
      IsStatement (.whileLoop test body)
  | forLoop {init test update : Node} {body : List Node} : IsStart V init → IsTest V test →
      IsAssignment V update → (∀ n ∈ body, IsStatement n) →
      IsStatement (.forLoop init test update body)

end

theorem IsDeclaration.isStatement {V : Vocabulary} {n : Node} (h : IsDeclaration V n) :
    IsStatement V n := by
  cases h with
  | intro hk hx hd he => exact .declaration (.intro hk hx hd he)

end Node

namespace Vocabulary

/-- Any operator of the language may stand in an expression, comparisons too. -/
def IsCoarse (V : Vocabulary) : Prop :=
  ∀ op : Kind, op.isArithmetic = true ∨ op.isComparison = true → V.operator op

/-- Any values, with any operators of the language. -/
def any : Vocabulary where
  number _ := True
  truth _ := True
  hue _ := True
  name _ := True
  operator op := op.isArithmetic = true ∨ op.isComparison = true
  change _ := True
  draw _ := True

/-- The values that tokens of a text carry. -/
def lexed : Vocabulary where
  number := Value.IsLiteral
  truth v := v = .text "true" ∨ v = .text "false"
  hue v := ∃ h : Hue, v = .text h.name
  name v := ∃ w, v = .text w ∧ IsName w
  operator op := op.isArithmetic = true ∨ op.isComparison = true
  change v := ∃ m ∈ Node.changeWords, v = .text m
  draw v := ∃ m ∈ Node.drawWords, v = .text m

theorem isCoarse_any : any.IsCoarse := fun _ h => h

theorem isCoarse_lexed : lexed.IsCoarse := fun _ h => h

end Vocabulary

theorem Node.IsTest.isExpr {V : Vocabulary} (hV : V.IsCoarse) {n : Node} (h : IsTest V n) :
    IsExpr V n := by
  cases h with
  | expr hn => exact hn
  | comparison hl hop hr => exact .binary hl (hV _ (.inr hop)) hr

/-! ## What tokens of a kind carry -/

namespace Token.Faithful

variable {t : Token}

theorem value_of_identifier (h : t.Faithful) (hk : t.kind = .identifier) :
    ∃ w, t.value = .text w ∧ IsName w := by
  cases h with
  | name hw => exact ⟨_, rfl, hw⟩
  | keyword hw =>
    obtain rfl := hk
    revert hw
    simp [keywords, Hue.all]
  | sign hs =>
    obtain rfl := hk
    cases hs
  | integer | decimal => cases hk

theorem value_of_number (h : t.Faithful) (hk : t.kind = .number) : t.value.IsLiteral := by
  cases h with
  | name => cases hk
  | keyword hw =>
    obtain rfl := hk
    revert hw
    simp [keywords, Hue.all]
  | sign hs =>
    obtain rfl := hk
    cases hs
  | integer n => exact .int n
  | decimal hx => exact .double hx

theorem value_of_boolValue (h : t.Faithful) (hk : t.kind = .boolValue) :
    ∃ w, t.value = .text w ∧ (w = "true" ∨ w = "false") := by
  cases h with
  | name => cases hk
  | keyword hw =>
    obtain rfl := hk
    refine ⟨_, rfl, ?_⟩
    revert hw
    simp [keywords, Hue.all]
  | sign hs =>
    obtain rfl := hk
    cases hs
  | integer | decimal => cases hk

theorem hue_of_keyword : ∀ e ∈ keywords, ∀ c ∈ Hue.all, e.2 = .hue c → e.1 = c.name := by
  decide

theorem mem_all_hue (c : Hue) : c ∈ Hue.all := by
  cases c <;> decide

theorem value_of_hue {c : Hue} (h : t.Faithful) (hk : t.kind = .hue c) :
    t.value = .text c.name := by
  cases h with
  | name => cases hk
  | keyword hw => exact congrArg Value.text (hue_of_keyword _ hw c (mem_all_hue c) hk)
  | sign hs =>
    obtain rfl := hk
    cases hs
  | integer | decimal => cases hk

end Token.Faithful

theorem word_of_drawing : ∀ e ∈ keywords, e.2 ∈ Grammar.drawing → e.1 ∈ Node.drawWords := by
  decide

theorem word_of_changing : ∀ e ∈ keywords, e.2 ∈ Grammar.changing → e.1 ∈ Node.changeWords := by
  decide

namespace Vocabulary

variable {V : Vocabulary}

/-- The token carries what the vocabulary has for its kind. -/
structure Admits (V : Vocabulary) (t : Token) : Prop where
  number : t.kind = .number → V.number t.value
  truth : t.kind = .boolValue → V.truth t.value
  hue : ∀ c, t.kind = .hue c → V.hue t.value
  name : t.kind = .identifier → V.name t.value
  method : t.kind ∈ Grammar.drawing ++ Grammar.changing → ∀ w, t.value = .text w →
    if "draw_".toList.isPrefixOf w.toList then V.draw t.value else V.change t.value

theorem any_admits (t : Token) : any.Admits t where
  number _ := trivial
  truth _ := trivial
  hue _ _ := trivial
  name _ := trivial
  method _ _ _ := by split_ifs <;> trivial

theorem admits_of_endOfInput {t : Token} (h : t.kind = .endOfInput) : V.Admits t := by
  constructor <;> simp [h, Grammar.drawing, Grammar.changing]

theorem lexed_admits {t : Token} (h : t.Faithful) : lexed.Admits t where
  number hk := h.value_of_number hk
  truth hk := by
    obtain ⟨w, hw, rfl | rfl⟩ := h.value_of_boolValue hk
    · exact .inl hw
    · exact .inr hw
  hue c hk := ⟨c, h.value_of_hue hk⟩
  name hk := h.value_of_identifier hk
  method hk w hw := by
    obtain ⟨w', hw', hmem⟩ := Parse.keyword_of_method h hk
    cases hw.symm.trans hw'
    rcases List.mem_append.mp hk with hk | hk
    · rw [if_pos (Parse.spelling_of_drawing _ hmem hk)]
      exact ⟨w, word_of_drawing _ hmem hk, hw⟩
    · rw [if_neg (by rw [Parse.spelling_of_changing _ hmem hk]; decide)]
      exact ⟨w, word_of_changing _ hmem hk, hw⟩

/-- All tokens of the feed carry what the vocabulary has for their kinds. -/
def Feeds (V : Vocabulary) (f : Feed) : Prop := ∀ t ∈ f.ahead, V.Admits t

namespace Feeds

variable {f g : Feed}

theorem current (h : V.Feeds f) : V.Admits f.current := h _ List.mem_cons_self

theorem next (h : V.Feeds f) : V.Feeds f.next := fun t ht => h t (f.ahead_next_subset ht)

theorem passes (h : V.Feeds f) {ts : List Token} (hp : f.Passes ts g) :
    (∀ t ∈ ts, V.Admits t) ∧ V.Feeds g :=
  ⟨fun t ht => h t (hp.subset.1 ht), fun t ht => h t (hp.subset.2 ht)⟩

end Feeds

end Vocabulary

open Node

/-! ## From the grammar to expressions -/

namespace Grammar

variable {V : Vocabulary}

-- The rules of expressions call each other.
mutual

theorem Sum.isExpr (hV : V.IsCoarse) {ts : List Token} {n : Node} :
    Sum ts n → (∀ t ∈ ts, V.Admits t) → IsExpr V n
  | .product h, hts => h.isExpr hV hts
  | .more hl hop hr, hts => by
    refine .binary (hl.isExpr hV fun t ht => hts t (by simp [ht])) (hV _ (.inl ?_))
      (hr.isExpr hV fun t ht => hts t (by simp [ht]))
    simp only [List.mem_cons, List.not_mem_nil, or_false] at hop
    rcases hop with hop | hop <;> rw [hop] <;> rfl

theorem Product.isExpr (hV : V.IsCoarse) {ts : List Token} {n : Node} :
    Product ts n → (∀ t ∈ ts, V.Admits t) → IsExpr V n
  | .factor h, hts => h.isExpr hV hts
  | .more hl hop hr, hts => by
    refine .binary (hl.isExpr hV fun t ht => hts t (by simp [ht])) (hV _ (.inl ?_))
      (hr.isExpr hV fun t ht => hts t (by simp [ht]))
    simp only [List.mem_cons, List.not_mem_nil, or_false] at hop
    rcases hop with hop | hop | hop <;> rw [hop] <;> rfl

theorem Factor.isExpr (hV : V.IsCoarse) {ts : List Token} {n : Node} :
    Factor ts n → (∀ t ∈ ts, V.Admits t) → IsExpr V n
  | .number hk, hts => .number ((hts _ (by simp)).number hk)
  | .truth hk, hts => .truth ((hts _ (by simp)).truth hk)
  | .hue hk, hts => .hue ((hts _ (by simp)).hue _ hk)
  | .mixed _ _ hr _ hg _ hb _, hts =>
    .mixed (hr.isExpr hV fun t ht => hts t (by simp [ht]))
      (hg.isExpr hV fun t ht => hts t (by simp [ht]))
      (hb.isExpr hV fun t ht => hts t (by simp [ht]))
  | .variable hk, hts => .name ((hts _ (by simp)).name hk)
  | .group _ hn _, hts => hn.isExpr hV fun t ht => hts t (by simp [ht])

end

theorem Listed.isExpr (hV : V.IsCoarse) {ts : List Token} {ns : List Node} (h : Listed ts ns)
    (hts : ∀ t ∈ ts, V.Admits t) : ∀ n ∈ ns, IsExpr V n := by
  induction h with
  | one hn => simpa using hn.isExpr hV hts
  | more hn _ _ ih =>
    simp only [List.forall_mem_cons]
    exact ⟨hn.isExpr hV fun t ht => hts t (by simp [ht]), ih fun t ht => hts t (by simp [ht])⟩

theorem Arguments.isExpr (hV : V.IsCoarse) {ts : List Token} {ns : List Node} (h : Arguments ts ns)
    (hts : ∀ t ∈ ts, V.Admits t) : ∀ n ∈ ns, IsExpr V n := by
  cases h with
  | none => simp
  | some hl => exact hl.isExpr hV hts

theorem isArithmetic_of_compound {k op : Kind} (h : Compound k op) : op.isArithmetic = true := by
  cases h <;> rfl

end Grammar

/-! ## From rules to statements -/

namespace Parse

open Grammar

variable {V : Vocabulary} {f h : Feed} {n : Node}

section

variable (hV : V.IsCoarse)

include hV

theorem isExpr_of_sum (hf : V.Feeds f) (hr : sum f = .ok n h) : IsExpr V n ∧ V.Feeds h := by
  obtain ⟨ts, hts, hp⟩ := sum_sound hr
  obtain ⟨hadmits, hh⟩ := hf.passes hp
  exact ⟨hts.isExpr hV hadmits, hh⟩

theorem isExpr_of_arguments (hf : V.Feeds f) {ns : List Node} (hr : arguments f = .ok ns h) :
    (∀ n ∈ ns, IsExpr V n) ∧ V.Feeds h := by
  obtain ⟨ts, hts, hp⟩ := arguments_sound hr
  obtain ⟨hadmits, hh⟩ := hf.passes hp
  exact ⟨hts.isExpr hV hadmits, hh⟩

theorem isTest_of_condition (hf : V.Feeds f) (hr : condition f = .ok n h) :
    IsTest V n ∧ V.Feeds h := by
  obtain ⟨l, g, hl, ⟨hk, r, hs, rfl⟩ | ⟨-, rfl, rfl⟩⟩ := condition_eq_ok.mp hr
  · obtain ⟨hl, hg⟩ := isExpr_of_sum hV hf hl
    obtain ⟨hright, hh⟩ := isExpr_of_sum hV hg.next hs
    exact ⟨.comparison hl hk hright, hh⟩
  · obtain ⟨hl, hg⟩ := isExpr_of_sum hV hf hl
    exact ⟨.expr hl, hg⟩

theorem isTest_of_guarded (hf : V.Feeds f) (hr : guarded f = .ok n h) :
    IsTest V n ∧ V.Feeds h := by
  obtain ⟨-, g, hn, -, rfl⟩ := guarded_eq_ok.mp hr
  obtain ⟨hn, hg⟩ := isTest_of_condition hV hf.next hn
  exact ⟨hn, hg.next⟩

theorem isExpr_of_assignment {x : Value} (hx : V.name x) {b : Bool} (hf : V.Feeds f)
    (hr : assignment x b f = .ok n h) : (∃ e, n = .assign x e ∧ IsExpr V e) ∧ V.Feeds h := by
  obtain ⟨r, g, hs, hz, hn⟩ := assignment_eq_ok.mp hr
  obtain ⟨hvalue, hg⟩ := isExpr_of_sum hV hf.next hs
  have hh : V.Feeds h := by
    cases b with
    | true =>
      obtain ⟨-, rfl⟩ := hz
      exact hg.next
    | false =>
      obtain rfl := hz
      exact hg
  rcases hn with ⟨op, hc, rfl⟩ | ⟨-, rfl⟩
  · exact ⟨⟨_, rfl, .binary (.name hx) (hV _ (.inl (isArithmetic_of_compound hc))) hvalue⟩, hh⟩
  · exact ⟨⟨_, rfl, hvalue⟩, hh⟩

theorem isDeclaration_of_declaration (hf : V.Feeds f) (hr : declaration f = .ok n h) :
    IsDeclaration V n ∧ V.Feeds h := by
  obtain ⟨-, ht, hx, -, e, g, he, hd, -, rfl, rfl⟩ := declaration_eq_ok.mp hr
  obtain ⟨he, hg⟩ := isExpr_of_sum hV hf.next.next.next.next he
  exact ⟨.intro ht (hf.next.next.current.name hx) hd he, hg.next⟩

theorem isStatement_of_cursorCreation (hf : V.Feeds f) (hr : cursorCreation f = .ok n h) :
    IsStatement V n ∧ V.Feeds h := by
  obtain ⟨-, hx, -, -, -, x, g₁, h₁, -, y, g₂, h₂, -, -, rfl, rfl⟩ := cursorCreation_eq_ok.mp hr
  obtain ⟨hfirst, hg₁⟩ := isExpr_of_sum hV hf.next.next.next.next.next h₁
  obtain ⟨hsecond, hg₂⟩ := isExpr_of_sum hV hg₁.next h₂
  exact ⟨.creation (hf.next.current.name hx) hfirst hsecond, hg₂.next.next⟩

theorem isStatement_of_named (hf : V.Feeds f) (hr : named f = .ok n h) :
    IsStatement V n ∧ V.Feeds h := by
  obtain ⟨hw, hx, ⟨-, hm, hc⟩ | ⟨-, -, ha⟩⟩ := named_eq_ok.mp hr
  · obtain ⟨-, ns, g, hns, -, -, rfl, w, hv, rfl⟩ := methodCall_eq_ok.mp hc
    obtain ⟨hns, hg⟩ := isExpr_of_arguments hV hf.next.next.next.next hns
    have hmethod := hf.next.next.current.method
      (List.mem_append.mpr (isMethod_eq_true.mp hm)) w hv
    refine ⟨?_, hg.next.next⟩
    rw [hv] at hmethod
    unfold callNode
    split_ifs at hmethod ⊢
    · exact .draw (hf.current.name hx) hw hmethod hns
    · exact .change (hf.current.name hx) hw hmethod hns
  · obtain ⟨⟨e, rfl, he⟩, hh⟩ := isExpr_of_assignment hV (hf.current.name hx) hf.next ha
    exact ⟨.assignment (hf.current.name hx) hw he, hh⟩

theorem isStart_of_loopStart (hf : V.Feeds f) (hr : loopStart f = .ok n h) :
    IsStart V n ∧ V.Feeds h := by
  obtain ⟨-, hd⟩ | ⟨hx, ha⟩ := loopStart_eq_ok.mp hr
  · exact (isDeclaration_of_declaration hV hf hd).imp_left .declaration
  · obtain ⟨⟨e, rfl, he⟩, hh⟩ := isExpr_of_assignment hV (hf.current.name hx) hf.next ha
    exact ⟨.assignment (.intro (hf.current.name hx) he), hh⟩

theorem isAssignment_of_loopStep (hf : V.Feeds f) (hr : loopStep f = .ok n h) :
    IsAssignment V n ∧ V.Feeds h := by
  obtain ⟨hx, ha⟩ := loopStep_eq_ok.mp hr
  obtain ⟨⟨e, rfl, he⟩, hh⟩ := isExpr_of_assignment hV (hf.current.name hx) hf.next ha
  exact ⟨.intro (hf.current.name hx) he, hh⟩

end

-- The rules with a body call each other with a smaller depth.
mutual

theorem isStatement_of_statementWithin (hV : V.IsCoarse) :
    ∀ (d : ℕ) {f h : Feed} {n : Node}, V.Feeds f →
      statementWithin d f = .ok n h → IsStatement V n ∧ V.Feeds h
  | 0, _, _, _, _, hr => by simp [statementWithin] at hr
  | d + 1, f, h, n, hf, hr => by
    obtain ⟨-, hs⟩ | ⟨-, hs⟩ | ⟨-, hs⟩ | ⟨-, hs⟩ | ⟨-, hs⟩ | ⟨-, hs⟩ := statementWithin_eq_ok.mp hr
    · exact (isDeclaration_of_declaration hV hf hs).imp_left (·.isStatement)
    · exact isStatement_of_cursorCreation hV hf hs
    · exact isStatement_of_named hV hf hs
    · exact isStatement_of_branchWithin hV d hf hs
    · exact isStatement_of_forLoopWithin hV d hf hs
    · exact isStatement_of_whileLoopWithin hV d hf hs

theorem isStatement_of_statementsWithin (hV : V.IsCoarse) :
    ∀ (d : ℕ) {f h : Feed} {ns : List Node}, V.Feeds f →
      statementsWithin d f = .ok ns h → (∀ n ∈ ns, IsStatement V n) ∧ V.Feeds h
  | 0, _, _, _, _, hr => by simp [statementsWithin] at hr
  | d + 1, f, h, ns, hf, hr => by
    obtain ⟨-, rfl, rfl⟩ | ⟨-, n, g, hn, ms, hms, rfl⟩ := statementsWithin_eq_ok.mp hr
    · exact ⟨by simp, hf⟩
    · obtain ⟨hn, hg⟩ := isStatement_of_statementWithin hV d hf hn
      obtain ⟨hms, hh⟩ := isStatement_of_statementsWithin hV d hg hms
      exact ⟨List.forall_mem_cons.mpr ⟨hn, hms⟩, hh⟩

theorem isStatement_of_blockWithin (hV : V.IsCoarse) :
    ∀ (d : ℕ) {f h : Feed} {ns : List Node}, V.Feeds f →
      blockWithin d f = .ok ns h → (∀ n ∈ ns, IsStatement V n) ∧ V.Feeds h
  | 0, _, _, _, _, hr => by simp [blockWithin] at hr
  | d + 1, f, h, ns, hf, hr => by
    obtain ⟨-, g, hns, -, rfl⟩ := blockWithin_eq_ok.mp hr
    exact (isStatement_of_statementsWithin hV d hf.next hns).imp_right (·.next)

theorem isStatement_of_armsWithin (hV : V.IsCoarse) :
    ∀ (d : ℕ) {f h : Feed} {as : List (Node × List Node)}, V.Feeds f → armsWithin d f = .ok as h →
      (∀ arm ∈ as, IsTest V arm.1 ∧ ∀ n ∈ arm.2, IsStatement V n) ∧ V.Feeds h
  | 0, _, _, _, _, hr => by simp [armsWithin] at hr
  | d + 1, f, h, as, hf, hr => by
    obtain ⟨-, test, g₁, h₁, body, g₂, h₂, rest, h₃, rfl⟩ | ⟨-, rfl, rfl⟩ := armsWithin_eq_ok.mp hr
    · obtain ⟨htest, hg₁⟩ := isTest_of_guarded hV hf.next h₁
      obtain ⟨hbody, hg₂⟩ := isStatement_of_blockWithin hV d hg₁ h₂
      obtain ⟨hrest, hh⟩ := isStatement_of_armsWithin hV d hg₂ h₃
      exact ⟨List.forall_mem_cons.mpr ⟨⟨htest, hbody⟩, hrest⟩, hh⟩
    · exact ⟨by simp, hf⟩

theorem isStatement_of_branchWithin (hV : V.IsCoarse) :
    ∀ (d : ℕ) {f h : Feed} {n : Node}, V.Feeds f →
      branchWithin d f = .ok n h → IsStatement V n ∧ V.Feeds h
  | 0, _, _, _, _, hr => by simp [branchWithin] at hr
  | d + 1, f, h, n, hf, hr => by
    obtain ⟨-, test, g₁, h₁, body, g₂, h₂, arms, g₃, h₃, otherwise, g₄, h₄, -, rfl, rfl⟩ :=
      branchWithin_eq_ok.mp hr
    obtain ⟨htest, hg₁⟩ := isTest_of_guarded hV hf.next h₁
    obtain ⟨hbody, hg₂⟩ := isStatement_of_blockWithin hV d hg₁ h₂
    obtain ⟨harms, hg₃⟩ := isStatement_of_armsWithin hV d hg₂ h₃
    have hlast : (∀ block ∈ otherwise, ∀ n ∈ block, IsStatement V n) ∧ V.Feeds g₄ := by
      obtain ⟨-, block, hb, rfl⟩ | ⟨-, rfl, rfl⟩ := otherwiseWithin_eq_ok.mp h₄
      · simpa using isStatement_of_blockWithin hV d hg₃.next hb
      · exact ⟨by simp, hg₃⟩
    exact ⟨.branch htest hbody (fun arm ha => (harms arm ha).1) (fun arm ha => (harms arm ha).2)
      hlast.1, hlast.2.next⟩

theorem isStatement_of_forLoopWithin (hV : V.IsCoarse) :
    ∀ (d : ℕ) {f h : Feed} {n : Node}, V.Feeds f →
      forLoopWithin d f = .ok n h → IsStatement V n ∧ V.Feeds h
  | 0, _, _, _, _, hr => by simp [forLoopWithin] at hr
  | d + 1, f, h, n, hf, hr => by
    obtain ⟨-, -, init, g₁, h₁, test, g₂, h₂, -, update, g₃, h₃, -, body, g₄, h₄, -, rfl, rfl⟩ :=
      forLoopWithin_eq_ok.mp hr
    obtain ⟨hinit, hg₁⟩ := isStart_of_loopStart hV hf.next.next h₁
    obtain ⟨htest, hg₂⟩ := isTest_of_condition hV hg₁ h₂
    obtain ⟨hupdate, hg₃⟩ := isAssignment_of_loopStep hV hg₂.next h₃
    obtain ⟨hbody, hg₄⟩ := isStatement_of_blockWithin hV d hg₃.next h₄
    exact ⟨.forLoop hinit htest hupdate hbody, hg₄.next⟩

theorem isStatement_of_whileLoopWithin (hV : V.IsCoarse) :
    ∀ (d : ℕ) {f h : Feed} {n : Node}, V.Feeds f →
      whileLoopWithin d f = .ok n h → IsStatement V n ∧ V.Feeds h
  | 0, _, _, _, _, hr => by simp [whileLoopWithin] at hr
  | d + 1, f, h, n, hf, hr => by
    obtain ⟨-, test, g₁, h₁, body, g₂, h₂, -, rfl, rfl⟩ := whileLoopWithin_eq_ok.mp hr
    obtain ⟨htest, hg₁⟩ := isTest_of_guarded hV hf.next h₁
    obtain ⟨hbody, hg₂⟩ := isStatement_of_blockWithin hV d hg₁ h₂
    exact ⟨.whileLoop htest hbody, hg₂.next⟩

end

theorem isStatement_of_programWithin (hV : V.IsCoarse) {d : ℕ} {ns : List Node} (hf : V.Feeds f)
    (hr : programWithin d f = .ok ns h) : ∀ n ∈ ns, IsStatement V n := by
  induction d generalizing f ns with
  | zero => simp [programWithin] at hr
  | succ d ih =>
    obtain ⟨-, rfl, -⟩ | ⟨-, n, g, hn, ms, hms, rfl⟩ := programWithin_eq_ok.mp hr
    · simp
    · obtain ⟨hn, hg⟩ := isStatement_of_statementWithin hV _ hf hn
      exact List.forall_mem_cons.mpr ⟨hn, ih hg hms⟩

end Parse

/-- Tokens that the vocabulary admits are read as a program of its statements. -/
theorem isStatement_of_admits {V : Vocabulary} (hV : V.IsCoarse) {tokens : List Token}
    (hts : ∀ t ∈ tokens, V.Admits t) {tree : Node} (h : Node.ofTokens tokens = .ok tree) :
    ∃ ns, tree = .program ns ∧ ∀ n ∈ ns, n.IsStatement V := by
  cases tokens with
  | nil => cases h
  | cons first rest =>
    obtain ⟨g, hr⟩ := Node.ofTokens_cons_eq_ok.mp h
    obtain ⟨ns, hns, rfl⟩ := Parse.program_eq_ok.mp hr
    have hfeeds : V.Feeds ⟨first, rest, 0⟩ := hts
    exact ⟨ns, rfl, Parse.isStatement_of_programWithin hV hfeeds hns⟩

theorem isStatement_of_ofTokens {tokens : List Token} {tree : Node}
    (h : Node.ofTokens tokens = .ok tree) :
    ∃ ns, tree = .program ns ∧ ∀ n ∈ ns, n.IsStatement .any :=
  isStatement_of_admits Vocabulary.isCoarse_any (fun t _ => Vocabulary.any_admits t) h

theorem isStatement_of_lexed {tokens : List Token} (hl : Token.Lexed tokens) {tree : Node}
    (h : Node.ofTokens tokens = .ok tree) :
    ∃ ns, tree = .program ns ∧ ∀ n ∈ ns, n.IsStatement .lexed := by
  refine isStatement_of_admits Vocabulary.isCoarse_lexed (fun t ht => ?_) h
  obtain ⟨body, last, rfl, hlast, hbody⟩ := hl
  rcases List.mem_append.mp ht with ht | ht
  · exact Vocabulary.lexed_admits (hbody t ht)
  · obtain rfl := List.mem_singleton.mp ht
    exact Vocabulary.admits_of_endOfInput hlast

theorem isStatement_of_ofText {source : String} {tree : Node}
    (h : Node.ofText source = .ok tree) :
    ∃ ns, tree = .program ns ∧ ∀ n ∈ ns, n.IsStatement .lexed := by
  obtain ⟨tokens, ht, hn⟩ := exists_ofTokens_of_ofText h
  exact isStatement_of_lexed (lexed_of_ofText ht) hn

end DrawPlus
