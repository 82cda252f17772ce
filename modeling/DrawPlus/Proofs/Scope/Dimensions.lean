import DrawPlus.Proofs.Parsing.ReadBack
import DrawPlus.Proofs.Scope.Formulas

/-!
# Constant sizes of the window

A window dimension that is declared with a number has to be from 340 to 1000. The rule looks at the
form of the initial value and not at what it comes to: for sums, differences and products of whole
numbers nothing is asked, wherever in a program the declaration stands, and so an accepted program
can give its window any size.

`IsConstant` says what a constant comes to. The numbers in it are those that can be written, with at
most `maxIntegerDigits` digits.
-/

namespace DrawPlus

namespace Node

/-- The node is made of whole numbers by addition, subtraction and multiplication, and has this
value. -/
inductive IsConstant : Node → ℤ → Prop
  | number {n : ℕ} : n < 10 ^ maxIntegerDigits → IsConstant (.number (.int n)) n
  | plus {l r : Node} {a b : ℤ} : IsConstant l a → IsConstant r b →
      IsConstant (.binary l .plus r) (a + b)
  | minus {l r : Node} {a b : ℤ} : IsConstant l a → IsConstant r b →
      IsConstant (.binary l .minus r) (a - b)
  | times {l r : Node} {a b : ℤ} : IsConstant l a → IsConstant r b →
      IsConstant (.binary l .times r) (a * b)

section

variable {e : Node} {v : ℤ}

theorem IsConstant.isExpr (h : e.IsConstant v) : e.IsExpr .printable := by
  induction h with
  | number hn => exact .number ⟨_, rfl, hn⟩
  | plus _ _ ihl ihr => exact .binary ihl rfl ihr
  | minus _ _ ihl ihr => exact .binary ihl rfl ihr
  | times _ _ ihl ihr => exact .binary ihl rfl ihr

theorem IsConstant.modulo_notMem (h : e.IsConstant v) : Lexeme.sign .modulo ∉ e.lexemes := by
  induction h with
  | number => simp [lexemes]
  | plus _ _ ihl ihr => simp [lexemes, ihl, ihr]
  | minus _ _ ihl ihr => simp [lexemes, ihl, ihr]
  | times _ _ ihl ihr => simp [lexemes, ihl, ihr]

/-- A constant is an integer in every scope. -/
theorem IsConstant.check_node (h : e.IsConstant v) (s : Scope) :
    Check.node e s = .ok (some .int) s := by
  induction h with
  | number => rfl
  | plus _ _ ihl ihr =>
    rw [Check.node, bind_of_ok ihl, bind_of_ok ihr]
    rfl
  | minus _ _ ihl ihr =>
    rw [Check.node, bind_of_ok ihl, bind_of_ok ihr]
    rfl
  | times _ _ ihl ihr =>
    rw [Check.node, bind_of_ok ihl, bind_of_ok ihr]
    rfl

/-- The value of a constant that is a number is the number. -/
theorem IsConstant.eq_of_number {u : Value} (h : (Node.number u).IsConstant v) : u = .int v := by
  cases h
  rfl

theorem exists_isConstant_natural (n : ℕ) : ∃ l r, (Node.binary l .plus r).IsConstant n := by
  have hfigure {k : ℕ} (hk : k < 10) : (Node.number (.int k)).IsConstant k :=
    .number (hk.trans_le (Nat.le_self_pow (by decide) 10))
  induction n with
  | zero => exact ⟨_, _, .plus (hfigure (by decide : 0 < 10)) (hfigure (by decide : 0 < 10))⟩
  | succ n ih =>
    obtain ⟨l, r, hn⟩ := ih
    exact ⟨_, _, .plus hn (hfigure (by decide : 1 < 10))⟩

/-- Every integer is the value of an operation. -/
theorem exists_isConstant (v : ℤ) : ∃ e : Node, e.IsConstant v ∧ ∀ u, e ≠ .number u := by
  cases v with
  | ofNat n =>
    obtain ⟨l, r, hn⟩ := exists_isConstant_natural n
    exact ⟨_, hn, nofun⟩
  | negSucc n =>
    obtain ⟨l, r, hn⟩ := exists_isConstant_natural (n + 1)
    have hzero : (Node.number (.int 0)).IsConstant 0 := .number (n := 0) (Nat.pow_pos (by decide))
    have hminus := hzero.minus hn
    rw [zero_sub] at hminus
    exact ⟨_, hminus, nofun⟩

/-- What the rule for names asks of a constant: one that is a number must be in the range. -/
theorem IsConstant.declares_iff (h : e.IsConstant v) {name : Value}
    (hname : NameRule.IsWindow name) :
    NameRule.window.declares .int name e ↔ (e = .number (.int v) → 340 ≤ v ∧ v ≤ 1000) := by
  constructor
  · rintro hdeclares rfl
    obtain ⟨-, hrange⟩ := hdeclares hname
    simpa [Value.below?, Value.above?] using hrange _ rfl
  · intro hrange _
    refine ⟨rfl, ?_⟩
    rintro u rfl
    obtain rfl := h.eq_of_number
    simpa [Value.below?, Value.above?] using hrange rfl

end

/-- Every declaration in a tree that is read from a text obeys the rule for names. -/
theorem Part.declares {source : String} {tree : Node} (h : Node.ofText source = .ok tree)
    {p : Place} {type : Option Kind} {name : Value} {e : Node}
    (hp : tree.Part p (.varDecl type name e)) :
    ∃ k, type = some k ∧ NameRule.window.declares k name e := by
  obtain ⟨tokens, -, hn⟩ := exists_ofTokens_of_ofText h
  obtain ⟨ns, rfl, hns⟩ := isStatement_of_ofTokens hn
  have hform := hp.formIn Vocabulary.isCoarse_any hns
  cases p with
  | statement =>
    obtain ⟨_, _, hdeclares, _⟩ := hform
    exact ⟨_, rfl, hdeclares⟩
  | header =>
    obtain ⟨_, _, hdeclares, _⟩ | ⟨⟨⟩⟩ := hform
    exact ⟨_, rfl, hdeclares⟩
  | operand => cases hform

/-! ## Programs that give the window a size -/

/-- The window dimension besides this one. -/
def otherDimension (name : String) : String :=
  if name = "windowWidth" then "windowHeight" else "windowWidth"

/-- A program that declares this window dimension with the given initial value. -/
def sizing (name : String) (e : Node) : List Node :=
  [.varDecl (some .int) name e, .varDecl (some .int) (otherDimension name) (.number (.int 400))]

section

variable {name : String} {e : Node} {v : ℤ}

theorem ofText_sizing (hname : NameRule.IsWindow name) (he : e.IsConstant v)
    (hrange : e = .number (.int v) → 340 ≤ v ∧ v ≤ 1000) :
    Node.ofText (source (.program (sizing name e))) = .ok (.program (sizing name e)) := by
  have hisName : IsName name ∧ IsName (otherDimension name) := by
    rcases hname with hname | hname <;> cases hname <;>
      exact ⟨isName_of_isAsciiWord (by decide) (by decide),
        isName_of_isAsciiWord (by decide) (by decide)⟩
  have hsize : (Node.number (.int 400)).IsConstant 400 :=
    .number (n := 400) windowSize_lt
  have hother : NameRule.window.declares .int (otherDimension name) (.number (.int 400)) := by
    refine fun _ => ⟨rfl, ?_⟩
    rintro u ⟨⟩
    decide
  refine ofText_of_notMem_modulo ?_ ?_
  · simp only [sizing, List.forall_mem_cons, List.not_mem_nil, false_implies, implies_true,
      and_true]
    exact ⟨.declaration (.intro (by decide) ⟨_, rfl, hisName.1⟩ ((he.declares_iff hname).mpr hrange)
        he.isExpr),
      .declaration (.intro (by decide) ⟨_, rfl, hisName.2⟩ hother hsize.isExpr)⟩
  · simp [sizing, lexemes, lexemesAll, he.modulo_notMem]

theorem check_sizing (hname : NameRule.IsWindow name) (he : e.IsConstant v) :
    (Node.program (sizing name e)).check = .ok () := by
  have hfirst : Check.node (.varDecl (some .int) name e) .empty =
      .ok none ⟨[(.text name, some .int)], []⟩ := by
    have hdeclare : Check.declareVariable (.text name) (some .int) .empty =
        .ok () ⟨[(.text name, some .int)], []⟩ := rfl
    have habsent : e ≠ .absent := by
      rintro rfl
      cases he
    rw [Check.node_varDecl_eq habsent, bind_of_ok hdeclare, bind_of_ok (he.check_node _)]
    rfl
  rw [check_program_eq_ok, sizing]
  refine ⟨⟨[(.text name, some .int), (.text (otherDimension name), some .int)], []⟩, ?_, ?_⟩
  · rw [Check.all, bind_of_ok hfirst]
    rcases hname with hname | hname <;> cases hname <;> rfl
  · rcases hname with hname | hname <;> cases hname <;> rfl

end

/-- An accepted program declares the name with this initial value, wherever in the program. -/
def IsInitialValue (name : String) (e : Node) : Prop :=
  ∃ source tree p type, Node.ofText source = .ok tree ∧ tree.check = .ok () ∧
    tree.Part p (.varDecl type name e)

theorem IsConstant.isInitialValue_iff {name : String} {e : Node} {v : ℤ} (he : e.IsConstant v)
    (hname : NameRule.IsWindow name) :
    IsInitialValue name e ↔ (e = .number (.int v) → 340 ≤ v ∧ v ≤ 1000) := by
  constructor
  · rintro ⟨source, tree, p, type, htree, -, hp⟩
    obtain ⟨k, -, hdeclares⟩ := hp.declares htree
    obtain ⟨rfl, -⟩ := hdeclares hname
    exact (he.declares_iff hname).mp hdeclares
  · intro hrange
    exact ⟨_, _, .statement, some .int, ofText_sizing hname he hrange, check_sizing hname he,
      .child (.head _)⟩

end Node

open Node

/-- A constant is the initial value of a window dimension in some accepted program exactly if it is
in the range or is no number by itself. So there are accepted programs with any value. -/
theorem window_constant_iff {name : String} (hname : NameRule.IsWindow name) :
    (∀ e v, e.IsConstant v →
      (IsInitialValue name e ↔ (e = .number (.int v) → 340 ≤ v ∧ v ≤ 1000))) ∧
    ∀ v, ∃ e, e.IsConstant v ∧ IsInitialValue name e := by
  refine ⟨fun e v he => he.isInitialValue_iff hname, fun v => ?_⟩
  obtain ⟨e, he, hne⟩ := exists_isConstant v
  exact ⟨e, he, (he.isInitialValue_iff hname).mpr fun h => absurd h (hne _)⟩

/-- No accepted program has three hundred as the height of its window, but some have three times a
hundred. -/
theorem window_constant_iff_three_hundred :
    NameRule.IsWindow "windowHeight" ∧ ¬IsInitialValue "windowHeight" (.number (.int 300)) ∧
      IsInitialValue "windowHeight"
        (.binary (.number (.int 3)) .times (.number (.int 100))) := by
  have hnumber {n : ℕ} (hn : n < 10 ^ 3) : (Node.number (.int n)).IsConstant n :=
    .number (hn.trans_le (Nat.pow_le_pow_right (by decide) (by decide)))
  have hname : NameRule.IsWindow "windowHeight" := .inr rfl
  refine ⟨hname, fun h => ?_, ?_⟩
  · have hrange := ((window_constant_iff hname).1 _ _
      (hnumber (by decide : 300 < 10 ^ 3))).mp h rfl
    exact absurd hrange.1 (by decide)
  · exact ((window_constant_iff hname).1 _ _ ((hnumber (by decide : 3 < 10 ^ 3)).times
      (hnumber (by decide : 100 < 10 ^ 3)))).mpr nofun

/-- A width of one and one. -/
def tinySource : String := "var int windowWidth = 1 + 1 ; var int windowHeight = 400 ; "

/-- A program is accepted although the width of its window is a constant below the range. -/
theorem tiny_window_accepted : ∃ tree e, Node.ofText tinySource = .ok tree ∧ tree.check = .ok () ∧
    tree.Part .statement (.varDecl (some .int) "windowWidth" e) ∧ e.IsConstant 2 ∧
    ¬(340 ≤ (2 : ℤ) ∧ (2 : ℤ) ≤ 1000) := by
  have hone : (Node.number (.int 1)).IsConstant 1 :=
    .number (n := 1) (Nat.one_lt_pow (by decide) (by decide))
  have hname : NameRule.IsWindow "windowWidth" := .inl rfl
  have hsource : source (.program (sizing "windowWidth"
      (.binary (.number (.int 1)) .plus (.number (.int 1))))) = tinySource := by decide +kernel
  refine ⟨_, _, ?_, check_sizing hname (hone.plus hone), .child (.head _), hone.plus hone,
    by decide⟩
  rw [← hsource]
  exact ofText_sizing hname (hone.plus hone) nofun

end DrawPlus
