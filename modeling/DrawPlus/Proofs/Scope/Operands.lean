import DrawPlus.Proofs.Scope.Accesses

/-!
# The operands of accepted operations

In an accepted tree, also in one built by hand, the types of the two operands of an operation are
such that the generated code can compute with them, with two exceptions: a comparison is accepted
whenever both sides have the same type, be it one that cannot be compared, and a remainder is
accepted for fractional numbers.

The type of an operand is read off the tree alone: `declarations` lists what the whole tree declares
and `typeAmong` gives the type among such declarations. The check looks at a node when less is
declared. That makes no difference, as every part of the check only adds to the declarations.
-/

namespace DrawPlus

namespace Node

/-! ## Declarations and types of a tree -/

mutual

/-- The variables that a tree declares, in the order in which the check meets them. The components
of a colour with a name are not met. -/
def declarations : Node → List (Value × Option Kind)
  | .program statements => declarationsAll statements
  | .varDecl type name init => (name, type) :: init.declarations
  | .assign _ value => value.declarations
  | .cursorCreation _ x y => x.declarations ++ y.declarations
  | .cursorMethod _ _ given => declarationsAll given
  | .drawCommand _ _ given => declarationsAll given
  | .branch condition body alternatives otherwise =>
    condition.declarations ++ (declarationsAll body ++ (declarationsArms alternatives ++
      match otherwise with
      | some block => declarationsAll block
      | none => []))
  | .whileLoop condition body => condition.declarations ++ declarationsAll body
  | .forLoop init condition update body =>
    init.declarations ++ (condition.declarations ++ (update.declarations ++ declarationsAll body))
  | .binary left _ right => left.declarations ++ right.declarations
  | .color name parts =>
    match parts with
    | some values => if name.isVoid then declarationsAll values else []
    | none => []
  | .absent | .bare | .number _ | .text _ | .truth _ | .variable _ => []

def declarationsAll : List Node → List (Value × Option Kind)
  | [] => []
  | first :: rest => first.declarations ++ declarationsAll rest

def declarationsArms : List (Node × List Node) → List (Value × Option Kind)
  | [] => []
  | (condition, body) :: rest =>
    condition.declarations ++ (declarationsAll body ++ declarationsArms rest)

end

/-- The type of an expression among declared variables; statements have none. -/
def typeAmong (Γ : List (Value × Option Kind)) : Node → Option Kind
  | .number (.double _) => some .float
  | .number _ => some .int
  | .truth _ => some .boolValue
  | .color .. => some .color
  | .variable name => (Γ.lookup name).join
  | .binary left op right =>
    if op.isArithmetic then
      if left.typeAmong Γ = some .float ∨ right.typeAmong Γ = some .float then some .float
      else some .int
    else some .boolValue
  | _ => none

/-- The check of the tree meets the node. -/
inductive Meets (tree : Node) : Node → Prop
  | self : Meets tree tree
  | inside {n m : Node} : Meets tree n → m ∈ n.checked → Meets tree m

/-! ## What the check declares -/

theorem declarationsAll_eq (ns : List Node) : declarationsAll ns = ns.flatMap declarations := by
  induction ns with
  | nil => rfl
  | cons n ns ih => rw [declarationsAll, ih, List.flatMap_cons]

theorem declarationsArms_eq (as : List (Node × List Node)) :
    declarationsArms as = (as.flatMap fun arm => arm.1 :: arm.2).flatMap declarations := by
  induction as with
  | nil => rfl
  | cons arm as ih => simp [declarationsArms, declarationsAll_eq, ih]

theorem declarations_eq (n : Node) : n.declarations =
    n.opening.filterMap Access.entry? ++ n.checked.flatMap declarations := by
  cases n with
  | program | cursorMethod | drawCommand => simp [declarations, declarationsAll_eq, opening]
  | varDecl type name init =>
    cases init with
    | absent => rfl
    | _ => exact congrArg _ (List.append_nil _).symm
  | branch test body as otherwise =>
    cases otherwise <;> simp [declarations, declarationsAll_eq, declarationsArms_eq, opening]
  | whileLoop | forLoop => simp [declarations, declarationsAll_eq, opening]
  | color name parts =>
    cases parts <;> cases hname : name.isVoid <;>
      simp [declarations, declarationsAll_eq, opening, checked, hname]
  | assign | cursorCreation | binary =>
    simp [declarations, opening, checked, children, Access.entry?]
  | _ => rfl

theorem entries_accesses (n : Node) : n.accesses.filterMap Access.entry? = n.declarations := by
  induction n using induction_children with
  | h n ih =>
    have hclosing : n.closing.filterMap Access.entry? = [] := by cases n <;> rfl
    rw [accesses_eq, declarations_eq, List.filterMap_append, List.filterMap_append, hclosing,
      List.append_nil, List.filterMap_flatMap]
    congr 1
    apply List.flatMap_congr
    intro m hm
    obtain ⟨p, hp⟩ := exists_child_of_mem_checked hm
    exact ih p m hp

end Node

namespace Check

open Node

/-- The check of a node adds what the node declares. -/
theorem Visits.adds {n : Node} {met : List Node} (h : Visits (node n) n.accesses met) {s t : Scope}
    {a : Option Kind} (hn : node n s = .ok a t) : t.declared = s.declared ++ n.declarations := by
  obtain ⟨-, rfl⟩ := h.ok hn
  rw [Scope.declared_addAll, entries_accesses]

/-- An accepted operation has operands that are accepted, the second where no less is declared. -/
theorem operands_of_node {left right : Node} {op : Kind} {s t : Scope} {a : Option Kind}
    (h : node (.binary left op right) s = .ok a t) : ∃ l u r k, node left s = .ok l u ∧
      node right u = .ok r t ∧ u.declared <+: t.declared ∧ operationType op l r = .ok k ∧
      a = some k := by
  simp only [node, bind_eq_ok, ofExcept_eq_ok, pure_eq_ok] at h
  obtain ⟨l, u, hleft, r, v, hright, k, _, ⟨hk, rfl⟩, rfl, rfl⟩ := h
  refine ⟨l, u, r, k, hleft, hright, ?_, hk, rfl⟩
  exact (makes_node right).grows hright

/-! ## Types stay as they are -/

theorem lookup_of_prefix {Γ Δ : List (Value × Option Kind)} (h : Γ <+: Δ) {x : Value}
    {type : Option Kind} (hx : Γ.lookup x = some type) : Δ.lookup x = some type := by
  obtain ⟨added, rfl⟩ := h
  rw [List.lookup_append, hx]
  rfl

theorem typeOf?_of_readable? {s : Scope} {x : Value} {k : Kind} (h : s.readable? x = some k) :
    s.typeOf? x = some k := by
  unfold Scope.readable? at h
  split at h
  · cases h
  · exact h

theorem typeAmong_of_operationType {op k : Kind} {left right : Option Kind}
    (h : operationType op left right = .ok k) : some k =
      if op.isArithmetic then if left = some .float ∨ right = some .float then some .float
        else some .int
      else some .boolValue := by
  unfold operationType at h
  by_cases hop : op.isArithmetic = true
  · rw [if_pos hop] at h ⊢
    split_ifs at h with hnum hfloat
    · rw [← Except.ok.inj h, if_pos (by simpa using hfloat)]
    · rw [← Except.ok.inj h, if_neg (by simpa using hfloat)]
  · rw [if_neg hop] at h ⊢
    split_ifs at h
    rw [← Except.ok.inj h]

/-- The action gives no type. -/
def Untyped (x : Check (Option Kind)) : Prop := ∀ {s a t}, x s = .ok a t → a = none

theorem untyped_none : Untyped (pure none) := fun h => (pure_eq_ok.mp h).1

theorem untyped_throw (e : ScopeError) : Untyped (throw e) := fun h => absurd h throw_ne_ok

theorem untyped_bind {α : Type} {x : Check α} {f : α → Check (Option Kind)}
    (hf : ∀ a, Untyped (f a)) : Untyped (x >>= f) := by
  intro s b t h
  obtain ⟨a, u, -, hfu⟩ := bind_eq_ok.mp h
  exact hf a hfu

theorem untyped_ite {p : Prop} [Decidable p] {x y : Check (Option Kind)} (hx : Untyped x)
    (hy : Untyped y) : Untyped (if p then x else y) := by
  split_ifs
  · exact hx
  · exact hy

theorem untyped_calling (arity : ℕ → ScopeError) (argument : ScopeError) (cursor method : Value)
    (given : List Node) : Untyped (calling arity argument cursor method given) :=
  untyped_bind fun _ => untyped_ite (untyped_throw _) (untyped_bind fun _ => untyped_none)

theorem untyped_varDecl (type : Option Kind) (name : Value) (init : Node) :
    Untyped (node (.varDecl type name init)) := by
  by_cases hinit : init = .absent
  · subst hinit
    exact untyped_bind fun _ => untyped_none
  · rw [node_varDecl_eq hinit]
    exact untyped_bind fun _ => untyped_bind fun _ => untyped_ite untyped_none (untyped_throw _)

/-- The type that the check gives to a node is its type among the declarations there are then, and
among more. -/
theorem typeAmong_of_node {Γ : List (Value × Option Kind)} {e : Node} {s t : Scope}
    {a : Option Kind} (h : node e s = .ok a t) (hΓ : t.declared <+: Γ) : a = e.typeAmong Γ := by
  induction e using induction_children generalizing s a t with
  | h e ih =>
    cases e with
    | absent | bare | text => exact absurd h throw_ne_ok
    | program => exact untyped_bind (fun _ => untyped_none) h
    | varDecl type name init => exact untyped_varDecl type name init h
    | assign =>
      exact untyped_bind
        (fun _ => untyped_bind fun _ => untyped_ite untyped_none (untyped_throw _)) h
    | cursorCreation =>
      exact untyped_bind (fun _ => untyped_bind fun _ => untyped_bind fun _ =>
        untyped_ite untyped_none (untyped_throw _)) h
    | cursorMethod cursor method given =>
      rw [node_cursorMethod] at h
      exact untyped_calling _ _ cursor method given h
    | drawCommand cursor shape given =>
      rw [node_drawCommand] at h
      exact untyped_calling _ _ cursor shape given h
    | branch test body as otherwise =>
      rw [node_branch] at h
      exact untyped_bind (fun _ => untyped_bind fun _ => untyped_bind fun _ => untyped_bind fun _ =>
        untyped_bind fun _ => untyped_none) h
    | whileLoop =>
      exact untyped_bind (fun _ => untyped_bind fun _ => untyped_bind fun _ => untyped_none) h
    | forLoop =>
      exact untyped_bind (fun _ => untyped_bind fun _ => untyped_bind fun _ => untyped_bind fun _ =>
        untyped_bind fun _ => untyped_none) h
    | binary left op right =>
      obtain ⟨l, u, r, k, hleft, hright, hgrows, hk, rfl⟩ := operands_of_node h
      have hl := ih .operand left (.head _) hleft (hgrows.trans hΓ)
      have hr := ih .operand right (.tail _ (.head _)) hright hΓ
      rw [typeAmong, ← hl, ← hr]
      exact typeAmong_of_operationType hk
    | number value => cases value <;> exact (pure_eq_ok.mp h).1
    | truth => exact (pure_eq_ok.mp h).1
    | color name parts =>
      rw [node_color] at h
      obtain ⟨_, _, -, hpure⟩ := bind_eq_ok.mp h
      exact (pure_eq_ok.mp hpure).1
    | _ name =>
      simp only [node, bind_eq_ok, readVariable_eq_ok, pure_eq_ok] at h
      obtain ⟨k, _, ⟨hk, rfl⟩, rfl, rfl⟩ := h
      obtain ⟨type, hl, hjoin⟩ := Option.bind_eq_some_iff.mp (typeOf?_of_readable? hk)
      rw [typeAmong, lookup_of_prefix hΓ hl]
      exact hjoin.symm

theorem accepted_of_meets {tree n : Node} (hn : tree.Meets n) {s t : Scope} {a : Option Kind}
    (h : node tree s = .ok a t) : ∃ s' b t', node n s' = .ok b t' ∧ t'.declared <+: t.declared := by
  induction hn with
  | self => exact ⟨s, a, t, h, List.prefix_refl _⟩
  | inside _ hm ih =>
    obtain ⟨s', b, t', hnode, hle⟩ := ih
    obtain ⟨s'', c, t'', hinside, hle'⟩ := (visits_node _).accepts hnode _ hm
    exact ⟨s'', c, t'', hinside, hle'.trans hle⟩

end Check

/-! ## Operands -/

/-- The types of numbers and truth values. -/
def IsScalar (type : Option Kind) : Prop :=
  type ∈ [some .int, some .float, some .bool, some .boolValue]

instance (type : Option Kind) : Decidable (IsScalar type) :=
  inferInstanceAs (Decidable (type ∈ _))

/-- The generated code can apply the operator to operands of these types: they are numbers or truth
values, and for a remainder whole numbers. -/
structure Applies (op : Kind) (left right : Option Kind) : Prop where
  scalars : IsScalar left ∧ IsScalar right
  wholes : op = .modulo → left = some .int ∧ right = some .int

/-- The operation compares two operands of one type that is neither of numbers nor of truth
values. -/
def ComparesAlike (op : Kind) (left right : Option Kind) : Prop :=
  op.isComparison = true ∧ left = right ∧ ¬IsScalar left

/-- The operation is a remainder of numbers that are not both whole. -/
def DividesFraction (op : Kind) (left right : Option Kind) : Prop :=
  op = .modulo ∧ Check.isNumeric left = true ∧ Check.isNumeric right = true ∧
    (left = some .float ∨ right = some .float)

namespace Check

variable {op k : Kind} {left right : Option Kind}

theorem isNumeric_iff : isNumeric left = true ↔ left = some .int ∨ left = some .float := by
  simp [isNumeric]

theorem isScalar_of_isNumeric (h : isNumeric left = true) : IsScalar left := by
  rcases isNumeric_iff.mp h with rfl | rfl <;> simp [IsScalar]

theorem applies_of_isNumeric (hl : isNumeric left = true) (hr : isNumeric right = true) :
    Applies op left right ∨ DividesFraction op left right := by
  have hscalars := And.intro (isScalar_of_isNumeric hl) (isScalar_of_isNumeric hr)
  by_cases hfloat : left = some .float ∨ right = some .float
  · by_cases hop : op = .modulo
    · exact .inr ⟨hop, hl, hr, hfloat⟩
    · exact .inl ⟨hscalars, fun h => absurd h hop⟩
  · rw [not_or] at hfloat
    have hleft := (isNumeric_iff.mp hl).resolve_right hfloat.1
    have hright := (isNumeric_iff.mp hr).resolve_right hfloat.2
    exact .inl ⟨hscalars, fun _ => ⟨hleft, hright⟩⟩

theorem applies_of_operationType (h : operationType op left right = .ok k) :
    Applies op left right ∨ ComparesAlike op left right ∨ DividesFraction op left right := by
  unfold operationType at h
  split at h
  · split_ifs at h with hnum
    all_goals
      rw [Bool.and_eq_true] at hnum
      exact (applies_of_isNumeric hnum.1 hnum.2).imp_right .inr
  · split_ifs at h with hcompare hcomparable
    have hop : op ≠ .modulo := by
      rintro rfl
      exact absurd hcompare (by decide)
    have happlies (hl : IsScalar left) (hr : IsScalar right) : Applies op left right :=
      ⟨⟨hl, hr⟩, fun h => absurd h hop⟩
    simp only [Bool.or_eq_true, Bool.and_eq_true, beq_iff_eq] at hcomparable
    rcases hcomparable with ((rfl | ⟨hl, hr⟩) | ⟨rfl, rfl⟩) | ⟨rfl, rfl⟩
    · by_cases hscalar : IsScalar left
      · exact .inl (happlies hscalar hscalar)
      · exact .inr (.inl ⟨hcompare, rfl, hscalar⟩)
    · exact .inl (happlies (isScalar_of_isNumeric hl) (isScalar_of_isNumeric hr))
    · exact .inl (happlies (by simp [IsScalar]) (by simp [IsScalar]))
    · exact .inl (happlies (by simp [IsScalar]) (by simp [IsScalar]))

end Check

open Check Node

/-- The generated code can apply an accepted operation, unless the operation compares two operands
of one type that has no operations or takes the remainder of a fractional number. -/
theorem operands_of_check {tree : Node} (h : tree.check = .ok ()) {l r : Node} {op : Kind}
    (hm : tree.Meets (.binary l op r)) :
    let left := l.typeAmong tree.declarations
    let right := r.typeAmong tree.declarations
    Applies op left right ∨ ComparesAlike op left right ∨ DividesFraction op left right := by
  intro left right
  obtain ⟨_, hrun⟩ := check_eq_ok.mp h
  obtain ⟨a, t, htree, -⟩ := bind_eq_ok.mp hrun
  have hdeclared : t.declared = tree.declarations := (visits_node tree).adds htree
  obtain ⟨s', b, t', hnode, hle⟩ := accepted_of_meets hm htree
  rw [hdeclared] at hle
  obtain ⟨leftType, u, rightType, k, hl, hr, hgrows, hk, -⟩ := operands_of_node hnode
  have hleft : leftType = left := typeAmong_of_node hl (hgrows.trans hle)
  have hright : rightType = right := typeAmong_of_node hr hle
  rw [hleft, hright] at hk
  exact applies_of_operationType hk

/-- A program with a loop whose condition compares a sum of numbers with a number. -/
def countingTree : Node :=
  .program [.varDecl (some .int) "windowWidth" (.number (.int 400)),
    .varDecl (some .int) "windowHeight" (.variable "windowWidth"),
    .whileLoop (.binary (.binary (.variable "windowWidth") .plus (.number (.int 1))) .less
      (.variable "windowHeight")) []]

theorem operands_of_check_loop : ∃ l r, countingTree.check = .ok () ∧
    countingTree.Meets (.binary l .less r) ∧
    Applies .less (l.typeAmong countingTree.declarations)
      (r.typeAmong countingTree.declarations) := by
  have hc : countingTree.check = .ok () := by decide
  have hm : countingTree.Meets (.binary (.binary (.variable "windowWidth") .plus (.number (.int 1)))
      .less (.variable "windowHeight")) := by
    have hloop : countingTree.Meets (.whileLoop _ []) :=
      Meets.self.inside (.tail _ (.tail _ (.head _)))
    exact hloop.inside (.head _)
  refine ⟨_, _, hc, hm, ?_⟩
  rcases operands_of_check hc hm with happlies | hcompares | hdivides
  · exact happlies
  · exact absurd hcompares.2.2 (by decide)
  · exact absurd hdivides.1 (by decide)

def colorSource : String :=
  "var int windowWidth = 400; var int windowHeight = 400; if (RED == RED) \x7b\x7d;"

/-- A program with the remainder of a fractional number. -/
def remainderTree : Node :=
  .program [.varDecl (some .int) "windowWidth" (.number (.int 400)),
    .varDecl (some .int) "windowHeight" (.number (.int 400)),
    .varDecl (some .float) "x" (.binary (.number (.double ⟨0x3FF8000000000000⟩)) .modulo
      (.number (.int 2)))]

/-- Comparisons of colours and remainders of fractional numbers are accepted. -/
theorem accepted_not_applies :
    (∃ tree, Node.ofText colorSource = .ok tree ∧ tree.check = .ok () ∧
      ∃ l op r, tree.Meets (.binary l op r) ∧
        l.typeAmong tree.declarations = some .color ∧ r.typeAmong tree.declarations = some .color ∧
        ¬Applies op (l.typeAmong tree.declarations) (r.typeAmong tree.declarations)) ∧
    remainderTree.check = .ok () ∧ ∃ l r, remainderTree.Meets (.binary l .modulo r) ∧
      l.typeAmong remainderTree.declarations = some .float ∧
      ¬Applies .modulo (l.typeAmong remainderTree.declarations)
        (r.typeAmong remainderTree.declarations) := by
  have ht : Token.ofText colorSource = .ok [⟨.var, "var", 1, 1⟩, ⟨.int, "int", 1, 5⟩,
      ⟨.identifier, "windowWidth", 1, 9⟩, ⟨.assign, "=", 1, 21⟩, ⟨.number, .int 400, 1, 23⟩,
      ⟨.semicolon, ";", 1, 26⟩, ⟨.var, "var", 1, 28⟩, ⟨.int, "int", 1, 32⟩,
      ⟨.identifier, "windowHeight", 1, 36⟩, ⟨.assign, "=", 1, 49⟩, ⟨.number, .int 400, 1, 51⟩,
      ⟨.semicolon, ";", 1, 54⟩, ⟨.ifWord, "if", 1, 56⟩, ⟨.leftParen, "(", 1, 59⟩,
      ⟨.hue .red, "RED", 1, 60⟩, ⟨.equal, "==", 1, 64⟩, ⟨.hue .red, "RED", 1, 67⟩,
      ⟨.rightParen, ")", 1, 70⟩, ⟨.leftBrace, "\x7b", 1, 72⟩, ⟨.rightBrace, "\x7d", 1, 73⟩,
      ⟨.semicolon, ";", 1, 74⟩, ⟨.endOfInput, .absent, 1, 74⟩] := by
    decide +kernel
  constructor
  · refine ⟨.program [.varDecl (some .int) "windowWidth" (.number (.int 400)),
      .varDecl (some .int) "windowHeight" (.number (.int 400)),
      .branch (.binary (.color "RED" none) .equal (.color "RED" none)) [] [] none],
      ofText_of_ofTokens ht rfl, by decide, .color "RED" none, .equal, .color "RED" none, ?_, rfl,
      rfl,
      ?_⟩
    · exact (Meets.self.inside (.tail _ (.tail _ (.head _)))).inside (.head _)
    · intro happlies
      exact absurd happlies.scalars.1 (by decide)
  · refine ⟨by decide, _, _, (Meets.self.inside (.tail _ (.tail _ (.head _)))).inside (.head _),
      rfl, ?_⟩
    intro happlies
    exact absurd (happlies.wholes rfl).1 (by decide)

end DrawPlus
