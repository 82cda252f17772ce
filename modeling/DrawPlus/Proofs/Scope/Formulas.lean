import DrawPlus.Proofs.Actions
import DrawPlus.Proofs.Scope.Rules

/-!
# Formulas for the actions of the check

The check of each kind of node as actions one after the other, and formulas for when the single
actions succeed and what they leave. The tests on types are the relations of the static rules.
-/

namespace DrawPlus.Check

variable {k : Kind} {x : Value} {u : Unit} {type : Option Kind}

/-! ## Nodes -/

/-- The check of a call, with the errors for a wrong number of arguments and for a wrong
argument. -/
def calling (arity : ℕ → ScopeError) (argument : ScopeError) (cursor method : Value)
    (given : List Node) : Check (Option Kind) := do
  let types ← signature cursor method
  if given.length ≠ types.length then throw (arity types.length)
  else do
    arguments argument given types
    return none

theorem node_cursorMethod (cursor method : Value) (given : List Node) :
    node (.cursorMethod cursor method given) =
      calling (.methodArity method) (.methodArgument method) cursor method given := rfl

theorem node_drawCommand (cursor shape : Value) (given : List Node) :
    node (.drawCommand cursor shape given) =
      calling (.shapeArity shape) (.shapeArgument shape) cursor shape given := rfl

theorem node_varDecl_eq {name : Value} {init : Node} (h : init ≠ .absent) :
    node (.varDecl type name init) = (do
      declareVariable name type
      let initType ← node init
      if fits initType type then return none else throw (.initializer name)) := by
  cases init <;> first | rfl | exact absurd rfl h

/-- The check of a branch; a missing last block counts as an empty one. -/
theorem node_branch (test : Node) (body : List Node) (as : List (Node × List Node))
    (otherwise : Option (List Node)) :
    node (.branch test body as otherwise) = (do
      requireTruth .branch (← node test)
      all body
      arms as
      all (otherwise.getD [])
      return none) := by
  cases otherwise <;> rfl

/-! ## Types -/

theorem isNumeric_some : isNumeric (some k) = true ↔ k.Numeric := by
  simp [isNumeric, Kind.Numeric]

theorem fits_some {t : Kind} : fits (some k) (some t) = true ↔ k.Suits t := by
  simp only [fits, Bool.or_eq_true, Bool.and_eq_true, beq_iff_eq, Option.some.injEq]
  constructor
  · rintro (((rfl | ⟨rfl, hk⟩) | ⟨rfl, rfl⟩) | ⟨rfl, rfl⟩)
    · exact .same k
    · exact .number hk
    · exact .whole
    · exact .truth
  · intro h
    cases h with
    | same => simp
    | number hk => exact .inl (.inl (.inr ⟨rfl, hk⟩))
    | whole => simp
    | truth => simp

theorem operationType_arithmetic {op l m : Kind} (hop : op.isArithmetic = true) :
    operationType op (some k) (some l) = .ok m ↔
      (k.Numeric ∧ l.Numeric) ∧ m = if k = .float ∨ l = .float then .float else .int := by
  simp only [operationType, hop, if_true, Bool.and_eq_true, isNumeric_some]
  by_cases hn : k.Numeric ∧ l.Numeric
  · by_cases hf : k = .float ∨ l = .float <;> simp [hn, hf, @eq_comm _ m]
  · simp [hn]

theorem operationType_comparison {op l m : Kind} (hop : op.isComparison = true)
    (hnot : op.isArithmetic = false) :
    operationType op (some k) (some l) = .ok m ↔ k.Comparable l ∧ m = .boolValue := by
  have hcompare : ((some k == some l || isNumeric (some k) && isNumeric (some l) ||
      some k == some Kind.bool && some l == some Kind.boolValue ||
      some k == some Kind.boolValue && some l == some Kind.bool) = true) ↔ k.Comparable l := by
    simp only [Bool.or_eq_true, Bool.and_eq_true, beq_iff_eq, Option.some.injEq, isNumeric_some]
    constructor
    · rintro (((rfl | ⟨hk, hl⟩) | ⟨rfl, rfl⟩) | ⟨rfl, rfl⟩)
      · exact .same k
      · exact .numbers hk hl
      · exact .variableLeft
      · exact .variableRight
    · intro h
      cases h with
      | same => simp
      | numbers hk hl => exact .inl (.inl (.inr ⟨hk, hl⟩))
      | variableLeft => simp
      | variableRight => simp
  simp only [operationType, hop, hnot, Bool.false_eq_true, if_false, if_true]
  by_cases hk : k.Comparable l
  · rw [if_pos (hcompare.mpr hk)]
    simp [hk, @eq_comm _ m]
  · rw [if_neg (mt hcompare.mp hk)]
    simp [hk]

/-! ## Actions on a scope -/

variable {s t : Scope}

theorem isFree_eq_false {name : Value} :
    s.isFree name = false ↔ s.hasVariable name = true ∨ s.isCursor name = true := by
  cases hv : s.hasVariable name <;> simp [Scope.isFree, hv]

theorem readVariable_eq_ok : readVariable x s = .ok k t ↔ s.readable? x = some k ∧ t = s := by
  unfold readVariable
  cases s.readable? x with
  | none => simp
  | some type => simp only [ok_eq_ok, Option.some.injEq, @eq_comm _ k]

theorem requireTruth_eq_ok {guard : Guard} :
    requireTruth guard type s = .ok u t ↔ type = some .boolValue ∧ t = s := by
  simp [requireTruth]

theorem ofExcept_eq_ok {α : Type} {result : Except ScopeError α} {a : α} :
    ofExcept result s = .ok a t ↔ result = .ok a ∧ t = s := by
  unfold ofExcept
  cases result with
  | error e => simp
  | ok b => simp only [ok_eq_ok, Except.ok.injEq, @eq_comm _ a]

theorem signature_eq_ok {cursor method : Value} {types : List Kind} :
    signature cursor method s = .ok types t ↔
      s.isCursor cursor = true ∧ methods.lookup method = some types ∧ t = s := by
  unfold signature
  split_ifs with hc
  · cases methods.lookup method with
    | none => simp
    | some found => simp only [ok_eq_ok, Option.some.injEq, @eq_comm _ types, hc, true_and]
  · simp [hc]

theorem hasVariable_of_readable? (h : s.readable? x = some k) : s.hasVariable x = true := by
  cases hl : s.declared.lookup x with
  | none => simp [Scope.readable?, Scope.typeOf?, hl] at h
  | some type =>
    obtain ⟨before, after, heq, -⟩ := List.lookup_eq_some_iff.mp hl
    simp [Scope.hasVariable, heq]

/-- A variable is declared under a name that is free; the words for one that can be read already
make no difference. -/
theorem declareVariable_eq_ok : declareVariable x type s = .ok u t ↔
      s.isFree x = true ∧ t = { s with declared := s.declared ++ [(x, type)] } := by
  unfold declareVariable
  split_ifs with hr
  · obtain ⟨k, hk⟩ := Option.isSome_iff_exists.mp hr
    simp [Scope.isFree, hasVariable_of_readable? hk]
  · cases hf : s.isFree x with
    | false => simp [declare, Scope.define, hf]
    | true => simp only [declare, Scope.define, hf, if_true, ok_eq_ok, true_and]

theorem declareCursor_eq_ok : declare (·.defineCursor x) s = .ok u t ↔
      s.isFree x = true ∧ t = { s with cursors := s.cursors ++ [x] } := by
  cases hf : s.isFree x with
  | false => simp [declare, Scope.defineCursor, hf]
  | true => simp only [declare, Scope.defineCursor, hf, if_true, ok_eq_ok, true_and]

theorem windowDimensions_eq_ok : windowDimensions s = .ok u t ↔
    ((s.typeOf? "windowWidth").isSome = true ∧ (s.typeOf? "windowHeight").isSome = true) ∧
      t = s := by
  unfold windowDimensions
  cases s.typeOf? "windowWidth" with
  | none => simp
  | some k =>
    cases s.typeOf? "windowHeight" with
    | none => simp
    | some l => simp [eq_comm]

end DrawPlus.Check

namespace DrawPlus

open Check

theorem check_eq_ok {tree : Node} : tree.check = .ok () ↔
    ∃ t, (do let _ ← node tree; windowDimensions : Check Unit) .empty = .ok () t := by
  unfold Node.check
  cases (do let _ ← node tree; windowDimensions : Check Unit) .empty <;> simp

theorem check_program_eq_ok {ns : List Node} : (Node.program ns).check = .ok () ↔
    ∃ t, all ns .empty = .ok () t ∧ windowDimensions t = .ok () t := by
  simp only [check_eq_ok, node, bind_eq_ok, pure_eq_ok, windowDimensions_eq_ok]
  constructor
  · rintro ⟨_, _, _, ⟨_, s, hall, rfl, rfl⟩, hw, rfl⟩
    exact ⟨_, hall, hw, trivial⟩
  · rintro ⟨t, hall, hw, -⟩
    exact ⟨t, none, t, ⟨(), t, hall, rfl, rfl⟩, hw, rfl⟩

end DrawPlus
