import Mathlib
import DrawPlus.Scope.Check

/-!
# The static rules of the language

A program is well-formed when it keeps rules that look at the whole of it and at the order of its
steps, not at any scope: no name is declared twice, both window dimensions are declared, and every
step is sound after the steps before it. The steps of a program are its declarations, assignments,
calls and tests in the order in which a reader of the program meets them. `HasType` says what type
an expression has among declared variables.
-/

namespace DrawPlus

/-! ## Types -/

namespace Kind

def Numeric (k : Kind) : Prop := k = .int ∨ k = .float

instance : DecidablePred Numeric := fun k => inferInstanceAs (Decidable (k = .int ∨ k = .float))

/-- What has the first type can be given where the second is wanted. -/
inductive Suits : Kind → Kind → Prop
  | same (k : Kind) : Suits k k
  | number {k : Kind} : k.Numeric → Suits k .number
  | whole : Suits .int .float
  | truth : Suits .boolValue .bool

/-- What has these types can be compared. -/
inductive Comparable : Kind → Kind → Prop
  | same (k : Kind) : Comparable k k
  | numbers {k l : Kind} : k.Numeric → l.Numeric → Comparable k l
  | variableLeft : Comparable .bool .boolValue
  | variableRight : Comparable .boolValue .bool

end Kind

/-- The type of an expression, when the variables `Γ` are declared. -/
inductive HasType (Γ : List (Value × Option Kind)) : Node → Kind → Prop
  | whole {v : Value} : (∀ x, v ≠ .double x) → HasType Γ (.number v) .int
  | fractional (x : Double) : HasType Γ (.number (.double x)) .float
  | truth (v : Value) : HasType Γ (.truth v) .boolValue
  | hue (v : Value) : HasType Γ (.color v none) .color
  | mixed {r g b : Node} {k l m : Kind} : HasType Γ r k → k.Numeric → HasType Γ g l → l.Numeric →
      HasType Γ b m → m.Numeric → HasType Γ (.color .absent (some [r, g, b])) .color
  | name {x : Value} {k : Kind} : (x, some k) ∈ Γ → HasType Γ (.variable x) k
  | wholeArithmetic {l r : Node} {op : Kind} : op.isArithmetic = true → HasType Γ l .int →
      HasType Γ r .int → HasType Γ (.binary l op r) .int
  | fractionalArithmetic {l r : Node} {op k m : Kind} : op.isArithmetic = true → HasType Γ l k →
      HasType Γ r m → k.Numeric → m.Numeric → k = .float ∨ m = .float →
      HasType Γ (.binary l op r) .float
  | comparison {l r : Node} {op k m : Kind} : op.isComparison = true → HasType Γ l k →
      HasType Γ r m → k.Comparable m → HasType Γ (.binary l op r) .boolValue

/-! ## Steps -/

inductive Step where
  | declares (type : Option Kind) (name : Value) (init : Node)
  | creates (name : Value) (x y : Node)
  | assigns (name : Value) (value : Node)
  | calls (cursor method : Value) (given : List Node)
  | tests (condition : Node)

namespace Node

mutual

/-- The steps of a tree in order. In a loop over a range the last part of the header comes before
the body. -/
def steps : Node → List Step
  | .program statements => stepsAll statements
  | .varDecl type name init => [.declares type name init]
  | .assign name value => [.assigns name value]
  | .cursorCreation name x y => [.creates name x y]
  | .cursorMethod cursor method given => [.calls cursor method given]
  | .drawCommand cursor shape given => [.calls cursor shape given]
  | .branch condition body alternatives otherwise =>
    .tests condition :: (stepsAll body ++ (stepsArms alternatives ++
      match otherwise with
      | some block => stepsAll block
      | none => []))
  | .whileLoop condition body => .tests condition :: stepsAll body
  | .forLoop init condition update body =>
    init.steps ++ .tests condition :: (update.steps ++ stepsAll body)
  | .absent | .bare | .binary .. | .number _ | .text _ | .truth _ | .color .. | .variable _ => []

def stepsAll : List Node → List Step
  | [] => []
  | first :: rest => first.steps ++ stepsAll rest

/-- The steps of the further conditions of a branch with their statements. -/
def stepsArms : List (Node × List Node) → List Step
  | [] => []
  | (condition, body) :: rest => .tests condition :: (stepsAll body ++ stepsArms rest)

end

end Node

namespace Step

/-- The variable that a step declares, with its type. -/
def entry? : Step → Option (Value × Option Kind)
  | .declares type name _ => some (name, type)
  | _ => none

def cursor? : Step → Option Value
  | .creates name _ _ => some name
  | _ => none

/-- The name that a step declares, of a variable or a cursor. -/
def name? : Step → Option Value
  | .declares _ name _ => some name
  | .creates name _ _ => some name
  | _ => none

/-- The variables that the steps declare. -/
def context (steps : List Step) : List (Value × Option Kind) := steps.filterMap entry?

def cursors (steps : List Step) : List Value := steps.filterMap cursor?

def names (steps : List Step) : List Value := steps.filterMap name?

/-- The step keeps the rules after the steps before it. A variable is declared in its own initial
value. -/
def Sound (before : List Step) : Step → Prop
  | .declares type name init => ∃ k t, type = some t ∧
      HasType (context before ++ [(name, type)]) init k ∧ k.Suits t
  | .creates _ x y => ∃ k l, HasType (context before) x k ∧ k.Numeric ∧
      HasType (context before) y l ∧ l.Numeric
  | .assigns name value => ∃ k t, (name, some t) ∈ context before ∧
      HasType (context before) value k ∧ k.Suits t
  | .calls cursor method given => cursor ∈ cursors before ∧ ∃ types,
      (method, types) ∈ Check.methods ∧
      List.Forall₂ (fun e t => ∃ k, HasType (context before) e k ∧ k.Suits t) given types
  | .tests condition => HasType (context before) condition .boolValue

end Step

open Step

/-- The program keeps the static rules. -/
structure Node.WellFormed (tree : Node) : Prop where
  distinct : (names tree.steps).Nodup
  width : .text "windowWidth" ∈ (context tree.steps).map Prod.fst
  height : .text "windowHeight" ∈ (context tree.steps).map Prod.fst
  sound : ∀ before step after, tree.steps = before ++ step :: after → step.Sound before

end DrawPlus
