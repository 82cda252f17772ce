import DrawPlus.Proofs.Actions
import DrawPlus.Tree.Parse

/-!
# Relations that all the rules keep

The rules of the grammar are put together from a few actions: looking at the current token, taking
it, complaining, and doing one thing after the other. A relation between actions that is kept by
all of these (`Congruence`) holds between every rule and itself, and it holds whatever bounds on the
depth of calls the two sides are given. A property of all the rules is proved by giving such a
relation.

A rule names no kinds but those of the language and those of the tokens that it has looked at. Where
a relation holds for tokens of certain kinds only, these kinds are given along with it.

Two bounds are needed because a bound is set from the number of tokens: two feeds that begin alike
are read under bounds of their own. The step of the induction goes from both bounds to both
successors. Where only one side has run out, the relation has to bear an action that gives up.
-/

namespace DrawPlus

/-- The kind is one of the language. -/
def Kind.IsNative : Kind → Prop
  | .other _ => False
  | _ => True

/-- The complaint is one of the grammar, and the kinds that it speaks of are of the given ones. -/
def Complaint.SpeaksOf (K : Kind → Prop) : Complaint → Prop
  | .expected wanted got => K wanted ∧ K got
  | .noStatement got | .noType got => K got
  | .windowReassigned | .unknownMethod | .noAssignment | .noFactor | .windowNotInteger
  | .windowOutOfRange => True
  | .custom _ => False

end DrawPlus

namespace DrawPlus.Parse

/-- The relation is kept by everything of which the rules of the grammar are made, on tokens of the
given kinds. -/
structure Congruence (K : Kind → Prop) (R : {α : Type} → Parse α → Parse α → Prop) : Prop where
  native {k : Kind} : k.IsNative → K k
  pure {α : Type} (a : α) : R (pure a) (pure a)
  bind {α β : Type} {x y : Parse α} {F G : α → Parse β} :
    R x y → (∀ a, R (F a) (G a)) → R (x >>= F) (y >>= G)
  look {α : Type} {F G : Token → Parse α} : (∀ t, K t.kind → R (F t) (G t)) →
    R (current >>= F) (current >>= G)
  eat {k : Kind} : K k → R (eat k) (eat k)
  complain {α : Type} {c : Complaint} : c.SpeaksOf K → R (complain c : Parse α) (complain c)
  fail {α : Type} {e : SyntaxError} : (∀ t c, e ≠ .found t c) → R (throw e : Parse α) (throw e)
  within {α : Type} {rule : ℕ → Parse α} : (∀ d e, R (rule d) (rule e)) →
    R (fun f => rule (depthBound f) f) (fun f => rule (depthBound f) f)
  giveUpLeft {α : Type} {y : Parse α} : R y y → R (throw .endlessNesting) y
  giveUpRight {α : Type} {x : Parse α} : R x x → R x (throw .endlessNesting)

/-- A family of statements about two bounds that goes on from one pair to the next one, and from
equal bounds to a bound that has run out, holds of all pairs. -/
theorem at_all_depths {P : ℕ → ℕ → Prop} (zero : P 0 0) (left : ∀ e, P e e → P 0 e)
    (right : ∀ d, P d d → P d 0) (succ : ∀ d e, P d e → P (d + 1) (e + 1)) (d e : ℕ) : P d e := by
  have diagonal (d : ℕ) : P d d := by
    induction d with
    | zero => exact zero
    | succ d ih => exact succ d d ih
  induction d generalizing e with
  | zero => exact left e (diagonal e)
  | succ d ih =>
    cases e with
    | zero => exact right _ (diagonal _)
    | succ e => exact succ d e (ih e)

namespace Congruence

/-- The relation holds between the rules of expressions under the two bounds. -/
structure Expressions (R : {α : Type} → Parse α → Parse α → Prop) (d e : ℕ) : Prop where
  sum : R (sumWithin d) (sumWithin e)
  sumTail (left : Node) : R (sumTailWithin d left) (sumTailWithin e left)
  product : R (productWithin d) (productWithin e)
  productTail (left : Node) : R (productTailWithin d left) (productTailWithin e left)
  factor : R (factorWithin d) (factorWithin e)

/-- The relation holds between the rules of statements under the two bounds. -/
structure Statements (R : {α : Type} → Parse α → Parse α → Prop) (d e : ℕ) : Prop where
  statement : R (statementWithin d) (statementWithin e)
  statements : R (statementsWithin d) (statementsWithin e)
  block : R (blockWithin d) (blockWithin e)
  arms : R (armsWithin d) (armsWithin e)
  branch : R (branchWithin d) (branchWithin e)
  forLoop : R (forLoopWithin d) (forLoopWithin e)
  whileLoop : R (whileLoopWithin d) (whileLoopWithin e)

section

variable {K : Kind → Prop} {R : {α : Type} → Parse α → Parse α → Prop} (hR : Congruence K R)
variable {d e : ℕ}

include hR

theorem takeThen {α : Type} {k : Kind} (hk : K k) {x y : Parse α} (h : R x y) :
    R (do Parse.eat k; x) (do Parse.eat k; y) :=
  hR.bind (hR.eat hk) fun _ => h

theorem andThen {α : Type} {k : Kind} (hk : k.IsNative) {x y : Parse α} (h : R x y) :
    R (do Parse.eat k; x) (do Parse.eat k; y) :=
  hR.takeThen (hR.native hk) h

theorem giveUp {α : Type} : R (throw .endlessNesting : Parse α) (throw .endlessNesting) :=
  hR.fail (by simp)

omit hR in
theorem cond {α : Type} {p : Prop} [Decidable p] {x y x' y' : Parse α} (h : R x x')
    (h' : R y y') : R (if p then x else y) (if p then x' else y') := by
  split_ifs
  · exact h
  · exact h'

/-! ## Expressions -/

theorem factor (ih : Expressions R d e) : R (factorWithin (d + 1)) (factorWithin (e + 1)) := by
  refine hR.look fun token _ => ?_
  split
  · exact hR.andThen (by trivial) (hR.pure _)
  · exact hR.andThen (by trivial) (hR.pure _)
  · exact hR.andThen (by trivial) (hR.pure _)
  · refine hR.andThen (by trivial) (hR.andThen (by trivial) (hR.bind ih.sum fun _ => ?_))
    refine hR.andThen (by trivial) ?_
    refine hR.bind ih.sum fun _ => hR.andThen (by trivial) (hR.bind ih.sum fun _ => ?_)
    exact hR.andThen (by trivial) (hR.pure _)
  · exact hR.andThen (by trivial) (hR.pure _)
  · exact hR.andThen (by trivial) (hR.bind ih.sum fun _ => hR.andThen (by trivial) (hR.pure _))
  · exact hR.complain trivial

theorem expressions (d e : ℕ) : Expressions R d e := by
  apply at_all_depths (P := Expressions R)
  · exact ⟨hR.giveUp, fun _ => hR.giveUp, hR.giveUp, fun _ => hR.giveUp, hR.giveUp⟩
  · exact fun e h => ⟨hR.giveUpLeft h.sum, fun l => hR.giveUpLeft (h.sumTail l),
      hR.giveUpLeft h.product, fun l => hR.giveUpLeft (h.productTail l), hR.giveUpLeft h.factor⟩
  · exact fun d h => ⟨hR.giveUpRight h.sum, fun l => hR.giveUpRight (h.sumTail l),
      hR.giveUpRight h.product, fun l => hR.giveUpRight (h.productTail l), hR.giveUpRight h.factor⟩
  · intro d e ih
    constructor
    · exact hR.bind ih.product ih.sumTail
    · intro left
      refine hR.look fun token hkind => cond (hR.takeThen hkind ?_) (hR.pure left)
      exact hR.bind ih.product fun right => ih.sumTail _
    · exact hR.bind ih.factor ih.productTail
    · intro left
      refine hR.look fun token hkind => cond (hR.takeThen hkind ?_) (hR.pure left)
      exact hR.bind ih.factor fun right => ih.productTail _
    · exact hR.factor ih

theorem sum : R sum sum := hR.within fun d e => (hR.expressions d e).sum

/-! ## Statements without a body -/

theorem condition : R condition condition := by
  refine hR.bind hR.sum fun left => hR.look fun token hkind =>
    cond (hR.takeThen hkind ?_) (hR.pure left)
  exact hR.bind hR.sum fun right => hR.pure _

theorem guarded : R guarded guarded :=
  hR.andThen (by trivial) (hR.bind hR.condition fun _ => hR.andThen (by trivial) (hR.pure _))

theorem assignment (name : Value) (withSemicolon : Bool) :
    R (assignment name withSemicolon) (assignment name withSemicolon) := by
  have hclosing (value : Node) : R
      (if withSemicolon = true then do
        Parse.eat .semicolon
        Pure.pure (Node.assign name value)
      else Pure.pure (Node.assign name value))
      (if withSemicolon = true then do
        Parse.eat .semicolon
        Pure.pure (Node.assign name value)
      else Pure.pure (Node.assign name value)) :=
    cond (hR.andThen (by trivial) (hR.pure _)) (hR.pure _)
  refine hR.look fun token hkind => ?_
  dsimp only
  split
  · exact hR.takeThen hkind (hR.bind hR.sum fun _ => hR.bind (hR.pure _) hclosing)
  · exact hR.andThen (by trivial) (hR.bind hR.sum hclosing)

theorem argumentTail (d e : ℕ) : R (argumentTail d) (argumentTail e) := by
  apply at_all_depths (P := fun d e => R (Parse.argumentTail d) (Parse.argumentTail e))
  · exact hR.giveUp
  · exact fun e => hR.giveUpLeft
  · exact fun d => hR.giveUpRight
  · intro d e ih
    refine hR.look fun token _ => cond (hR.andThen (by trivial) ?_) (hR.pure _)
    exact hR.bind hR.sum fun _ => hR.bind ih fun _ => hR.pure _

theorem arguments : R arguments arguments := by
  refine hR.look fun token _ => cond (hR.pure _) (hR.bind hR.sum fun _ => ?_)
  exact hR.bind (hR.within hR.argumentTail) fun _ => hR.pure _

theorem methodCall (cursor method : Value) :
    R (methodCall cursor method) (methodCall cursor method) := by
  refine hR.andThen (by trivial) (hR.bind hR.arguments fun _ => ?_)
  refine hR.andThen (by trivial) (hR.andThen (by trivial) ?_)
  split
  · exact cond (hR.pure _) (hR.pure _)
  · exact hR.fail (by simp)

theorem named : R named named := by
  refine hR.look fun token _ => cond (hR.complain trivial) (hR.andThen (by trivial) ?_)
  refine hR.look fun next _ => ?_
  refine cond (hR.andThen (by trivial) (hR.look fun method hkind => ?_)) ?_
  · exact cond (hR.takeThen hkind (hR.methodCall _ _)) (hR.complain trivial)
  · exact cond (hR.assignment _ _) (hR.complain trivial)

theorem cursorCreation : R cursorCreation cursorCreation := by
  refine hR.andThen (by trivial) (hR.look fun token _ => hR.andThen (by trivial) ?_)
  refine hR.andThen (by trivial) (hR.andThen (by trivial) (hR.andThen (by trivial) ?_))
  refine hR.bind hR.sum fun _ => hR.andThen (by trivial) (hR.bind hR.sum fun _ => ?_)
  exact hR.andThen (by trivial) (hR.andThen (by trivial) (hR.pure _))

theorem checkWindow (type : Kind) (init : Node) :
    R (checkWindow type init) (checkWindow type init) := by
  refine cond (hR.complain trivial) ?_
  split
  · split
    · exact cond (hR.complain trivial) (hR.pure _)
    · exact hR.fail (by simp)
  · exact hR.pure _

theorem declaration : R declaration declaration := by
  refine hR.andThen (by trivial) (hR.look fun token hkind => ?_)
  refine cond (hR.complain hkind) (hR.takeThen hkind (hR.look fun name _ => ?_))
  refine hR.andThen (by trivial) (hR.andThen (by trivial) (hR.bind hR.sum fun init => ?_))
  have hend : R
      (do Parse.eat .semicolon; Pure.pure (Node.varDecl (some token.kind) name.value init))
      (do Parse.eat .semicolon; Pure.pure (Node.varDecl (some token.kind) name.value init)) :=
    hR.andThen (by trivial) (hR.pure _)
  exact cond (hR.bind (hR.checkWindow _ _) fun _ => hend) hend

theorem loopStart : R loopStart loopStart := by
  refine hR.look fun token _ => cond hR.declaration (hR.look fun name _ => ?_)
  exact hR.andThen (by trivial) (hR.assignment _ _)

theorem loopStep : R loopStep loopStep :=
  hR.look fun _ _ => hR.andThen (by trivial) (hR.assignment _ _)

/-! ## Statements with a body -/

theorem branch (ih : Statements R d e) : R (branchWithin (d + 1)) (branchWithin (e + 1)) := by
  refine hR.andThen (by trivial) (hR.bind hR.guarded fun _ => hR.bind ih.block fun _ =>
    hR.bind ih.arms fun _ => hR.bind ?_ fun _ => hR.andThen (by trivial) (hR.pure _))
  refine hR.look fun _ _ => cond (hR.andThen (by trivial) ?_) (hR.pure _)
  exact hR.bind ih.block fun _ => hR.pure _

theorem forLoop (ih : Statements R d e) : R (forLoopWithin (d + 1)) (forLoopWithin (e + 1)) := by
  refine hR.andThen (by trivial) (hR.andThen (by trivial) (hR.bind hR.loopStart fun _ => ?_))
  refine hR.bind hR.condition fun _ => hR.andThen (by trivial) (hR.bind hR.loopStep fun _ => ?_)
  refine hR.andThen (by trivial) (hR.bind ih.block fun _ => ?_)
  exact hR.andThen (by trivial) (hR.pure _)

theorem statement (ih : Statements R d e) :
    R (statementWithin (d + 1)) (statementWithin (e + 1)) := by
  refine hR.look fun token hkind => ?_
  split
  · exact hR.declaration
  · exact hR.cursorCreation
  · exact ih.branch
  · exact ih.forLoop
  · exact ih.whileLoop
  · exact hR.named
  · exact hR.complain hkind

theorem statements (d e : ℕ) : Statements R d e := by
  apply at_all_depths (P := Statements R)
  · exact ⟨hR.giveUp, hR.giveUp, hR.giveUp, hR.giveUp, hR.giveUp, hR.giveUp, hR.giveUp⟩
  · exact fun e h => ⟨hR.giveUpLeft h.statement, hR.giveUpLeft h.statements, hR.giveUpLeft h.block,
      hR.giveUpLeft h.arms, hR.giveUpLeft h.branch, hR.giveUpLeft h.forLoop,
      hR.giveUpLeft h.whileLoop⟩
  · exact fun d h => ⟨hR.giveUpRight h.statement, hR.giveUpRight h.statements,
      hR.giveUpRight h.block, hR.giveUpRight h.arms, hR.giveUpRight h.branch,
      hR.giveUpRight h.forLoop, hR.giveUpRight h.whileLoop⟩
  · intro d e ih
    constructor
    · exact hR.statement ih
    · refine hR.look fun token _ => cond (hR.pure _) (hR.bind ih.statement fun _ => ?_)
      exact hR.bind ih.statements fun _ => hR.pure _
    · refine hR.andThen (by trivial) (hR.bind ih.statements fun _ => ?_)
      exact hR.andThen (by trivial) (hR.pure _)
    · refine hR.look fun token _ => cond (hR.andThen (by trivial) ?_) (hR.pure _)
      refine hR.bind hR.guarded fun _ => ?_
      exact hR.bind ih.block fun _ => hR.bind ih.arms fun _ => hR.pure _
    · exact hR.branch ih
    · exact hR.forLoop ih
    · refine hR.andThen (by trivial) (hR.bind hR.guarded fun _ => hR.bind ih.block fun _ => ?_)
      exact hR.andThen (by trivial) (hR.pure _)

theorem programWithin (d e : ℕ) : R (programWithin d) (programWithin e) := by
  apply at_all_depths (P := fun d e => R (Parse.programWithin d) (Parse.programWithin e))
  · exact hR.giveUp
  · exact fun e => hR.giveUpLeft
  · exact fun d => hR.giveUpRight
  · intro d e ih
    refine hR.look fun token _ => cond (hR.pure _) ?_
    refine hR.bind ?_ fun _ => hR.bind ih fun _ => hR.pure _
    exact hR.within fun d e => (hR.statements d e).statement

/-- A relation that everything keeps holds between reading a program and itself. -/
theorem program : R program program :=
  hR.bind (hR.within hR.programWithin) fun _ => hR.pure _

end

end Congruence

end DrawPlus.Parse
