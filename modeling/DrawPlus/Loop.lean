/-!
# Loops

A loop repeats a step while a condition holds. `repeatWhile` does so for at most a given number of
rounds and therefore always ends. `Loops` says that the loop without a bound ends, and where: at the
same state, if the bound was large enough (`loops_repeatWhile`), and nowhere at all if something
holds along the loop that keeps the condition true (`not_loops`).
-/

namespace DrawPlus

variable {α : Type}

/-- Repeat a step while a condition holds, at most `count` times. -/
def repeatWhile (condition : α → Bool) (step : α → α) : (count : Nat) → α → α
  | 0, a => a
  | count + 1, a => if condition a then repeatWhile condition step count (step a) else a

/-- A loop that repeats a step as long as a condition holds, from a state to the one in which it
ends. -/
inductive Loops (condition : α → Bool) (step : α → α) : α → α → Prop
  | done {a : α} (h : condition a = false) : Loops condition step a a
  | round {a b : α} (h : condition a = true) (rest : Loops condition step (step a) b) :
      Loops condition step a b

variable {condition : α → Bool} {step : α → α} {count : Nat} {a b : α}

/-- A bound that is not reached makes no difference. -/
theorem loops_repeatWhile (h : condition (repeatWhile condition step count a) = false) :
    Loops condition step a (repeatWhile condition step count a) := by
  induction count generalizing a with
  | zero => exact .done h
  | succ count ih =>
    by_cases hmore : condition a
    · rw [repeatWhile, if_pos hmore] at h ⊢
      exact .round hmore (ih h)
    · rw [repeatWhile, if_neg hmore] at h ⊢
      exact .done h

/-- A bound is not reached if `left n` says that at most `n` rounds are left. -/
theorem repeatWhile_stops (left : Nat → α → Prop) (hzero : ∀ a, left 0 a → condition a = false)
    (hsucc : ∀ n a, condition a = true → left (n + 1) a → left n (step a)) (h : left count a) :
    condition (repeatWhile condition step count a) = false := by
  induction count generalizing a with
  | zero => exact hzero a h
  | succ count ih =>
    rw [repeatWhile]
    split
    case isTrue hmore => exact ih (hsucc count a hmore h)
    case isFalse hmore => exact Bool.eq_false_iff.mpr hmore

theorem repeatWhile_invariant (holds : α → Prop)
    (hstep : ∀ a, condition a = true → holds a → holds (step a)) (h : holds a) (count : Nat) :
    holds (repeatWhile condition step count a) := by
  induction count generalizing a with
  | zero => exact h
  | succ count ih =>
    rw [repeatWhile]
    split
    case isTrue hmore => exact ih (hstep a hmore h)
    case isFalse => exact h

/-- A loop does not end if its condition keeps holding. -/
theorem not_loops (holds : α → Prop) (hcondition : ∀ a, holds a → condition a = true)
    (hstep : ∀ a, holds a → holds (step a)) (h : holds a) : ¬Loops condition step a b := by
  intro hloops
  induction hloops with
  | done hfails => exact absurd (hcondition _ h) (Bool.eq_false_iff.mp hfails)
  | round _ _ ih => exact ih (hstep _ h)

end DrawPlus
