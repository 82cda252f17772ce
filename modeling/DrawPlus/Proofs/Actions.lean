import Mathlib

/-!
# Actions on a state that may fail

Reading, checking and writing are all actions of the same kind, each on its own state. The lemmas
turn the results of composed actions into formulas about the results of their parts.
-/

namespace DrawPlus

variable {ε σ α β : Type} {s t : σ}

theorem bind_of_ok {x : EStateM ε σ α} {f : α → EStateM ε σ β} {a : α} (h : x s = .ok a t) :
    (x >>= f) s = f a t := by
  change EStateM.bind x f s = f a t
  unfold EStateM.bind
  rw [h]

theorem bind_of_error {x : EStateM ε σ α} {f : α → EStateM ε σ β} {e : ε} (h : x s = .error e t) :
    (x >>= f) s = .error e t := by
  change EStateM.bind x f s = .error e t
  unfold EStateM.bind
  rw [h]

@[simp] theorem bind_eq_ok {x : EStateM ε σ α} {f : α → EStateM ε σ β} {b : β} :
    (x >>= f) s = .ok b t ↔ ∃ a u, x s = .ok a u ∧ f a u = .ok b t := by
  cases hx : x s with
  | ok a u =>
    rw [bind_of_ok hx]
    constructor
    · intro hf
      exact ⟨a, u, rfl, hf⟩
    · rintro ⟨a', u', heq, hf⟩
      cases heq
      exact hf
  | error e u =>
    change EStateM.bind x f s = _ ↔ _
    unfold EStateM.bind
    simp [hx]

theorem bind_eq_error {x : EStateM ε σ α} {f : α → EStateM ε σ β} {e : ε} :
    (x >>= f) s = .error e t ↔
      x s = .error e t ∨ ∃ a u, x s = .ok a u ∧ f a u = .error e t := by
  cases hx : x s with
  | ok a u =>
    rw [bind_of_ok hx]
    simp
  | error e' u =>
    change EStateM.bind x f s = _ ↔ _
    unfold EStateM.bind
    simp [hx]

theorem ok_eq_ok {a b : α} :
    (EStateM.Result.ok a s : EStateM.Result ε σ α) = .ok b t ↔ b = a ∧ t = s := by
  rw [EStateM.Result.ok.injEq]
  exact and_congr eq_comm eq_comm

@[simp] theorem pure_eq_ok {a b : α} :
    (pure a : EStateM ε σ α) s = .ok b t ↔ b = a ∧ t = s :=
  ok_eq_ok

@[simp] theorem map_eq_ok {x : EStateM ε σ α} {f : α → β} {b : β} :
    (f <$> x) s = .ok b t ↔ ∃ a, x s = .ok a t ∧ b = f a := by
  rw [← bind_pure_comp, bind_eq_ok]
  simp

@[simp] theorem throw_ne_ok {e : ε} {a : α} : (throw e : EStateM ε σ α) s ≠ .ok a t := by
  change EStateM.Result.error e s ≠ _
  simp

@[simp] theorem ite_eq_ok {c : Prop} [Decidable c] {x y : EStateM ε σ α} {a : α} :
    (if c then x else y) s = .ok a t ↔ (c ∧ x s = .ok a t) ∨ (¬c ∧ y s = .ok a t) := by
  split_ifs with hc <;> simp [hc]

end DrawPlus
