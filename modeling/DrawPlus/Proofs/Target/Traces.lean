import DrawPlus.Proofs.Target.Execution

/-!
# Traces of the generated language

The simple statements that are executed one after the other, with the beginnings and ends of blocks
between them. As in `Runs`, the outcome of tests is left open: a branch may take any of its blocks,
and a loop may go round any number of times. So a trace says in which order things can be done and
not what they do, which is left to those who read it.

`always_iff` says which statements do something in all of their traces.
-/

namespace DrawPlus.Target

/-- What is done next. -/
inductive Action where
  | does (s : Simple)
  | enters
  | leaves

/-- A block is executed. -/
def Bracketed (block : List Action → Prop) (trace : List Action) : Prop :=
  ∃ inner, block inner ∧ trace = .enters :: (inner ++ [.leaves])

/-- The same is executed any number of times. -/
def Rounds (once : List Action → Prop) (trace : List Action) : Prop :=
  ∃ rounds : List (List Action), (∀ round ∈ rounds, once round) ∧ trace = rounds.flatten

namespace Stmt

mutual

/-- The traces of a statement. -/
def Executes : Stmt → List Action → Prop
  | .simple s => fun trace => trace = [.does s]
  | .branch _ body arms otherwise => fun trace =>
    Bracketed (ExecutesAll body) trace ∨ ExecutesArms arms trace ∨ ExecutesOtherwise otherwise trace
  | .whileLoop _ body => Rounds (Bracketed (ExecutesAll body))
  | .forLoop init _ update body => Bracketed fun trace => ∃ rest, trace = .does init :: rest ∧
      Rounds (fun round => ∃ b, Bracketed (ExecutesAll body) b ∧ round = b ++ [.does update]) rest

def ExecutesAll : List Stmt → List Action → Prop
  | [] => fun trace => trace = []
  | s :: rest => fun trace => ∃ a b, s.Executes a ∧ ExecutesAll rest b ∧ trace = a ++ b

def ExecutesArms : List (Expr × List Stmt) → List Action → Prop
  | [] => fun _ => False
  | (_, body) :: rest => fun trace => Bracketed (ExecutesAll body) trace ∨ ExecutesArms rest trace

/-- The traces of the last block of a branch; a branch without one may do nothing. -/
def ExecutesOtherwise : Option (List Stmt) → List Action → Prop
  | none => fun trace => trace = []
  | some block => Bracketed (ExecutesAll block)

end

end Stmt

open Stmt

theorem rounds_nil (once : List Action → Prop) : Rounds once [] := ⟨[], by simp, rfl⟩

/-! ## What can be in a trace -/

/-- The simple statements of a trace are among these. -/
def Within (simples : List Simple) (trace : List Action) : Prop :=
  ∀ s, .does s ∈ trace → s ∈ simples

section

variable {simples simples' : List Simple} {trace trace' : List Action}

theorem Within.mono (h : Within simples trace) (hle : simples ⊆ simples') : Within simples' trace :=
  fun s hs => hle (h s hs)

theorem Within.append (h : Within simples trace) (h' : Within simples trace') :
    Within simples (trace ++ trace') := by
  intro s hs
  exact (List.mem_append.mp hs).elim (h s) (h' s)

theorem within_of_bracketed {block : List Action → Prop}
    (hblock : ∀ inner, block inner → Within simples inner) (h : Bracketed block trace) :
    Within simples trace := by
  obtain ⟨inner, hinner, rfl⟩ := h
  intro s hs
  refine hblock inner hinner s ?_
  simpa using hs

theorem within_of_rounds {once : List Action → Prop}
    (honce : ∀ round, once round → Within simples round) (h : Rounds once trace) :
    Within simples trace := by
  obtain ⟨rounds, hrounds, rfl⟩ := h
  intro s hs
  obtain ⟨round, hround, hs⟩ := List.mem_flatten.mp hs
  exact honce round (hrounds round hround) s hs

end

mutual

theorem within_of_executes (s : Stmt) {trace : List Action} (h : s.Executes trace) :
    Within s.simples trace := by
  match s with
  | .simple s =>
    obtain rfl : trace = [.does s] := h
    simp [Within, simples]
  | .branch test body arms otherwise =>
    rw [simples]
    rcases h with h | h | h
    · have hbody := within_of_bracketed (fun _ => within_of_executesAll body) h
      exact hbody.mono (List.subset_append_left _ _)
    · exact (within_of_executesArms arms h).mono fun _ hs => by simp [hs]
    · exact (within_of_executesOtherwise otherwise h).mono fun _ hs => by simp [hs]
  | .whileLoop test body =>
    exact within_of_rounds
      (fun _ => within_of_bracketed fun _ => within_of_executesAll body) h
  | .forLoop init test update body =>
    rw [simples]
    refine within_of_bracketed (fun inner hinner => ?_) h
    obtain ⟨rest, rfl, hrest⟩ := hinner
    have hrounds : Within (init :: update :: simplesAll body) rest := by
      refine within_of_rounds (fun round hround => ?_) hrest
      obtain ⟨b, hb, rfl⟩ := hround
      have hbody := within_of_bracketed (fun _ => within_of_executesAll body) hb
      exact (hbody.mono fun _ hs => by simp [hs]).append (by simp [Within])
    intro s hs
    rcases List.mem_cons.mp hs with heq | hs
    · cases heq
      exact .head _
    · exact hrounds s hs

theorem within_of_executesAll (ss : List Stmt) {trace : List Action} (h : ExecutesAll ss trace) :
    Within (simplesAll ss) trace := by
  match ss with
  | [] =>
    obtain rfl : trace = [] := h
    simp [Within]
  | s :: rest =>
    obtain ⟨a, b, ha, hb, rfl⟩ := h
    have hfirst := within_of_executes s ha
    have hrest := within_of_executesAll rest hb
    exact (hfirst.mono (List.subset_append_left _ _)).append
      (hrest.mono (List.subset_append_right _ _))

theorem within_of_executesArms (arms : List (Expr × List Stmt)) {trace : List Action}
    (h : ExecutesArms arms trace) : Within (simplesArms arms) trace := by
  match arms with
  | [] => exact h.elim
  | (test, body) :: rest =>
    rw [simplesArms]
    rcases h with h | h
    · have hbody := within_of_bracketed (fun _ => within_of_executesAll body) h
      exact hbody.mono (List.subset_append_left _ _)
    · exact (within_of_executesArms rest h).mono (List.subset_append_right _ _)

theorem within_of_executesOtherwise (otherwise : Option (List Stmt)) {trace : List Action}
    (h : ExecutesOtherwise otherwise trace) : Within (simplesOtherwise otherwise) trace := by
  match otherwise with
  | none =>
    obtain rfl : trace = [] := h
    simp [Within]
  | some block => exact within_of_bracketed (fun _ => within_of_executesAll block) h

end

/-! ## What is in every trace -/

/-- A simple statement with the property is executed. -/
def Action.meets (p : Simple → Bool) : Action → Bool
  | .does s => p s
  | _ => false

/-- A simple statement with the property is executed somewhere in the trace. -/
def hits (p : Simple → Bool) (trace : List Action) : Bool := trace.any (Action.meets p)

/-- All of these traces do something with the property. -/
def AllHit (p : Simple → Bool) (traces : List Action → Prop) : Prop :=
  ∀ trace, traces trace → hits p trace = true

namespace Stmt

mutual

/-- The statement executes something with the property whatever its tests give. -/
def always (p : Simple → Bool) : Stmt → Bool
  | .simple s => p s
  | .branch _ body arms otherwise =>
    alwaysAll p body && (alwaysArms p arms && alwaysOtherwise p otherwise)
  | .whileLoop _ _ => false
  | .forLoop init _ _ _ => p init

def alwaysAll (p : Simple → Bool) : List Stmt → Bool
  | [] => false
  | s :: rest => s.always p || alwaysAll p rest

def alwaysArms (p : Simple → Bool) : List (Expr × List Stmt) → Bool
  | [] => true
  | (_, body) :: rest => alwaysAll p body && alwaysArms p rest

def alwaysOtherwise (p : Simple → Bool) : Option (List Stmt) → Bool
  | none => false
  | some block => alwaysAll p block

end

end Stmt

section

variable {p : Simple → Bool}

@[simp] theorem hits_nil : hits p [] = false := rfl

@[simp] theorem hits_append (trace trace' : List Action) :
    hits p (trace ++ trace') = (hits p trace || hits p trace') := List.any_append

@[simp] theorem hits_bracket (inner : List Action) :
    hits p (.enters :: (inner ++ [.leaves])) = hits p inner := by
  simp [hits, Action.meets]

theorem allHit_bracketed {block : List Action → Prop} :
    AllHit p (Bracketed block) ↔ AllHit p block := by
  constructor
  · intro h inner hinner
    rw [← hits_bracket]
    exact h _ ⟨inner, hinner, rfl⟩
  · rintro h _ ⟨inner, hinner, rfl⟩
    rw [hits_bracket]
    exact h inner hinner

theorem allHit_or {traces traces' : List Action → Prop} :
    AllHit p (fun trace => traces trace ∨ traces' trace) ↔ AllHit p traces ∧ AllHit p traces' :=
  forall_congr' (fun _ => or_imp) |>.trans forall_and

/-- Of two things one after the other, one always does it, or both can be without it at once. -/
theorem allHit_append {traces traces' : List Action → Prop} :
    AllHit p (fun trace => ∃ a b, traces a ∧ traces' b ∧ trace = a ++ b) ↔
      AllHit p traces ∨ AllHit p traces' := by
  constructor
  · intro h
    by_contra hn
    simp only [AllHit, not_or, not_forall] at hn
    obtain ⟨⟨a, ha, hna⟩, b, hb, hnb⟩ := hn
    have hab := h _ ⟨a, b, ha, hb, rfl⟩
    rw [hits_append, Bool.or_eq_true] at hab
    exact hab.elim hna hnb
  · rintro h _ ⟨a, b, ha, hb, rfl⟩
    rw [hits_append, Bool.or_eq_true]
    exact h.imp (fun h => h a ha) fun h => h b hb

mutual

theorem always_iff (s : Stmt) : s.always p = true ↔ AllHit p s.Executes := by
  match s with
  | .simple s => simp [always, AllHit, Executes, hits, Action.meets]
  | .branch test body arms otherwise =>
    rw [always, Bool.and_eq_true, Bool.and_eq_true, alwaysAll_iff body, alwaysArms_iff arms,
      alwaysOtherwise_iff otherwise, ← allHit_bracketed]
    exact (allHit_or.trans (and_congr_right fun _ => allHit_or)).symm
  | .whileLoop test body =>
    refine iff_of_false Bool.false_ne_true fun h => ?_
    exact Bool.false_ne_true (h [] (rounds_nil _))
  | .forLoop init test update body =>
    rw [always, Executes, allHit_bracketed]
    constructor
    · rintro h _ ⟨rest, rfl, -⟩
      rw [hits, List.any_cons, Action.meets, h, Bool.true_or]
    · intro h
      have hfirst := h _ ⟨[], rfl, rounds_nil _⟩
      simpa [hits, Action.meets] using hfirst

theorem alwaysAll_iff (ss : List Stmt) : alwaysAll p ss = true ↔ AllHit p (ExecutesAll ss) := by
  match ss with
  | [] =>
    refine iff_of_false Bool.false_ne_true fun h => ?_
    exact Bool.false_ne_true (h [] rfl)
  | s :: rest =>
    rw [alwaysAll, Bool.or_eq_true, always_iff s, alwaysAll_iff rest]
    exact allHit_append.symm

theorem alwaysArms_iff (arms : List (Expr × List Stmt)) :
    alwaysArms p arms = true ↔ AllHit p (ExecutesArms arms) := by
  match arms with
  | [] => exact iff_of_true rfl fun _ h => h.elim
  | (test, body) :: rest =>
    rw [alwaysArms, Bool.and_eq_true, alwaysAll_iff body, alwaysArms_iff rest, ← allHit_bracketed]
    exact allHit_or.symm

theorem alwaysOtherwise_iff (otherwise : Option (List Stmt)) :
    alwaysOtherwise p otherwise = true ↔ AllHit p (ExecutesOtherwise otherwise) := by
  match otherwise with
  | none =>
    refine iff_of_false Bool.false_ne_true fun h => ?_
    exact Bool.false_ne_true (h [] rfl)
  | some block =>
    rw [alwaysOtherwise, alwaysAll_iff block]
    exact allHit_bracketed.symm

end

end

end DrawPlus.Target
