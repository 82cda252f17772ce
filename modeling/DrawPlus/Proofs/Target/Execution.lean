import DrawPlus.Proofs.Target.BlockScope

/-!
# Runs of the generated language

What statements of the generated language do to the variables in scope. The values of expressions
and the outcome of tests are left open, except that a whole number stands for itself: a branch may
take any of its blocks, and a loop may go round any number of times. What holds of all these runs
holds of those that really happen.

A block gives back the variables that were in scope before it (`names_of_runs`), and a property of
the variables that every simple statement keeps is kept by a whole run (`invariant_of_runs`).
-/

namespace DrawPlus.Target

/-- The variables in scope with their values, the latest first. Any integer may stand for a value
that is no whole number. -/
abbrev Env := List (String × ℤ)

namespace Env

/-- The variables in scope. -/
def names (env : Env) : List String := env.map Prod.fst

/-- Give the latest variable of this name another value. -/
def assign (name : String) (v : ℤ) : Env → Env
  | [] => []
  | (other, u) :: rest =>
    if other = name then (other, v) :: rest else (other, u) :: assign name v rest

/-- The variables that were in scope before the block with these variables at its end. -/
def leave (env inner : Env) : Env := inner.drop (inner.length - env.length)

/-- What a block does, when its statements do this. -/
def Block (statements : Env → Env → Prop) (env t : Env) : Prop :=
  ∃ inner, statements env inner ∧ t = env.leave inner

end Env

/-- The value that an expression may have. -/
def Expr.CanBe (e : Expr) (v : ℤ) : Prop :=
  ∀ n : ℕ, n < 2 ^ 31 → e = .constant (Value.int n).display → v = n

/-- What a simple statement may do. -/
inductive Simple.Does : Simple → Env → Env → Prop
  | declare {type name : String} {isPointer : Bool} {e : Expr} {v : ℤ} {env : Env} :
      (type = "int" → isPointer = false → e.CanBe v) →
      Does (.declare type isPointer name e) env ((name, v) :: env)
  | assign {target : String} {e : Expr} {v : ℤ} {env : Env} :
      Does (.assign target e) env (env.assign target v)
  | assignMember {target member : String} {e : Expr} {env : Env} :
      Does (.assignMember target member e) env env
  | call {f : String} {es : List Expr} {env : Env} : Does (.call f es) env env

namespace Stmt

mutual

/-- What a statement may do. -/
def Runs : Stmt → Env → Env → Prop
  | .simple s => s.Does
  | .branch _ body arms otherwise => fun env t =>
    Env.Block (RunsAll body) env t ∨ RunsArms arms env t ∨ RunsOtherwise otherwise env t
  | .whileLoop _ body => Relation.ReflTransGen (Env.Block (RunsAll body))
  | .forLoop init _ update body =>
    Env.Block fun env t => ∃ start, init.Does env start ∧
      Relation.ReflTransGen (fun a b => ∃ c, Env.Block (RunsAll body) a c ∧ update.Does c b) start t

def RunsAll : List Stmt → Env → Env → Prop
  | [] => fun env t => t = env
  | s :: rest => fun env t => ∃ u, s.Runs env u ∧ RunsAll rest u t

def RunsArms : List (Expr × List Stmt) → Env → Env → Prop
  | [] => fun _ _ => False
  | (_, body) :: rest => fun env t => Env.Block (RunsAll body) env t ∨ RunsArms rest env t

/-- What the last block of a branch may do; a branch without one may do nothing. -/
def RunsOtherwise : Option (List Stmt) → Env → Env → Prop
  | none => fun env t => t = env
  | some block => Env.Block (RunsAll block)

end

mutual

def simples : Stmt → List Simple
  | .simple s => [s]
  | .branch _ body arms otherwise =>
    simplesAll body ++ (simplesArms arms ++ simplesOtherwise otherwise)
  | .whileLoop _ body => simplesAll body
  | .forLoop init _ update body => init :: update :: simplesAll body

def simplesAll : List Stmt → List Simple
  | [] => []
  | s :: rest => s.simples ++ simplesAll rest

/-- The simple statements in the further blocks of a branch. -/
def simplesArms : List (Expr × List Stmt) → List Simple
  | [] => []
  | (_, body) :: rest => simplesAll body ++ simplesArms rest

/-- The simple statements in the last block of a branch. -/
def simplesOtherwise : Option (List Stmt) → List Simple
  | none => []
  | some block => simplesAll block

end

end Stmt

open Stmt

/-! ## Which variables are in scope -/

section

variable {env t u : Env} {s : Simple}

theorem names_assign (name : String) (v : ℤ) (env : Env) :
    (env.assign name v).names = env.names := by
  induction env with
  | nil => rfl
  | cons entry rest ih =>
    rw [Env.assign]
    split_ifs
    · rfl
    · exact congrArg (entry.1 :: ·) ih

theorem names_of_does (h : s.Does env t) : t.names = s.added ++ env.names := by
  cases h with
  | assign => exact names_assign _ _ _
  | _ => rfl

/-- A block in which no variable of before is lost gives all of them back, and no others. -/
theorem names_of_block {statements : Env → Env → Prop}
    (hs : ∀ inner, statements env inner → env.names <:+ inner.names)
    (h : Env.Block statements env t) : t.names = env.names := by
  obtain ⟨inner, hinner, rfl⟩ := h
  obtain ⟨ws, hws⟩ := hs inner hinner
  have hlength : ws.length = inner.length - env.length := by
    have := congrArg List.length hws
    simp only [Env.names, List.length_append, List.length_map] at this
    omega
  rw [Env.leave, Env.names, List.map_drop, ← hlength]
  change (inner.names).drop ws.length = env.names
  rw [← hws, List.drop_left]

/-- What every round keeps is kept by a loop. -/
theorem invariant_of_reflTransGen {P : Env → Prop} {R : Env → Env → Prop}
    (hR : ∀ a b, R a b → P a → P b) (h : Relation.ReflTransGen R env t) (henv : P env) : P t := by
  induction h with
  | refl => exact henv
  | tail _ hround ih => exact hR _ _ hround ih

end

mutual

theorem names_of_runs (s : Stmt) {env t : Env} (h : s.Runs env t) :
    t.names = s.added ++ env.names := by
  match s with
  | .simple s => exact names_of_does h
  | .branch test body arms otherwise =>
    rcases h with h | h | h
    · exact names_of_block (fun _ => suffix_of_runsAll body) h
    · exact names_of_runsArms arms h
    · exact names_of_runsOtherwise otherwise h
  | .whileLoop test body =>
    refine @invariant_of_reflTransGen env t (fun u => u.names = env.names) _ ?_ h rfl
    intro a b hround ha
    exact (names_of_block (fun _ => suffix_of_runsAll body) hround).trans ha
  | .forLoop init test update body =>
    rw [Runs] at h
    refine names_of_block (fun inner => ?_) h
    rintro ⟨start, hinit, hrounds⟩
    have hstart : env.names <:+ start.names := ⟨init.added, (names_of_does hinit).symm⟩
    refine @invariant_of_reflTransGen start inner (fun u => env.names <:+ u.names) _ ?_ hrounds
      hstart
    rintro a b ⟨c, hbody, hupdate⟩ ha
    have hc : c.names = a.names := names_of_block (fun _ => suffix_of_runsAll body) hbody
    exact ha.trans ⟨update.added, by rw [names_of_does hupdate, hc]⟩

theorem suffix_of_runsAll (ss : List Stmt) {env t : Env} (h : RunsAll ss env t) :
    env.names <:+ t.names := by
  match ss with
  | [] =>
    obtain rfl : t = env := h
    exact List.suffix_rfl
  | s :: rest =>
    obtain ⟨u, hs, hrest⟩ := h
    have hu : env.names <:+ u.names := ⟨s.added, (names_of_runs s hs).symm⟩
    exact hu.trans (suffix_of_runsAll rest hrest)

theorem names_of_runsArms (arms : List (Expr × List Stmt)) {env t : Env}
    (h : RunsArms arms env t) : t.names = env.names := by
  match arms with
  | [] => exact h.elim
  | (test, body) :: rest =>
    rcases h with h | h
    · exact names_of_block (fun _ => suffix_of_runsAll body) h
    · exact names_of_runsArms rest h

theorem names_of_runsOtherwise (otherwise : Option (List Stmt)) {env t : Env}
    (h : RunsOtherwise otherwise env t) : t.names = env.names := by
  match otherwise with
  | none =>
    obtain rfl : t = env := h
    rfl
  | some block => exact names_of_block (fun _ => suffix_of_runsAll block) h

end

/-- After statements, the variables that they declare outside of blocks are in scope as well. -/
theorem mem_names_of_runsAll (ss : List Stmt) {env t : Env} (h : RunsAll ss env t) (w : String) :
    w ∈ t.names ↔ w ∈ ss.flatMap Stmt.added ∨ w ∈ env.names := by
  induction ss generalizing env with
  | nil =>
    obtain rfl : t = env := h
    simp
  | cons s rest ih =>
    obtain ⟨u, hs, hrest⟩ := h
    rw [ih hrest, names_of_runs s hs, List.flatMap_cons, List.mem_append, List.mem_append]
    tauto

/-! ## Invariants -/

/-- The property is not lost at the end of a block. -/
def Lasting (P : Env → Prop) : Prop := ∀ env inner, P inner → P (Env.leave env inner)

section

variable {P : Env → Prop}

theorem Lasting.of_block (hP : Lasting P) {env t : Env} {statements : Env → Env → Prop}
    (hs : ∀ inner, statements env inner → P inner) (h : Env.Block statements env t) : P t := by
  obtain ⟨inner, hinner, rfl⟩ := h
  exact hP env inner (hs inner hinner)

mutual

/-- What every simple statement keeps is kept in every run. -/
theorem invariant_of_runs (hP : Lasting P) (s : Stmt)
    (hs : ∀ simple ∈ s.simples, ∀ env t, simple.Does env t → P env → P t) {env t : Env}
    (h : s.Runs env t) (henv : P env) : P t := by
  match s with
  | .simple s => exact hs s (List.mem_singleton.mpr rfl) env t h henv
  | .branch test body arms otherwise =>
    simp only [simples, List.forall_mem_append] at hs
    obtain ⟨hbody, harms, hotherwise⟩ := hs
    rcases h with h | h | h
    · exact hP.of_block (fun inner hinner => invariant_of_runsAll hP body hbody hinner henv) h
    · exact invariant_of_runsArms hP arms harms h henv
    · exact invariant_of_runsOtherwise hP otherwise hotherwise h henv
  | .whileLoop test body =>
    refine invariant_of_reflTransGen (fun a b hab ha => ?_) h henv
    exact hP.of_block (fun inner hinner => invariant_of_runsAll hP body hs hinner ha) hab
  | .forLoop init test update body =>
    simp only [simples, List.forall_mem_cons] at hs
    obtain ⟨hinit, hupdate, hbody⟩ := hs
    rw [Runs] at h
    refine hP.of_block (fun inner => ?_) h
    rintro ⟨start, hstart, hrounds⟩
    refine invariant_of_reflTransGen ?_ hrounds (hinit _ _ hstart henv)
    rintro a b ⟨c, hround, hnext⟩ ha
    refine hupdate _ _ hnext (hP.of_block (fun inner hinner => ?_) hround)
    exact invariant_of_runsAll hP body hbody hinner ha

theorem invariant_of_runsAll (hP : Lasting P) (ss : List Stmt)
    (hs : ∀ simple ∈ simplesAll ss, ∀ env t, simple.Does env t → P env → P t) {env t : Env}
    (h : RunsAll ss env t) (henv : P env) : P t := by
  match ss with
  | [] =>
    obtain rfl : t = env := h
    exact henv
  | s :: rest =>
    simp only [simplesAll, List.forall_mem_append] at hs
    obtain ⟨u, hfirst, hrest⟩ := h
    exact invariant_of_runsAll hP rest hs.2 hrest (invariant_of_runs hP s hs.1 hfirst henv)

theorem invariant_of_runsArms (hP : Lasting P) (arms : List (Expr × List Stmt))
    (hs : ∀ simple ∈ simplesArms arms, ∀ env t, simple.Does env t → P env → P t) {env t : Env}
    (h : RunsArms arms env t) (henv : P env) : P t := by
  match arms with
  | [] => exact h.elim
  | (test, body) :: rest =>
    simp only [simplesArms, List.forall_mem_append] at hs
    rcases h with h | h
    · exact hP.of_block (fun inner hinner => invariant_of_runsAll hP body hs.1 hinner henv) h
    · exact invariant_of_runsArms hP rest hs.2 h henv

theorem invariant_of_runsOtherwise (hP : Lasting P) (otherwise : Option (List Stmt))
    (hs : ∀ simple ∈ simplesOtherwise otherwise, ∀ env t, simple.Does env t → P env → P t)
    {env t : Env} (h : RunsOtherwise otherwise env t) (henv : P env) : P t := by
  match otherwise with
  | none =>
    obtain rfl : t = env := h
    exact henv
  | some block =>
    exact hP.of_block (fun inner hinner => invariant_of_runsAll hP block hs hinner henv) h

end

end

/-! ## Every statement has a run -/

theorem exists_does (s : Simple) (env : Env) : ∃ t, s.Does env t := by
  cases s with
  | declare type isPointer name e =>
    by_cases hnumber : ∃ n : ℕ, n < 2 ^ 31 ∧ e = .constant (Value.int n).display
    · obtain ⟨n, -, rfl⟩ := hnumber
      refine ⟨(name, n) :: env, .declare fun _ _ m _ hm => ?_⟩
      exact Value.int.inj (Value.eq_of_display (.int n) (.int m) rfl rfl (Expr.constant.inj hm))
    · exact ⟨(name, 0) :: env, .declare fun _ _ n hn he => absurd ⟨n, hn, he⟩ hnumber⟩
  | assign target e => exact ⟨env.assign target 0, .assign⟩
  | assignMember target member e => exact ⟨env, .assignMember⟩
  | call f es => exact ⟨env, .call⟩

mutual

theorem exists_runs (s : Stmt) (env : Env) : ∃ t, s.Runs env t := by
  match s with
  | .simple s => exact exists_does s env
  | .branch test body arms otherwise =>
    obtain ⟨inner, hbody⟩ := exists_runsAll body env
    exact ⟨_, .inl ⟨inner, hbody, rfl⟩⟩
  | .whileLoop test body => exact ⟨env, .refl⟩
  | .forLoop init test update body =>
    obtain ⟨start, hinit⟩ := exists_does init env
    refine ⟨env.leave start, ?_⟩
    rw [Runs]
    exact ⟨start, ⟨start, hinit, .refl⟩, rfl⟩

theorem exists_runsAll (ss : List Stmt) (env : Env) : ∃ t, RunsAll ss env t := by
  match ss with
  | [] => exact ⟨env, rfl⟩
  | s :: rest =>
    obtain ⟨u, hs⟩ := exists_runs s env
    obtain ⟨t, hrest⟩ := exists_runsAll rest u
    exact ⟨t, u, hs, hrest⟩

end

end DrawPlus.Target
