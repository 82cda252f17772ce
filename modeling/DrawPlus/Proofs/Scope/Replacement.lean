import DrawPlus.Proofs.Scope.Decision

/-!
# A variable in the place of a truth value

A variable of truth values can stand for a literal where values are compared or given to a variable,
but not where a call wants a literal. `Replaces b role` relates two trees that differ in one literal
`true` or `false`, for which the second has the variable `b`; the role says what the literal is
there for.

By the static rules, the replacement changes one step of the program and leaves the others alone. So
the argument is about that step (`sound_replaced`) and about adding a declaration in front of all
(`Follows.widen`).
-/

namespace DrawPlus

open Step

inductive Role where
  /-- it is the condition of a branch or of a loop -/
  | condition
  /-- it is one side of an operation -/
  | operand
  /-- it is the initial value of a variable, or assigned to one -/
  | value
  /-- it is an argument of a call -/
  | argument
  | coordinate
  /-- it is a component of a colour -/
  | component
deriving DecidableEq

/-- The expressions differ in one truth value, for which the second has `b`. The first role is that
of the whole expression, the second that of the truth value. -/
inductive Swaps (b : Value) : Role → Role → Node → Node → Prop
  | here (role : Role) (v : Value) : Swaps b role role (.truth v) (.variable b)
  | left {top role : Role} {e e' r : Node} {op : Kind} : Swaps b .operand role e e' →
      Swaps b top role (.binary e op r) (.binary e' op r)
  | right {top role : Role} {e e' l : Node} {op : Kind} : Swaps b .operand role e e' →
      Swaps b top role (.binary l op e) (.binary l op e')
  | red {top role : Role} {e e' g u : Node} {v : Value} : Swaps b .component role e e' →
      Swaps b top role (.color v (some [e, g, u])) (.color v (some [e', g, u]))
  | green {top role : Role} {e e' r u : Node} {v : Value} : Swaps b .component role e e' →
      Swaps b top role (.color v (some [r, e, u])) (.color v (some [r, e', u]))
  | blue {top role : Role} {e e' r g : Node} {v : Value} : Swaps b .component role e e' →
      Swaps b top role (.color v (some [r, g, e])) (.color v (some [r, g, e']))

/-- The statements or programs differ in one truth value, for which the second has `b`. -/
inductive Replaces (b : Value) (role : Role) : Node → Node → Prop
  | program {pre post : List Node} {n n' : Node} : Replaces b role n n' →
      Replaces b role (.program (pre ++ n :: post)) (.program (pre ++ n' :: post))
  | initial {type : Option Kind} {x : Value} {e e' : Node} : Swaps b .value role e e' →
      Replaces b role (.varDecl type x e) (.varDecl type x e')
  | assigned {x : Value} {e e' : Node} : Swaps b .value role e e' →
      Replaces b role (.assign x e) (.assign x e')
  | across {x : Value} {e e' y : Node} : Swaps b .coordinate role e e' →
      Replaces b role (.cursorCreation x e y) (.cursorCreation x e' y)
  | down {x : Value} {e e' y : Node} : Swaps b .coordinate role e e' →
      Replaces b role (.cursorCreation x y e) (.cursorCreation x y e')
  | changing {c m : Value} {pre post : List Node} {e e' : Node} : Swaps b .argument role e e' →
      Replaces b role (.cursorMethod c m (pre ++ e :: post)) (.cursorMethod c m (pre ++ e' :: post))
  | drawing {c m : Value} {pre post : List Node} {e e' : Node} : Swaps b .argument role e e' →
      Replaces b role (.drawCommand c m (pre ++ e :: post)) (.drawCommand c m (pre ++ e' :: post))
  | branchTest {e e' : Node} {body : List Node} {arms : List (Node × List Node)}
      {otherwise : Option (List Node)} : Swaps b .condition role e e' →
      Replaces b role (.branch e body arms otherwise) (.branch e' body arms otherwise)
  | branchBody {test n n' : Node} {pre post : List Node} {arms : List (Node × List Node)}
      {otherwise : Option (List Node)} : Replaces b role n n' →
      Replaces b role (.branch test (pre ++ n :: post) arms otherwise)
        (.branch test (pre ++ n' :: post) arms otherwise)
  | armTest {test e e' : Node} {body block : List Node} {pre post : List (Node × List Node)}
      {otherwise : Option (List Node)} : Swaps b .condition role e e' →
      Replaces b role (.branch test body (pre ++ (e, block) :: post) otherwise)
        (.branch test body (pre ++ (e', block) :: post) otherwise)
  | armBody {test cond n n' : Node} {body before after : List Node}
      {pre post : List (Node × List Node)} {otherwise : Option (List Node)} : Replaces b role n n' →
      Replaces b role (.branch test body (pre ++ (cond, before ++ n :: after) :: post) otherwise)
        (.branch test body (pre ++ (cond, before ++ n' :: after) :: post) otherwise)
  | otherwise {test n n' : Node} {body pre post : List Node} {arms : List (Node × List Node)} :
      Replaces b role n n' → Replaces b role (.branch test body arms (some (pre ++ n :: post)))
        (.branch test body arms (some (pre ++ n' :: post)))
  | whileTest {e e' : Node} {body : List Node} : Swaps b .condition role e e' →
      Replaces b role (.whileLoop e body) (.whileLoop e' body)
  | whileBody {test n n' : Node} {pre post : List Node} : Replaces b role n n' →
      Replaces b role (.whileLoop test (pre ++ n :: post)) (.whileLoop test (pre ++ n' :: post))
  | forInit {test update n n' : Node} {body : List Node} : Replaces b role n n' →
      Replaces b role (.forLoop n test update body) (.forLoop n' test update body)
  | forTest {init update e e' : Node} {body : List Node} : Swaps b .condition role e e' →
      Replaces b role (.forLoop init e update body) (.forLoop init e' update body)
  | forUpdate {init test n n' : Node} {body : List Node} : Replaces b role n n' →
      Replaces b role (.forLoop init test n body) (.forLoop init test n' body)
  | forBody {init test update n n' : Node} {pre post : List Node} : Replaces b role n n' →
      Replaces b role (.forLoop init test update (pre ++ n :: post))
        (.forLoop init test update (pre ++ n' :: post))

/-! ## The replaced tree has the same form -/

namespace Swaps

variable {b : Value} {top role : Role} {e e' : Node}

theorem ne_number (h : Swaps b top role e e') (v : Value) : e' ≠ .number v := by
  cases h <;> simp

theorem isExpr (h : Swaps b top role e e') (he : e.IsExpr .any) : e'.IsExpr .any := by
  induction h with
  | here => exact .name trivial
  | left _ ih =>
    cases he with
    | binary hl hop hr => exact .binary (ih hl) hop hr
  | right _ ih =>
    cases he with
    | binary hl hop hr => exact .binary hl hop (ih hr)
  | red _ ih =>
    cases he with
    | mixed hr hg hb => exact .mixed (ih hr) hg hb
  | green _ ih =>
    cases he with
    | mixed hr hg hb => exact .mixed hr (ih hg) hb
  | blue _ ih =>
    cases he with
    | mixed hr hg hb => exact .mixed hr hg (ih hb)

theorem isTest (h : Swaps b top role e e') (he : e.IsTest .any) : e'.IsTest .any :=
  .expr (h.isExpr (he.isExpr Vocabulary.isCoarse_any))

end Swaps

theorem forall_mem_replace {α : Type} {P : α → Prop} {pre post : List α} {a a' : α}
    (hall : ∀ x ∈ pre ++ a :: post, P x) (h : P a → P a') : ∀ x ∈ pre ++ a' :: post, P x := by
  rw [List.forall_mem_append, List.forall_mem_cons] at hall ⊢
  exact ⟨hall.1, h hall.2.1, hall.2.2⟩

namespace Replaces

variable {b : Value} {role : Role} {n n' : Node}

theorem isDeclaration (h : Replaces b role n n') (hn : n.IsDeclaration .any) :
    n'.IsDeclaration .any := by
  obtain ⟨hk, hx, hd, he⟩ := hn
  cases h with
  | initial hs =>
    refine .intro hk hx (fun hx => ⟨(hd hx).1, ?_⟩) (hs.isExpr he)
    intro v hv
    exact absurd hv (hs.ne_number v)

theorem isAssignment (h : Replaces b role n n') (hn : n.IsAssignment .any) :
    n'.IsAssignment .any := by
  obtain ⟨hx, he⟩ := hn
  cases h with
  | assigned hs => exact .intro hx (hs.isExpr he)

theorem isStart (h : Replaces b role n n') (hn : n.IsStart .any) : n'.IsStart .any := by
  cases hn with
  | declaration hd => exact .declaration (h.isDeclaration hd)
  | assignment ha => exact .assignment (h.isAssignment ha)

theorem isStatement (h : Replaces b role n n') (hn : n.IsStatement .any) :
    n'.IsStatement .any := by
  induction h with
  | program => cases hn
  | initial hs =>
    cases hn with
    | declaration hd => exact (isDeclaration (.initial hs) hd).isStatement
  | assigned hs =>
    cases hn with
    | assignment hx hbegins he => exact .assignment hx hbegins (hs.isExpr he)
  | across hs =>
    cases hn with
    | creation hx ha hb => exact .creation hx (hs.isExpr ha) hb
  | down hs =>
    cases hn with
    | creation hx ha hb => exact .creation hx ha (hs.isExpr hb)
  | changing hs =>
    cases hn with
    | change hx hc hm hns => exact .change hx hc hm (forall_mem_replace hns hs.isExpr)
  | drawing hs =>
    cases hn with
    | draw hx hc hm hns => exact .draw hx hc hm (forall_mem_replace hns hs.isExpr)
  | branchTest hs =>
    cases hn with
    | branch ht hb ha hbs ho => exact .branch (hs.isTest ht) hb ha hbs ho
  | branchBody _ ih =>
    cases hn with
    | branch ht hb ha hbs ho => exact .branch ht (forall_mem_replace hb ih) ha hbs ho
  | armTest hs =>
    cases hn with
    | branch ht hb ha hbs ho =>
      refine .branch ht hb ?_ ?_ ho
      · exact forall_mem_replace ha hs.isTest
      · exact forall_mem_replace hbs fun h => h
  | armBody _ ih =>
    cases hn with
    | branch ht hb ha hbs ho =>
      refine .branch ht hb ?_ ?_ ho
      · exact forall_mem_replace ha fun h => h
      · exact forall_mem_replace hbs fun h => forall_mem_replace h ih
  | otherwise _ ih =>
    cases hn with
    | branch ht hb ha hbs ho =>
      refine .branch ht hb ha hbs ?_
      intro block hblock
      obtain rfl := Option.some.inj hblock
      exact forall_mem_replace (ho _ rfl) ih
  | whileTest hs =>
    cases hn with
    | whileLoop ht hb => exact .whileLoop (hs.isTest ht) hb
  | whileBody _ ih =>
    cases hn with
    | whileLoop ht hb => exact .whileLoop ht (forall_mem_replace hb ih)
  | forInit hr =>
    cases hn with
    | forLoop hi ht hu hb => exact .forLoop (hr.isStart hi) ht hu hb
  | forTest hs =>
    cases hn with
    | forLoop hi ht hu hb => exact .forLoop hi (hs.isTest ht) hu hb
  | forUpdate hr =>
    cases hn with
    | forLoop hi ht hu hb => exact .forLoop hi ht (hr.isAssignment hu) hb
  | forBody _ ih =>
    cases hn with
    | forLoop hi ht hu hb => exact .forLoop hi ht hu (forall_mem_replace hb ih)

end Replaces

/-! ## One step is changed -/

/-- The steps differ in one truth value, for which the second has `b`. -/
inductive StepSwaps (b : Value) (role : Role) : Step → Step → Prop
  | declares {type : Option Kind} {x : Value} {e e' : Node} : Swaps b .value role e e' →
      StepSwaps b role (.declares type x e) (.declares type x e')
  | assigns {x : Value} {e e' : Node} : Swaps b .value role e e' →
      StepSwaps b role (.assigns x e) (.assigns x e')
  | across {x : Value} {e e' y : Node} : Swaps b .coordinate role e e' →
      StepSwaps b role (.creates x e y) (.creates x e' y)
  | down {x : Value} {e e' y : Node} : Swaps b .coordinate role e e' →
      StepSwaps b role (.creates x y e) (.creates x y e')
  | calls {c m : Value} {pre post : List Node} {e e' : Node} : Swaps b .argument role e e' →
      StepSwaps b role (.calls c m (pre ++ e :: post)) (.calls c m (pre ++ e' :: post))
  | tests {e e' : Node} : Swaps b .condition role e e' → StepSwaps b role (.tests e) (.tests e')

/-- Lists of steps that differ in one step, and there in one truth value. -/
def DifferAt (b : Value) (role : Role) (xs ys : List Step) : Prop :=
  ∃ before step step' after, StepSwaps b role step step' ∧ xs = before ++ step :: after ∧
    ys = before ++ step' :: after

section

variable {b : Value} {role : Role} {xs ys : List Step}

theorem differAt_singleton {step step' : Step} (h : StepSwaps b role step step') :
    DifferAt b role [step] [step'] :=
  ⟨[], step, step', [], h, rfl, rfl⟩

theorem DifferAt.between (h : DifferAt b role xs ys) (front back : List Step) :
    DifferAt b role (front ++ (xs ++ back)) (front ++ (ys ++ back)) := by
  obtain ⟨before, step, step', after, hs, rfl, rfl⟩ := h
  exact ⟨front ++ before, step, step', after ++ back, hs, by simp, by simp⟩

theorem stepsAll_append (pre : List Node) (n : Node) (post : List Node) :
    Node.stepsAll (pre ++ n :: post) = Node.stepsAll pre ++ (n.steps ++ Node.stepsAll post) := by
  induction pre with
  | nil => rfl
  | cons m pre ih => rw [List.cons_append, Node.stepsAll, ih, Node.stepsAll, List.append_assoc]

theorem stepsArms_append (pre : List (Node × List Node)) (test : Node) (block : List Node)
    (post : List (Node × List Node)) : Node.stepsArms (pre ++ (test, block) :: post) =
      Node.stepsArms pre ++ (.tests test :: (Node.stepsAll block ++ Node.stepsArms post)) := by
  induction pre with
  | nil => rfl
  | cons arm pre ih =>
    rw [List.cons_append, Node.stepsArms, ih, Node.stepsArms]
    simp

theorem DifferAt.all {n n' : Node} (h : DifferAt b role n.steps n'.steps) (pre post : List Node) :
    DifferAt b role (Node.stepsAll (pre ++ n :: post)) (Node.stepsAll (pre ++ n' :: post)) := by
  rw [stepsAll_append, stepsAll_append]
  exact h.between _ _

theorem differAt_of_replaces {n n' : Node} (h : Replaces b role n n') :
    DifferAt b role n.steps n'.steps := by
  induction h with
  | program _ ih => exact ih.all _ _
  | initial hs => exact differAt_singleton (.declares hs)
  | assigned hs => exact differAt_singleton (.assigns hs)
  | across hs => exact differAt_singleton (.across hs)
  | down hs => exact differAt_singleton (.down hs)
  | changing hs => exact differAt_singleton (.calls hs)
  | drawing hs => exact differAt_singleton (.calls hs)
  | branchTest hs =>
    rw [Check.steps_branch, Check.steps_branch]
    exact (differAt_singleton (.tests hs)).between [] _
  | @branchBody test _ _ pre post arms otherwise _ ih =>
    rw [Check.steps_branch, Check.steps_branch]
    exact (ih.all pre post).between [.tests test] _
  | @armTest test e e' body block pre post otherwise hs =>
    have h := (differAt_singleton (.tests hs)).between
      (.tests test :: (Node.stepsAll body ++ Node.stepsArms pre))
      (Node.stepsAll block ++ (Node.stepsArms post ++ Node.stepsAll (otherwise.getD [])))
    rw [Check.steps_branch, Check.steps_branch, stepsArms_append, stepsArms_append]
    simpa using h
  | @armBody test cond _ _ body before after pre post otherwise _ ih =>
    have h := (ih.all before after).between
      (.tests test :: (Node.stepsAll body ++ (Node.stepsArms pre ++ [.tests cond])))
      (Node.stepsArms post ++ Node.stepsAll (otherwise.getD []))
    rw [Check.steps_branch, Check.steps_branch, stepsArms_append, stepsArms_append]
    simpa using h
  | @otherwise test _ _ body pre post arms _ ih =>
    have h := (ih.all pre post).between
      (.tests test :: (Node.stepsAll body ++ Node.stepsArms arms)) []
    rw [Check.steps_branch, Check.steps_branch]
    simpa using h
  | whileTest hs => exact (differAt_singleton (.tests hs)).between [] _
  | @whileBody test _ _ pre post _ ih =>
    have h := (ih.all pre post).between [.tests test] []
    rwa [List.append_nil, List.append_nil] at h
  | forInit _ ih => exact ih.between [] _
  | @forTest init _ _ _ _ hs => exact (differAt_singleton (.tests hs)).between init.steps _
  | @forUpdate init test _ _ body _ ih =>
    have h := ih.between (init.steps ++ [.tests test]) (Node.stepsAll body)
    rwa [List.append_assoc, List.append_assoc] at h
  | @forBody init test update _ _ pre post _ ih =>
    have h := (ih.all pre post).between (init.steps ++ (.tests test :: update.steps)) []
    rwa [List.append_nil, List.append_nil, List.append_assoc, List.append_assoc] at h

end

/-! ## Types -/

namespace HasType

variable {Γ Δ : List (Value × Option Kind)} {e : Node} {k : Kind}

theorem mono (h : HasType Γ e k) (hsub : Γ ⊆ Δ) : HasType Δ e k := by
  induction h with
  | whole hv => exact .whole hv
  | fractional x => exact .fractional x
  | truth v => exact .truth v
  | hue v => exact .hue v
  | mixed _ hk _ hl _ hm ihr ihg ihb => exact .mixed ihr hk ihg hl ihb hm
  | name hx => exact .name (hsub hx)
  | wholeArithmetic hop _ _ ihl ihr => exact .wholeArithmetic hop ihl ihr
  | fractionalArithmetic hop _ _ hk hm hf ihl ihr =>
    exact .fractionalArithmetic hop ihl ihr hk hm hf
  | comparison hop _ _ hc ihl ihr => exact .comparison hop ihl ihr hc

end HasType

theorem not_numeric_boolValue : ¬Kind.Numeric .boolValue := by decide

/-- Whatever can be compared with a truth value can be compared with a variable for one. -/
theorem comparable_bool_left {k : Kind} (h : Kind.Comparable .boolValue k) :
    Kind.Comparable .bool k := by
  cases h with
  | same => exact .variableLeft
  | numbers hk => exact absurd hk not_numeric_boolValue
  | variableRight => exact .same .bool

theorem comparable_bool_right {k : Kind} (h : k.Comparable .boolValue) : k.Comparable .bool := by
  cases h with
  | same => exact .variableRight
  | numbers _ hk => exact absurd hk not_numeric_boolValue
  | variableLeft => exact .same .bool

section

variable {b : Value} {top role : Role} {e e' : Node} {Γ Δ : List (Value × Option Kind)} {k : Kind}

/-- Either the truth value is all of the expression, or it is an operand in it and the expression
keeps its type. -/
theorem Swaps.hasType (h : Swaps b top role e e') (hsub : Γ ⊆ Δ) (hb : (b, some .bool) ∈ Δ)
    (he : HasType Γ e k) : (role = top ∧ k = .boolValue ∧ e' = .variable b) ∨
      (role = .operand ∧ HasType Δ e' k) := by
  induction h generalizing k with
  | here =>
    cases he
    exact .inl ⟨rfl, rfl, rfl⟩
  | left _ ih =>
    right
    cases he with
    | wholeArithmetic hop hl hr =>
      obtain ⟨-, habsurd, -⟩ | ⟨hrole, hl'⟩ := ih hl
      · cases habsurd
      · exact ⟨hrole, .wholeArithmetic hop hl' (hr.mono hsub)⟩
    | fractionalArithmetic hop hl hr hk hm hf =>
      obtain ⟨-, rfl, -⟩ | ⟨hrole, hl'⟩ := ih hl
      · exact absurd hk not_numeric_boolValue
      · exact ⟨hrole, .fractionalArithmetic hop hl' (hr.mono hsub) hk hm hf⟩
    | comparison hop hl hr hc =>
      obtain ⟨hrole, rfl, rfl⟩ | ⟨hrole, hl'⟩ := ih hl
      · exact ⟨hrole, .comparison hop (.name hb) (hr.mono hsub) (comparable_bool_left hc)⟩
      · exact ⟨hrole, .comparison hop hl' (hr.mono hsub) hc⟩
  | right _ ih =>
    right
    cases he with
    | wholeArithmetic hop hl hr =>
      obtain ⟨-, habsurd, -⟩ | ⟨hrole, hr'⟩ := ih hr
      · cases habsurd
      · exact ⟨hrole, .wholeArithmetic hop (hl.mono hsub) hr'⟩
    | fractionalArithmetic hop hl hr hk hm hf =>
      obtain ⟨-, rfl, -⟩ | ⟨hrole, hr'⟩ := ih hr
      · exact absurd hm not_numeric_boolValue
      · exact ⟨hrole, .fractionalArithmetic hop (hl.mono hsub) hr' hk hm hf⟩
    | comparison hop hl hr hc =>
      obtain ⟨hrole, rfl, rfl⟩ | ⟨hrole, hr'⟩ := ih hr
      · exact ⟨hrole, .comparison hop (hl.mono hsub) (.name hb) (comparable_bool_right hc)⟩
      · exact ⟨hrole, .comparison hop (hl.mono hsub) hr' hc⟩
  | red _ ih =>
    cases he with
    | mixed hr hk hg hl hu hm =>
      obtain ⟨-, rfl, -⟩ | ⟨hrole, hr'⟩ := ih hr
      · exact absurd hk not_numeric_boolValue
      · exact .inr ⟨hrole, .mixed hr' hk (hg.mono hsub) hl (hu.mono hsub) hm⟩
  | green _ ih =>
    cases he with
    | mixed hr hk hg hl hu hm =>
      obtain ⟨-, rfl, -⟩ | ⟨hrole, hg'⟩ := ih hg
      · exact absurd hl not_numeric_boolValue
      · exact .inr ⟨hrole, .mixed (hr.mono hsub) hk hg' hl (hu.mono hsub) hm⟩
  | blue _ ih =>
    cases he with
    | mixed hr hk hg hl hu hm =>
      obtain ⟨-, rfl, -⟩ | ⟨hrole, hu'⟩ := ih hu
      · exact absurd hm not_numeric_boolValue
      · exact .inr ⟨hrole, .mixed (hr.mono hsub) hk (hg.mono hsub) hl hu' hm⟩

end

/-! ## Steps after a further declaration -/

theorem not_mem_names_cons {b : Value} {step : Step} {steps : List Step}
    (h : b ∉ names (step :: steps)) : step.name? ≠ some b ∧ b ∉ names steps := by
  rw [← List.singleton_append, names_append, List.mem_append, not_or, names_singleton,
    Option.mem_toList] at h
  exact h

/-- The second list of steps declares what the first one does, and `b` as a variable of truth
values. -/
structure Wider (b : Value) (before before' : List Step) : Prop where
  context : context before ⊆ context before'
  cursors : cursors before ⊆ cursors before'
  names : ∀ x ∈ names before', x = b ∨ x ∈ names before
  holds : ∀ type, (b, type) ∈ Step.context before' ↔ type = some .bool

namespace Wider

variable {b : Value} {before before' : List Step} {step step' : Step}

theorem concat (h : Wider b before before') (he : step'.entry? = step.entry?)
    (hc : step'.cursor? = step.cursor?) (hn : step'.name? = step.name?) (hb : step.name? ≠ some b) :
    Wider b (before ++ [step]) (before' ++ [step']) := by
  have hentry (type : Option Kind) : step.entry? ≠ some (b, type) := by
    intro hs
    cases step with
    | declares =>
      cases hs
      exact hb rfl
    | creates | assigns | calls | tests => cases hs
  have hcontext : Step.context [step'] = Step.context [step] := by
    rw [Step.context, Step.context, List.filterMap_cons, List.filterMap_cons, he]
  have hcursors : Step.cursors [step'] = Step.cursors [step] := by
    rw [Step.cursors, Step.cursors, List.filterMap_cons, List.filterMap_cons, hc]
  constructor
  · rw [context_append, context_append, hcontext]
    exact List.append_subset.mpr ⟨fun _ hx => List.mem_append_left _ (h.context hx),
      List.subset_append_right _ _⟩
  · rw [cursors_append, cursors_append, hcursors]
    exact List.append_subset.mpr ⟨fun _ hx => List.mem_append_left _ (h.cursors hx),
      List.subset_append_right _ _⟩
  · intro x hx
    rw [names_append, List.mem_append, names_singleton, hn] at hx
    rw [names_append, List.mem_append, names_singleton]
    rcases hx with hx | hx
    · exact (h.names x hx).imp_right .inl
    · exact .inr (.inr hx)
  · intro type
    rw [context_append, hcontext, List.mem_append, h.holds, or_iff_left]
    intro hmem
    obtain ⟨s, hs, heq⟩ := List.mem_filterMap.mp hmem
    obtain rfl := List.mem_singleton.mp hs
    exact hentry type heq

theorem fresh (h : Wider b before before') (hb : step.name? ≠ some b) (hf : step.Fresh before) :
    step.Fresh before' := by
  intro x hx hmem
  rcases h.names x hmem with rfl | hmem
  · exact hb hx
  · exact hf x hx hmem

theorem with_entry (h : Wider b before before') (entry : Value × Option Kind) :
    Step.context before ++ [entry] ⊆ Step.context before' ++ [entry] :=
  List.append_subset.mpr ⟨fun _ hx => List.mem_append_left _ (h.context hx),
    List.subset_append_right _ _⟩

theorem sound (h : Wider b before before') (hs : step.Sound before) : step.Sound before' := by
  cases step with
  | declares type x init =>
    obtain ⟨k, t, ht, htype, hsuits⟩ := hs
    exact ⟨k, t, ht, htype.mono (h.with_entry _), hsuits⟩
  | creates x a c =>
    obtain ⟨k, l, ha, hk, hc, hl⟩ := hs
    exact ⟨k, l, ha.mono h.context, hk, hc.mono h.context, hl⟩
  | assigns x e =>
    obtain ⟨k, t, hx, he, hsuits⟩ := hs
    exact ⟨k, t, h.context hx, he.mono h.context, hsuits⟩
  | calls c m given =>
    obtain ⟨hc, types, hm, hall⟩ := hs
    exact ⟨h.cursors hc, types, hm, hall.imp fun e t ⟨k, he, hk⟩ => ⟨k, he.mono h.context, hk⟩⟩
  | tests e => exact HasType.mono hs h.context

/-- Steps that do not declare `b` can follow the longer list too. -/
theorem follows {steps : List Step} (h : Wider b before before') (hb : b ∉ Step.names steps)
    (hf : Follows before steps) : Follows before' steps := by
  induction steps generalizing before before' with
  | nil => trivial
  | cons step steps ih =>
    obtain ⟨hname, hrest⟩ := not_mem_names_cons hb
    exact ⟨h.fresh hname hf.1, h.sound hf.2.1, ih (h.concat rfl rfl rfl hname) hrest hf.2.2⟩

end Wider

/-! ## The changed step -/

/-- Exchanging one member of a list is a matter of what stands beside it in the other. -/
theorem forall₂_replace {α β : Type} {R S : α → β → Prop} (hRS : ∀ a c, R a c → S a c)
    {pre post : List α} {a : α} {cs : List β} (h : List.Forall₂ R (pre ++ a :: post) cs) (a' : α) :
    ∃ c ∈ cs, R a c ∧ (List.Forall₂ S (pre ++ a' :: post) cs ↔ S a' c) := by
  induction pre generalizing cs with
  | nil =>
    cases h with
    | @cons _ c _ cs hc hrest =>
      refine ⟨c, List.mem_cons_self, hc, ?_⟩
      rw [List.nil_append, List.forall₂_cons]
      exact and_iff_left (hrest.imp hRS)
  | cons p pre ih =>
    cases h with
    | @cons _ c _ cs hc hrest =>
      obtain ⟨d, hd, ha, hiff⟩ := ih hrest
      refine ⟨d, List.mem_cons_of_mem _ hd, ha, ?_⟩
      rw [List.cons_append, List.forall₂_cons, hiff]
      exact and_iff_right (hRS _ _ hc)

theorem methods_unique {m : Value} {types types' : List Kind} (h : (m, types) ∈ Check.methods)
    (h' : (m, types') ∈ Check.methods) : types' = types := by
  rw [← Check.lookup_methods] at h h'
  rw [h] at h'
  exact (Option.some.inj h').symm

theorem ne_bool_of_mem_methods {m : Value} {types : List Kind} (h : (m, types) ∈ Check.methods)
    {t : Kind} (ht : t ∈ types) : t ≠ .bool := by
  have hall : ∀ entry ∈ Check.methods, ∀ t ∈ entry.2, t ≠ .bool := by decide
  exact hall _ h t ht

theorem suits_boolValue {t : Kind} (h : Kind.Suits .boolValue t) : t = .boolValue ∨ t = .bool := by
  cases h with
  | same => exact .inl rfl
  | number hk => exact absurd hk not_numeric_boolValue
  | truth => exact .inr rfl

theorem ne_boolValue_of_mem {t : Kind} (h : t ∈ [Kind.int, .float, .bool, .color]) :
    t ≠ .boolValue := by
  rintro rfl
  simp at h

section

variable {b : Value} {role : Role} {before before' : List Step}

theorem hasType_variable (hw : Wider b before before') {k : Kind} :
    HasType (context before') (.variable b) k ↔ k = .bool := by
  constructor
  · intro h
    cases h with
    | name hx => exact Option.some.inj ((hw.holds _).mp hx)
  · rintro rfl
    exact .name ((hw.holds _).mpr rfl)

theorem sound_declares {type : Option Kind} {x : Value} {e e' : Node} (hw : Wider b before before')
    (hs : Swaps b .value role e e') (ht : (Step.declares type x e).Typed)
    (h : (Step.declares type x e).Sound before) : (Step.declares type x e').Sound before' ↔
      role = .operand ∨ role = .value := by
  obtain ⟨k, t, rfl, he, hk⟩ := h
  obtain ⟨t, htype, heq⟩ := ht
  obtain rfl := Option.some.inj heq
  have hb := List.mem_append_left [(x, some t)] ((hw.holds _).mpr rfl)
  obtain ⟨hrole, rfl, rfl⟩ | ⟨hrole, he'⟩ := hs.hasType (hw.with_entry _) hb he
  · obtain rfl := (suits_boolValue hk).resolve_left (ne_boolValue_of_mem htype)
    exact iff_of_true ⟨.bool, .bool, rfl, .name hb, .same _⟩ (.inr hrole)
  · exact iff_of_true ⟨k, t, rfl, he', hk⟩ (.inl hrole)

theorem sound_assigns {x : Value} {e e' : Node} (hw : Wider b before before')
    (hs : Swaps b .value role e e') (ht : ∀ step ∈ before, step.Typed)
    (h : (Step.assigns x e).Sound before) : (Step.assigns x e').Sound before' ↔
      role = .operand ∨ role = .value := by
  obtain ⟨k, t, hx, he, hk⟩ := h
  obtain ⟨t, htype, heq⟩ := typed_of_mem_context ht hx
  obtain rfl := Option.some.inj heq
  have hb := (hw.holds _).mpr rfl
  obtain ⟨hrole, rfl, rfl⟩ | ⟨hrole, he'⟩ := hs.hasType hw.context hb he
  · obtain rfl := (suits_boolValue hk).resolve_left (ne_boolValue_of_mem htype)
    exact iff_of_true ⟨.bool, .bool, hw.context hx, .name hb, .same _⟩ (.inr hrole)
  · exact iff_of_true ⟨k, t, hw.context hx, he', hk⟩ (.inl hrole)

/-- No method takes a variable of truth values where it takes a truth value. -/
theorem sound_calls {c m : Value} {pre post : List Node} {e e' : Node} (hw : Wider b before before')
    (hs : Swaps b .argument role e e') (h : (Step.calls c m (pre ++ e :: post)).Sound before) :
    (Step.calls c m (pre ++ e' :: post)).Sound before' ↔ role = .operand ∨ role = .value := by
  obtain ⟨hc, types, hm, hall⟩ := h
  have hb := (hw.holds _).mpr rfl
  have hmono (e : Node) (t : Kind) (he : ∃ k, HasType (context before) e k ∧ k.Suits t) :
      ∃ k, HasType (context before') e k ∧ k.Suits t :=
    he.imp fun _ h => ⟨h.1.mono hw.context, h.2⟩
  obtain ⟨t, ht, ⟨k, he, hk⟩, hiff⟩ := forall₂_replace hmono hall e'
  have hsound : (Step.calls c m (pre ++ e' :: post)).Sound before' ↔
      ∃ k, HasType (context before') e' k ∧ k.Suits t := by
    rw [← hiff]
    constructor
    · rintro ⟨-, types', hm', hall'⟩
      rwa [methods_unique hm hm'] at hall'
    · intro hall'
      exact ⟨hw.cursors hc, types, hm, hall'⟩
  rw [hsound]
  obtain ⟨rfl, rfl, rfl⟩ | ⟨hrole, he'⟩ := hs.hasType hw.context hb he
  · obtain rfl := (suits_boolValue hk).resolve_right (ne_bool_of_mem_methods hm ht)
    refine iff_of_false ?_ (by decide)
    rintro ⟨k, hvar, hsuits⟩
    obtain rfl := (hasType_variable hw).mp hvar
    cases hsuits
  · exact iff_of_true ⟨k, he', hk⟩ (.inl hrole)

/-- The changed step is sound exactly when the truth value is compared or given to a variable. -/
theorem sound_replaced {step step' : Step} (hw : Wider b before before')
    (hs : StepSwaps b role step step') (hrole : role ≠ .condition)
    (ht : ∀ step ∈ before, step.Typed) (ht' : step.Typed) (h : step.Sound before) :
    step'.Sound before' ↔ role = .operand ∨ role = .value := by
  have hb := (hw.holds _).mpr rfl
  cases hs with
  | declares hs => exact sound_declares hw hs ht' h
  | assigns hs => exact sound_assigns hw hs ht h
  | across hs =>
    obtain ⟨k, l, hx, hk, hy, hl⟩ := h
    obtain ⟨-, rfl, -⟩ | ⟨hr, hx'⟩ := hs.hasType hw.context hb hx
    · exact absurd hk not_numeric_boolValue
    · exact iff_of_true ⟨k, l, hx', hk, hy.mono hw.context, hl⟩ (.inl hr)
  | down hs =>
    obtain ⟨k, l, hx, hk, hy, hl⟩ := h
    obtain ⟨-, rfl, -⟩ | ⟨hr, hy'⟩ := hs.hasType hw.context hb hy
    · exact absurd hl not_numeric_boolValue
    · exact iff_of_true ⟨k, l, hx.mono hw.context, hk, hy', hl⟩ (.inl hr)
  | calls hs => exact sound_calls hw hs h
  | tests hs =>
    obtain ⟨hr, -, -⟩ | ⟨hr, he'⟩ := hs.hasType hw.context hb h
    · exact absurd hr hrole
    · exact iff_of_true he' (.inl hr)

end

/-! ## Whole programs -/

namespace StepSwaps

variable {b : Value} {role : Role} {step step' : Step}

theorem entry?_eq (h : StepSwaps b role step step') : step'.entry? = step.entry? := by
  cases h <;> rfl

theorem cursor?_eq (h : StepSwaps b role step step') : step'.cursor? = step.cursor? := by
  cases h <;> rfl

theorem name?_eq (h : StepSwaps b role step step') : step'.name? = step.name? := by
  cases h <;> rfl

end StepSwaps

/-- The step that declares `b` as a variable of truth values. -/
def declaring (b : Value) : Step := .declares (some .bool) b (.truth "true")

section

variable {b : Value} {role : Role} {xs ys : List Step}

theorem DifferAt.context_eq (h : DifferAt b role xs ys) : context ys = context xs := by
  obtain ⟨before, step, step', after, hs, rfl, rfl⟩ := h
  rw [context_append, context_append, context, context, context, List.filterMap_cons,
    List.filterMap_cons, hs.entry?_eq]

theorem wider_declaring (b : Value) : Wider b [] [declaring b] where
  context := List.nil_subset _
  cursors := List.nil_subset _
  names x hx := .inl (List.mem_singleton.mp hx)
  holds type := by simp [Step.context, declaring, entry?]

theorem Wider.append {before before' steps : List Step} (h : Wider b before before')
    (hb : b ∉ Step.names steps) : Wider b (before ++ steps) (before' ++ steps) := by
  induction steps generalizing before before' with
  | nil => simpa using h
  | cons step steps ih =>
    obtain ⟨hname, hrest⟩ := not_mem_names_cons hb
    rw [List.append_cons before, List.append_cons before']
    exact ih (h.concat rfl rfl rfl hname) hrest

/-- Declaring `b` first and then doing the changed steps is in order exactly when the changed step
is sound. -/
theorem follows_replaced (h : DifferAt b role xs ys) (hrole : role ≠ .condition)
    (ht : ∀ step ∈ xs, step.Typed) (hb : b ∉ names xs) (hf : Follows [] xs) :
    Follows [] (declaring b :: ys) ↔ role = .operand ∨ role = .value := by
  obtain ⟨before, step, step', after, hs, rfl, rfl⟩ := h
  rw [names_append, List.mem_append, not_or] at hb
  obtain ⟨hname, hafter⟩ := not_mem_names_cons hb.2
  rw [List.forall_mem_append, List.forall_mem_cons] at ht
  obtain ⟨hbefore, hfresh, hsound, hrest⟩ := follows_append.mp hf
  have hw : Wider b before ([declaring b] ++ before) := (wider_declaring b).append hb.1
  have hchanged := sound_replaced hw hs hrole ht.1 ht.2.1 hsound
  rw [← List.singleton_append, follows_append, follows_append, ← hchanged]
  constructor
  · exact fun h => h.2.2.2.1
  · intro hsound'
    have hfirst : Follows [] [declaring b] :=
      follows_singleton.mpr ⟨by simp [Fresh, names], .boolValue, .bool, rfl, .truth _, .truth⟩
    have hfresh' : step'.Fresh ([declaring b] ++ before) := by
      intro x hx
      exact hw.fresh hname hfresh x (hs.name?_eq ▸ hx)
    have hwider := hw.concat hs.entry?_eq hs.cursor?_eq hs.name?_eq hname
    exact ⟨hfirst, (wider_declaring b).follows hb.1 hbefore, hfresh', hsound',
      hwider.follows hafter hrest⟩

end

/-- A program with a further statement in front. -/
def Node.prepend : Node → Node → Node
  | .program statements, first => .program (first :: statements)
  | tree, _ => tree

theorem typed_of_isStatement {ns : List Node} (h : ∀ n ∈ ns, n.IsStatement .any) :
    ∀ step ∈ (Node.program ns).steps, step.Typed :=
  (Check.walks_all fun n hn => Check.walks_of_isStatement (h n hn)).typed

/-- In an accepted program, put a new variable of truth values in the place of one literal that is
not itself a condition. The program is accepted again if the literal is compared or given to a
variable, and refused if it is an argument. -/
theorem check_replaced_iff {tokens : List Token} {tree tree' : Node} {b : Value} {role : Role}
    (h : Node.ofTokens tokens = .ok tree) (haccepted : tree.check = .ok ())
    (hb : b ∉ names tree.steps) (hr : Replaces b role tree tree') (hrole : role ≠ .condition) :
    (tree'.prepend (.varDecl (some .bool) b (.truth "true"))).check = .ok () ↔
      role = .operand ∨ role = .value := by
  obtain ⟨ns, rfl, hns⟩ := isStatement_of_ofTokens h
  have hd := differAt_of_replaces hr
  obtain ⟨hdistinct, hwidth, hheight, hsound⟩ := (check_program_iff_wellFormed hns).mp haccepted
  have hfollows := follows_replaced hd hrole (typed_of_isStatement hns) hb
    (follows_nil_iff.mpr ⟨hdistinct, hsound⟩)
  have hwindow : ¬NameRule.IsWindow b := by
    have hmem {x : Value} (hx : x ∈ (context (Node.program ns).steps).map Prod.fst) :
        x ∈ names (Node.program ns).steps := mem_names.mpr (.inl hx)
    rintro (rfl | rfl)
    · exact hb (hmem hwidth)
    · exact hb (hmem hheight)
  cases hr with
  | @program pre post n n' hn =>
    have hcommands : ∀ m ∈ Node.varDecl (some .bool) b (.truth "true") :: (pre ++ n' :: post),
        m.IsStatement .any := by
      rw [List.forall_mem_cons]
      refine ⟨.declaration (.intro (by decide) trivial (fun hx => absurd hx hwindow)
        (.truth trivial)), ?_⟩
      exact forall_mem_replace hns hn.isStatement
    rw [Node.prepend, check_program_iff_wellFormed hcommands, ← hfollows]
    constructor
    · intro hwf
      exact follows_nil_iff.mpr ⟨hwf.distinct, hwf.sound⟩
    · intro hf
      obtain ⟨hdistinct', hsound'⟩ := follows_nil_iff.mp hf
      rw [← hd.context_eq] at hwidth hheight
      exact ⟨hdistinct', List.mem_cons_of_mem _ hwidth, List.mem_cons_of_mem _ hheight, hsound'⟩

/-- A program with a loop that compares a variable with a truth value and draws a circle. -/
def circleTree (compared filled : Node) : Node :=
  .program [.varDecl (some .int) "windowWidth" (.number (.int 400)),
    .varDecl (some .int) "windowHeight" (.number (.int 400)),
    .varDecl (some .bool) "on" (.truth "true"),
    .cursorCreation "c" (.number (.int 1)) (.number (.int 2)),
    .whileLoop (.binary (.variable "on") .equal compared)
      [.drawCommand "c" "draw_circle" [.number (.int 5), filled]]]

def circleWords : List (List (Kind × Value)) :=
  [[(.var, "var"), (.int, "int"), (.identifier, "windowWidth"), (.assign, "="),
      (.number, .int 400), (.semicolon, ";")],
    [(.var, "var"), (.int, "int"), (.identifier, "windowHeight"), (.assign, "="),
      (.number, .int 400), (.semicolon, ";")],
    [(.var, "var"), (.bool, "bool"), (.identifier, "on"), (.assign, "="),
      (.boolValue, "true"), (.semicolon, ";")],
    [(.cursor, "cursor"), (.identifier, "c"), (.assign, "="), (.createCursor, "create_cursor"),
      (.leftParen, "("), (.number, .int 1), (.comma, ","), (.number, .int 2),
      (.rightParen, ")"), (.semicolon, ";")],
    [(.whileWord, "while"), (.leftParen, "("), (.identifier, "on"), (.equal, "=="),
      (.boolValue, "true"), (.rightParen, ")"), (.leftBrace, "\x7b")],
    [(.identifier, "c"), (.dot, "."), (.drawCircle, "draw_circle"), (.leftParen, "("),
      (.number, .int 5), (.comma, ","), (.boolValue, "false"), (.rightParen, ")"),
      (.semicolon, ";")],
    [(.rightBrace, "\x7d"), (.semicolon, ";")],
    [(.endOfInput, .absent)]]

def circleTokens : List Token := circleWords.flatten.map fun e => ⟨e.1, e.2, 1, 1⟩

theorem replaces_circle_filled :
    Replaces "b" .argument (circleTree (.truth "true") (.truth "false"))
    (circleTree (.truth "true") (.variable "b")) := by
  apply @Replaces.program _ _ [_, _, _, _] []
  apply @Replaces.whileBody _ _ _ _ _ [] []
  apply @Replaces.drawing _ _ _ _ [_] []
  exact .here .argument "false"

theorem check_replaced_iff_circle :
    Node.ofTokens circleTokens = .ok (circleTree (.truth "true") (.truth "false")) ∧
    (circleTree (.truth "true") (.truth "false")).check = .ok () ∧
    .text "b" ∉ names (circleTree (.truth "true") (.truth "false")).steps ∧
    ((circleTree (.variable "b") (.truth "false")).prepend
      (.varDecl (some .bool) "b" (.truth "true"))).check = .ok () ∧
    ¬((circleTree (.truth "true") (.variable "b")).prepend
      (.varDecl (some .bool) "b" (.truth "true"))).check = .ok () := by
  have h : Node.ofTokens circleTokens = .ok (circleTree (.truth "true") (.truth "false")) := rfl
  have hc : (circleTree (.truth "true") (.truth "false")).check = .ok () := by decide
  have hb : .text "b" ∉ names (circleTree (.truth "true") (.truth "false")).steps := by decide
  have hr : Replaces "b" .operand (circleTree (.truth "true") (.truth "false"))
      (circleTree (.variable "b") (.truth "false")) := by
    apply @Replaces.program _ _ [_, _, _, _] []
    exact .whileTest (.right (.here .operand "true"))
  refine ⟨h, hc, hb, (check_replaced_iff h hc hb hr (by decide)).mpr (.inl rfl), ?_⟩
  rw [check_replaced_iff h hc hb replaces_circle_filled (by decide)]
  decide

/-- A truth value that says whether a shape is filled cannot be replaced by a variable. -/
theorem circle_refuses_variable : ∃ tokens tree tree', Node.ofTokens tokens = .ok tree ∧
    tree.check = .ok () ∧ .text "b" ∉ names tree.steps ∧ Replaces "b" .argument tree tree' ∧
    (tree'.prepend (.varDecl (some .bool) "b" (.truth "true"))).check =
      .error (.shapeArgument "draw_circle") :=
  ⟨circleTokens, _, _, rfl, by decide, by decide, replaces_circle_filled, by decide⟩

end DrawPlus
