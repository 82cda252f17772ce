import DrawPlus.Proofs.Scope.Growth

/-!
# The check and the choice of names

The check compares names and does nothing else with them. So it does not matter what the names are,
as long as different names stay different, and nothing matters of a scope but what it holds of the
names that occur in the tree. Both are one fact about two runs of the check (`parallel_node`): the
first on a tree, the second on the same tree with its names replaced, in scopes that hold the same
of the names and of their replacements.

`Node.rename` replaces names of variables and cursors. The names of methods, shapes and colours are
words of the language and stay.
-/

namespace DrawPlus

/-! ## Names in trees -/

namespace Node

/-- The name that a node mentions itself, if it mentions one. -/
def ownName? : Node → Option Value
  | .varDecl _ name _ | .assign name _ | .cursorCreation name _ _ | .cursorMethod name _ _
  | .drawCommand name _ _ | .variable name => some name
  | _ => none

def occurring (n : Node) : List Value := n.preorder.filterMap ownName?

/-- The names that a tree declares, of variables and of cursors. -/
def declaring (n : Node) : List Value :=
  (n.preorder.filterMap entry?).map Prod.fst ++ n.preorder.filterMap cursor?

theorem preorder_subset_of_child {n m : Node} {p : Place} (h : (p, m) ∈ n.children) :
    m.preorder ⊆ n.preorder := by
  intro k hk
  rw [preorder_eq n]
  exact List.mem_cons_of_mem _ (List.mem_flatMap.mpr ⟨(p, m), h, hk⟩)

theorem mem_occurring_of_child {n m : Node} {p : Place} (h : (p, m) ∈ n.children) {x : Value}
    (hx : x ∈ m.occurring) : x ∈ n.occurring := by
  obtain ⟨k, hk, hname⟩ := List.mem_filterMap.mp hx
  exact List.mem_filterMap.mpr ⟨k, preorder_subset_of_child h hk, hname⟩

theorem mem_occurring_of_ownName? {n : Node} {x : Value} (h : n.ownName? = some x) :
    x ∈ n.occurring := by
  refine List.mem_filterMap.mpr ⟨n, ?_, h⟩
  rw [preorder_eq]
  exact List.mem_cons_self

theorem mem_occurring_of_mem_declaring {n : Node} {x : Value} (h : x ∈ n.declaring) :
    x ∈ n.occurring := by
  rcases List.mem_append.mp h with h | h
  · obtain ⟨⟨_, type⟩, hentry, rfl⟩ := List.mem_map.mp h
    obtain ⟨m, hm, heq⟩ := List.mem_filterMap.mp hentry
    refine List.mem_filterMap.mpr ⟨m, hm, ?_⟩
    cases m <;> cases heq
    rfl
  · obtain ⟨m, hm, heq⟩ := List.mem_filterMap.mp h
    refine List.mem_filterMap.mpr ⟨m, hm, ?_⟩
    cases m <;> cases heq
    rfl

mutual

def rename (ρ : Value → Value) : Node → Node
  | .program statements => .program (renameAll ρ statements)
  | .varDecl type name init => .varDecl type (ρ name) (init.rename ρ)
  | .assign name value => .assign (ρ name) (value.rename ρ)
  | .cursorCreation name x y => .cursorCreation (ρ name) (x.rename ρ) (y.rename ρ)
  | .cursorMethod cursor method given => .cursorMethod (ρ cursor) method (renameAll ρ given)
  | .drawCommand cursor shape given => .drawCommand (ρ cursor) shape (renameAll ρ given)
  | .branch condition body alternatives otherwise =>
    .branch (condition.rename ρ) (renameAll ρ body) (renameArms ρ alternatives)
      (match otherwise with
      | some block => some (renameAll ρ block)
      | none => none)
  | .whileLoop condition body => .whileLoop (condition.rename ρ) (renameAll ρ body)
  | .forLoop init condition update body =>
    .forLoop (init.rename ρ) (condition.rename ρ) (update.rename ρ) (renameAll ρ body)
  | .binary left operator right => .binary (left.rename ρ) operator (right.rename ρ)
  | .color name parts =>
    .color name
      (match parts with
      | some values => some (renameAll ρ values)
      | none => none)
  | .variable name => .variable (ρ name)
  | .absent => .absent
  | .bare => .bare
  | .number value => .number value
  | .text value => .text value
  | .truth value => .truth value

def renameAll (ρ : Value → Value) : List Node → List Node
  | [] => []
  | first :: rest => first.rename ρ :: renameAll ρ rest

/-- The further conditions of a branch and their statements with their names replaced. -/
def renameArms (ρ : Value → Value) : List (Node × List Node) → List (Node × List Node)
  | [] => []
  | (condition, body) :: rest => (condition.rename ρ, renameAll ρ body) :: renameArms ρ rest

end

section

variable (ρ : Value → Value)

theorem rename_program (ns : List Node) : (program ns).rename ρ = .program (renameAll ρ ns) := rfl

theorem rename_varDecl (type : Option Kind) (name : Value) (init : Node) :
    (varDecl type name init).rename ρ = .varDecl type (ρ name) (init.rename ρ) := rfl

theorem rename_assign (name : Value) (value : Node) :
    (assign name value).rename ρ = .assign (ρ name) (value.rename ρ) := rfl

theorem rename_cursorCreation (name : Value) (x y : Node) : (cursorCreation name x y).rename ρ =
    .cursorCreation (ρ name) (x.rename ρ) (y.rename ρ) := rfl

theorem rename_cursorMethod (cursor method : Value) (given : List Node) :
    (cursorMethod cursor method given).rename ρ =
      .cursorMethod (ρ cursor) method (renameAll ρ given) := rfl

theorem rename_drawCommand (cursor shape : Value) (given : List Node) :
    (drawCommand cursor shape given).rename ρ =
      .drawCommand (ρ cursor) shape (renameAll ρ given) := rfl

theorem rename_whileLoop (test : Node) (body : List Node) :
    (whileLoop test body).rename ρ = .whileLoop (test.rename ρ) (renameAll ρ body) := rfl

theorem rename_forLoop (init test update : Node) (body : List Node) :
    (forLoop init test update body).rename ρ =
      .forLoop (init.rename ρ) (test.rename ρ) (update.rename ρ) (renameAll ρ body) := rfl

theorem rename_binary (left : Node) (operator : Kind) (right : Node) :
    (binary left operator right).rename ρ = .binary (left.rename ρ) operator (right.rename ρ) := rfl

theorem rename_variable (name : Value) : (Node.variable name).rename ρ = .variable (ρ name) := rfl

theorem renameAll_nil : renameAll ρ [] = [] := rfl

theorem renameAll_cons (n : Node) (ns : List Node) :
    renameAll ρ (n :: ns) = n.rename ρ :: renameAll ρ ns := rfl

theorem renameArms_cons (test : Node) (body : List Node) (as : List (Node × List Node)) :
    renameArms ρ ((test, body) :: as) =
      (test.rename ρ, renameAll ρ body) :: renameArms ρ as := rfl

theorem rename_branch (test : Node) (body : List Node) (as : List (Node × List Node))
    (otherwise : Option (List Node)) : (Node.branch test body as otherwise).rename ρ =
      .branch (test.rename ρ) (renameAll ρ body) (renameArms ρ as)
        (otherwise.map (renameAll ρ)) := by
  cases otherwise <;> rfl

theorem rename_color (name : Value) (parts : Option (List Node)) :
    (Node.color name parts).rename ρ = .color name (parts.map (renameAll ρ)) := by
  cases parts <;> rfl

theorem rename_ne_absent {n : Node} (h : n ≠ .absent) : n.rename ρ ≠ .absent := by
  intro heq
  cases n with
  | absent => exact h rfl
  | branch => rw [rename_branch] at heq; cases heq
  | color => rw [rename_color] at heq; cases heq
  | _ => cases heq

theorem renameAll_length (ns : List Node) : (renameAll ρ ns).length = ns.length := by
  induction ns with
  | nil => rfl
  | cons n ns ih => rw [renameAll_cons, List.length_cons, ih, List.length_cons]

end

mutual

theorem rename_id : ∀ n : Node, n.rename id = n
  | .absent | .bare | .number _ | .text _ | .truth _ | .variable _ => rfl
  | .program ns => by rw [rename_program, renameAll_id ns]
  | .varDecl _ _ init => by rw [rename_varDecl, rename_id init, id]
  | .assign _ value => by rw [rename_assign, rename_id value, id]
  | .cursorCreation _ x y => by rw [rename_cursorCreation, rename_id x, rename_id y, id]
  | .cursorMethod _ _ given => by rw [rename_cursorMethod, renameAll_id given, id]
  | .drawCommand _ _ given => by rw [rename_drawCommand, renameAll_id given, id]
  | .branch test body as none => by
    rw [rename_branch, rename_id test, renameAll_id body, renameArms_id as, Option.map_none]
  | .branch test body as (some block) => by
    rw [rename_branch, rename_id test, renameAll_id body, renameArms_id as, Option.map_some,
      renameAll_id block]
  | .whileLoop test body => by rw [rename_whileLoop, rename_id test, renameAll_id body]
  | .forLoop init test update body => by
    rw [rename_forLoop, rename_id init, rename_id test, rename_id update, renameAll_id body]
  | .binary left _ right => by rw [rename_binary, rename_id left, rename_id right]
  | .color _ none => rfl
  | .color _ (some parts) => by rw [rename_color, Option.map_some, renameAll_id parts]

theorem renameAll_id : ∀ ns : List Node, renameAll id ns = ns
  | [] => rfl
  | n :: ns => by rw [renameAll_cons, rename_id n, renameAll_id ns]

theorem renameArms_id : ∀ as : List (Node × List Node), renameArms id as = as
  | [] => rfl
  | (test, body) :: as => by
    rw [renameArms_cons, rename_id test, renameAll_id body, renameArms_id as]

end

end Node

def ScopeError.rename (ρ : Value → Value) : ScopeError → ScopeError
  | .nameTaken name => .nameTaken (ρ name)
  | .variableTaken name => .variableTaken (ρ name)
  | .undeclared name => .undeclared (ρ name)
  | .initializer name => .initializer (ρ name)
  | .assignment name => .assignment (ρ name)
  | .notCursor name => .notCursor (ρ name)
  | e => e

/-! ## Scopes -/

namespace Scope

/-- What a scope holds of a name: its entry as a variable, and whether it is a cursor. -/
def entry (s : Scope) (x : Value) : Option (Option Kind) × Bool :=
  (s.declared.lookup x, s.isCursor x)

section

variable {s t : Scope} {x y : Value}

theorem hasVariable_eq (s : Scope) (x : Value) :
    s.hasVariable x = (s.declared.lookup x).isSome := by
  unfold hasVariable
  induction s.declared with
  | nil => rfl
  | cons first rest ih =>
    by_cases h : first.1 = x
    · subst h
      simp
    · rw [List.any_cons, ih, List.lookup_cons, beq_false_of_ne h, beq_false_of_ne (Ne.symm h)]
      rfl

theorem typeOf?_congr (h : t.entry y = s.entry x) : t.typeOf? y = s.typeOf? x :=
  congrArg (fun e => e.1.join) h

theorem readable?_congr (h : t.entry y = s.entry x) : t.readable? y = s.readable? x := by
  rw [readable?, readable?, typeOf?_congr h]

theorem isCursor_congr (h : t.entry y = s.entry x) : t.isCursor y = s.isCursor x :=
  congrArg Prod.snd h

theorem isFree_congr (h : t.entry y = s.entry x) : t.isFree y = s.isFree x := by
  have hvariable : t.hasVariable y = s.hasVariable x := by
    rw [hasVariable_eq, hasVariable_eq]
    exact congrArg (fun e => e.1.isSome) h
  rw [isFree, isFree, hvariable, isCursor_congr h]

end

/-- The second scope holds of the replacements of these names what the first holds of the names. -/
def Corresponds (ρ : Value → Value) (N : Set Value) (s t : Scope) : Prop :=
  ∀ x ∈ N, t.entry (ρ x) = s.entry x

section

variable {ρ : Value → Value} {N : Set Value} {s t : Scope} {x : Value}

theorem beq_of_injOn (hρ : N.InjOn ρ) {x y : Value} (hx : x ∈ N) (hy : y ∈ N) :
    (ρ x == ρ y) = (x == y) := by
  rw [Bool.eq_iff_iff, beq_iff_eq, beq_iff_eq]
  exact hρ.eq_iff hx hy

theorem Corresponds.declare (hρ : N.InjOn ρ) (h : Corresponds ρ N s t) (hx : x ∈ N)
    (type : Option Kind) : Corresponds ρ N { s with declared := s.declared ++ [(x, type)] }
      { t with declared := t.declared ++ [(ρ x, type)] } := by
  intro y hy
  have hnew : [(ρ x, type)].lookup (ρ y) = [(x, type)].lookup y := by
    rw [List.lookup_cons, List.lookup_cons, beq_of_injOn hρ hy hx]
    rfl
  have hold := h y hy
  simp only [entry, isCursor, Prod.mk.injEq] at hold ⊢
  rw [List.lookup_append, List.lookup_append, hold.1, hnew]
  exact ⟨rfl, hold.2⟩

theorem Corresponds.create (hρ : N.InjOn ρ) (h : Corresponds ρ N s t) (hx : x ∈ N) :
    Corresponds ρ N { s with cursors := s.cursors ++ [x] }
      { t with cursors := t.cursors ++ [ρ x] } := by
  intro y hy
  have hnew : [ρ x].contains (ρ y) = [x].contains y := by
    rw [List.contains_cons, List.contains_cons, beq_of_injOn hρ hy hx]
    rfl
  have hold := h y hy
  simp only [entry, isCursor, Prod.mk.injEq] at hold ⊢
  rw [List.contains_append, List.contains_append, hold.2, hnew]
  exact ⟨hold.1, rfl⟩

end

end Scope

/-! ## Two runs of the check -/

namespace Check

open Node Scope

section

variable (ρ : Value → Value) (N : Set Value)

/-- The two runs end alike: they give the same result, or they fail with errors that differ in the
names alone, and the scopes that they leave correspond. -/
inductive EndAlike {α : Type} (x y : Check α) (s t : Scope) : Prop
  | ok {a : α} {s' t' : Scope} : x s = .ok a s' → y t = .ok a t' → Corresponds ρ N s' t' →
      EndAlike x y s t
  | error {e : ScopeError} {s' t' : Scope} : x s = .error e s' → y t = .error (e.rename ρ) t' →
      Corresponds ρ N s' t' → EndAlike x y s t

/-- On scopes that correspond, the two actions end alike. -/
def Parallel {α : Type} (x y : Check α) : Prop :=
  ∀ s t : Scope, Corresponds ρ N s t → EndAlike ρ N x y s t

end

section

variable {ρ : Value → Value} {N : Set Value} {α β : Type} {x y x' y' : Check α}

theorem Parallel.bind {f g : α → Check β} (hx : Parallel ρ N x y)
    (hf : ∀ a, Parallel ρ N (f a) (g a)) : Parallel ρ N (x >>= f) (y >>= g) := by
  intro s t h
  cases hx s t h with
  | @ok a s' t' hxs hyt h' =>
    cases hf a s' t' h' with
    | ok hfs hgt h'' => exact .ok ((bind_of_ok hxs).trans hfs) ((bind_of_ok hyt).trans hgt) h''
    | error hfs hgt h'' =>
      exact .error ((bind_of_ok hxs).trans hfs) ((bind_of_ok hyt).trans hgt) h''
  | error hxs hyt h' => exact .error (bind_of_error hxs) (bind_of_error hyt) h'

theorem parallel_pure (a : α) : Parallel ρ N (pure a : Check α) (pure a) :=
  fun _ _ h => .ok rfl rfl h

theorem parallel_throw (e : ScopeError) :
    Parallel ρ N (throw e : Check α) (throw (e.rename ρ)) :=
  fun _ _ h => .error rfl rfl h

theorem parallel_ite {p : Prop} [Decidable p] (hx : Parallel ρ N x x')
    (hy : Parallel ρ N y y') : Parallel ρ N (if p then x else y) (if p then x' else y') := by
  split_ifs
  · exact hx
  · exact hy

theorem parallel_requireTruth (guard : Guard) (type : Option Kind) :
    Parallel ρ N (requireTruth guard type) (requireTruth guard type) :=
  parallel_ite (parallel_pure ()) (parallel_throw _)

/-- The errors of operations speak of types alone. -/
theorem rename_of_operationType {operator : Kind} {left right : Option Kind} {e : ScopeError}
    (h : operationType operator left right = .error e) : e.rename ρ = e := by
  unfold operationType at h
  split_ifs at h <;> cases h <;> rfl

theorem parallel_operationType (operator : Kind) (left right : Option Kind) :
    Parallel ρ N (ofExcept (operationType operator left right))
      (ofExcept (operationType operator left right)) := by
  intro s t h
  cases htype : operationType operator left right with
  | ok type => exact .ok rfl rfl h
  | error e =>
    have hfixed := rename_of_operationType (ρ := ρ) htype
    exact .error rfl (by rw [hfixed]; rfl) h

end

/-! ## Actions on a scope -/

section

variable {ρ : Value → Value} {N : Set Value} {name : Value}

theorem parallel_readVariable (hname : name ∈ N) :
    Parallel ρ N (readVariable name) (readVariable (ρ name)) := by
  intro s t h
  have hread := readable?_congr (h name hname)
  unfold readVariable
  cases hs : s.readable? name with
  | some type => exact .ok (by rw [hs]) (by rw [hread, hs]) h
  | none => exact .error (by rw [hs]) (by rw [hread, hs]; rfl) h

theorem parallel_signature (hname : name ∈ N) (method : Value) :
    Parallel ρ N (signature name method) (signature (ρ name) method) := by
  intro s t h
  have hcursor := isCursor_congr (h name hname)
  unfold signature
  cases hs : s.isCursor name with
  | false =>
    refine .error (if_neg ?_) (if_neg ?_) h
    · simp [hs]
    · simp [hcursor, hs]
  | true =>
    have hl : (s.isCursor name) = true := hs
    rw [← hcursor] at hl
    cases hm : methods.lookup method with
    | none =>
      exact .error (e := .unknownMethod method) (by rw [if_pos hs]) (by rw [if_pos hl]; rfl) h
    | some types => exact .ok (by rw [if_pos hs]) (by rw [if_pos hl]) h

/-- A declaration of a name fails if the name is taken. What it adds to the scopes is left open. -/
theorem parallel_declare (hname : name ∈ N) {f g : Scope → Scope}
    (hadd : ∀ s t, Corresponds ρ N s t → Corresponds ρ N (f s) (g t)) :
    Parallel ρ N (declare fun s => if s.isFree name then .ok (f s) else .error (.nameTaken name))
      (declare fun t =>
        if t.isFree (ρ name) then .ok (g t) else .error (.nameTaken (ρ name))) := by
  intro s t h
  have hfree := isFree_congr (h name hname)
  unfold declare
  cases hs : s.isFree name with
  | false =>
    rw [hs] at hfree
    exact .error (by simp only [hs]; rfl) (by simp only [hfree]; rfl) h
  | true =>
    rw [hs] at hfree
    exact .ok (by simp only [hs]; rfl) (by simp only [hfree]; rfl) (hadd s t h)

theorem parallel_define (hρ : N.InjOn ρ) (hname : name ∈ N) (type : Option Kind) :
    Parallel ρ N (declare (·.define name type)) (declare (·.define (ρ name) type)) :=
  parallel_declare hname fun _ _ h => h.declare hρ hname type

theorem parallel_defineCursor (hρ : N.InjOn ρ) (hname : name ∈ N) :
    Parallel ρ N (declare (·.defineCursor name)) (declare (·.defineCursor (ρ name))) :=
  parallel_declare hname fun _ _ h => h.create hρ hname

theorem parallel_declareVariable (hρ : N.InjOn ρ) (hname : name ∈ N) (type : Option Kind) :
    Parallel ρ N (declareVariable name type) (declareVariable (ρ name) type) := by
  intro s t h
  have hread := readable?_congr (h name hname)
  by_cases hs : (s.readable? name).isSome = true
  · have ht := hs
    rw [← hread] at ht
    exact .error (if_pos hs) (if_pos ht) h
  · have ht := hs
    rw [← hread] at ht
    cases parallel_define hρ hname type s t h with
    | ok hx hy h' => exact .ok ((if_neg hs).trans hx) ((if_neg ht).trans hy) h'
    | error hx hy h' => exact .error ((if_neg hs).trans hx) ((if_neg ht).trans hy) h'

/-- The names that size the window must be among those considered, and stay. -/
theorem parallel_windowDimensions
    (hwindow : ∀ x : Value, NameRule.IsWindow x → x ∈ N ∧ ρ x = x) :
    Parallel ρ N windowDimensions windowDimensions := by
  intro s t h
  have htype {x : Value} (hx : NameRule.IsWindow x) : t.typeOf? x = s.typeOf? x := by
    have hentry := h x (hwindow x hx).1
    rw [(hwindow x hx).2] at hentry
    exact typeOf?_congr hentry
  have hundeclared {x : Value} (hx : NameRule.IsWindow x) :
      (ScopeError.undeclared x).rename ρ = .undeclared x :=
    congrArg ScopeError.undeclared (hwindow x hx).2
  by_cases hw : (s.typeOf? "windowWidth").isNone = true
  · have hw' := hw
    rw [← htype (.inl rfl)] at hw'
    exact .error (if_pos hw) (by rw [hundeclared (.inl rfl)]; exact if_pos hw') h
  have hw' := hw
  rw [← htype (.inl rfl)] at hw'
  by_cases hh : (s.typeOf? "windowHeight").isNone = true
  · have hh' := hh
    rw [← htype (.inr rfl)] at hh'
    refine .error ((if_neg hw).trans (if_pos hh)) ?_ h
    rw [hundeclared (.inr rfl)]
    exact (if_neg hw').trans (if_pos hh')
  · have hh' := hh
    rw [← htype (.inr rfl)] at hh'
    exact .ok ((if_neg hw).trans (if_neg hh)) ((if_neg hw').trans (if_neg hh')) h

end

/-! ## Nodes -/

section

variable {ρ : Value → Value} {N : Set Value}

theorem parallel_all {ns : List Node} (h : ∀ n ∈ ns, Parallel ρ N (node n) (node (n.rename ρ))) :
    Parallel ρ N (all ns) (all (renameAll ρ ns)) := by
  induction ns with
  | nil => exact parallel_pure ()
  | cons n ns ih =>
    rw [List.forall_mem_cons] at h
    exact h.1.bind fun _ => ih h.2

theorem parallel_test (guard : Guard) {n : Node} (h : Parallel ρ N (node n) (node (n.rename ρ))) :
    Parallel ρ N (do requireTruth guard (← node n)) (do requireTruth guard (← node (n.rename ρ))) :=
  h.bind fun _ => parallel_requireTruth _ _

theorem parallel_arms {as : List (Node × List Node)}
    (h : ∀ arm ∈ as, ∀ n ∈ arm.1 :: arm.2, Parallel ρ N (node n) (node (n.rename ρ))) :
    Parallel ρ N (arms as) (arms (renameArms ρ as)) := by
  induction as with
  | nil => exact parallel_pure ()
  | cons arm as ih =>
    rw [List.forall_mem_cons, List.forall_mem_cons] at h
    have hbody := (parallel_all h.1.2).bind fun _ => ih h.2
    have harm := (parallel_test .alternative h.1.1).bind fun _ => hbody
    rw [bind_assoc, bind_assoc] at harm
    exact harm

theorem parallel_arguments {error : ScopeError} (herror : error.rename ρ = error) {ns : List Node}
    {types : List Kind} (h : ∀ n ∈ ns, Parallel ρ N (node n) (node (n.rename ρ))) :
    Parallel ρ N (arguments error ns types) (arguments error (renameAll ρ ns) types) := by
  induction ns generalizing types with
  | nil => exact parallel_pure ()
  | cons n ns ih =>
    cases types with
    | nil => exact parallel_pure ()
    | cons type types =>
      rw [List.forall_mem_cons] at h
      have hthrow := parallel_throw (ρ := ρ) (N := N) (α := Unit) error
      rw [herror] at hthrow
      exact h.1.bind fun _ => parallel_ite (ih h.2) hthrow

theorem parallel_components {ns : List Node}
    (h : ∀ n ∈ ns, Parallel ρ N (node n) (node (n.rename ρ))) :
    Parallel ρ N (components ns) (components (renameAll ρ ns)) := by
  induction ns with
  | nil => exact parallel_pure ()
  | cons n ns ih =>
    rw [List.forall_mem_cons] at h
    exact h.1.bind fun _ => parallel_ite (ih h.2) (parallel_throw _)

theorem parallel_calling {arity : ℕ → ScopeError} (harity : ∀ n, (arity n).rename ρ = arity n)
    {argument : ScopeError} (hargument : argument.rename ρ = argument) {cursor : Value}
    (hcursor : cursor ∈ N) (method : Value) {given : List Node}
    (h : ∀ n ∈ given, Parallel ρ N (node n) (node (n.rename ρ))) :
    Parallel ρ N (calling arity argument cursor method given)
      (calling arity argument (ρ cursor) method (renameAll ρ given)) := by
  apply (parallel_signature hcursor method).bind
  intro types
  have hthrow := parallel_throw (ρ := ρ) (N := N) (α := Option Kind) (arity types.length)
  rw [harity] at hthrow
  rw [renameAll_length]
  apply parallel_ite hthrow
  exact (parallel_arguments hargument h).bind fun _ => parallel_pure none

theorem parallel_varDecl (hρ : N.InjOn ρ) {name : Value} (hname : name ∈ N) (type : Option Kind)
    {init : Node} (h : Parallel ρ N (node init) (node (init.rename ρ))) :
    Parallel ρ N (node (.varDecl type name init))
      (node ((Node.varDecl type name init).rename ρ)) := by
  have hdeclare := parallel_declareVariable hρ hname type
  by_cases hinit : init = .absent
  · subst hinit
    exact hdeclare.bind fun _ => parallel_pure none
  · rw [rename_varDecl, node_varDecl_eq hinit, node_varDecl_eq (rename_ne_absent ρ hinit)]
    apply hdeclare.bind
    intro _
    apply h.bind
    intro k
    exact parallel_ite (parallel_pure none) (parallel_throw _)

theorem getD_map_renameAll (block : Option (List Node)) :
    (block.map (renameAll ρ)).getD [] = renameAll ρ (block.getD []) := by
  cases block <;> rfl

theorem parallel_branch {test : Node} {body : List Node} {as : List (Node × List Node)}
    {otherwise : Option (List Node)} (ht : Parallel ρ N (node test) (node (test.rename ρ)))
    (hb : ∀ n ∈ body, Parallel ρ N (node n) (node (n.rename ρ)))
    (ha : ∀ arm ∈ as, ∀ n ∈ arm.1 :: arm.2, Parallel ρ N (node n) (node (n.rename ρ)))
    (ho : ∀ n ∈ otherwise.getD [], Parallel ρ N (node n) (node (n.rename ρ))) :
    Parallel ρ N (node (.branch test body as otherwise))
      (node ((Node.branch test body as otherwise).rename ρ)) := by
  have hlast := (parallel_all ho).bind fun _ => parallel_pure (none : Option Kind)
  have harms := (parallel_arms ha).bind fun _ => hlast
  have hbody := (parallel_all hb).bind fun _ => harms
  have htest := (parallel_test .branch ht).bind fun _ => hbody
  rw [bind_assoc, bind_assoc] at htest
  rw [rename_branch, node_branch, node_branch, getD_map_renameAll]
  exact htest

theorem checked_rename_color (name : Value) (parts : Option (List Node)) :
    ((Node.color name parts).rename ρ).checked = renameAll ρ (Node.color name parts).checked := by
  rw [rename_color, checked, checked, getD_map_renameAll]
  split_ifs
  · rfl
  · rfl

/-- On scopes that hold the same of the names in a tree and of their replacements, the check of the
tree and the check of the tree with its names replaced end alike. -/
theorem parallel_node (hρ : N.InjOn ρ) (n : Node) (hn : ∀ x ∈ n.occurring, x ∈ N) :
    Parallel ρ N (node n) (node (n.rename ρ)) := by
  induction n using induction_children with
  | h n ih =>
    have hpart {p : Place} {m : Node} (hm : (p, m) ∈ n.children) :
        Parallel ρ N (node m) (node (m.rename ρ)) :=
      ih p m hm fun x hx => hn x (mem_occurring_of_child hm hx)
    have hchecked : ∀ m ∈ n.checked, Parallel ρ N (node m) (node (m.rename ρ)) := by
      intro m hm
      obtain ⟨p, hp⟩ := exists_child_of_mem_checked hm
      exact hpart hp
    have hown {x : Value} (hx : n.ownName? = some x) : x ∈ N :=
      hn x (mem_occurring_of_ownName? hx)
    cases n with
    | absent | bare | text => exact parallel_throw _
    | program statements =>
      rw [checked_program] at hchecked
      exact (parallel_all hchecked).bind fun _ => parallel_pure none
    | varDecl type name init => exact parallel_varDecl hρ (hown rfl) type (hpart (.head _))
    | assign name value =>
      apply (parallel_readVariable (hown rfl)).bind
      intro type
      apply (hpart (.head _)).bind
      intro k
      exact parallel_ite (parallel_pure none) (parallel_throw _)
    | cursorCreation name x y =>
      apply (parallel_defineCursor hρ (hown rfl)).bind
      intro _
      apply (hpart (.head _)).bind
      intro k
      apply (hpart (.tail _ (.head _))).bind
      intro l
      exact parallel_ite (parallel_pure none) (parallel_throw _)
    | cursorMethod cursor method given =>
      rw [checked_cursorMethod] at hchecked
      rw [rename_cursorMethod, node_cursorMethod, node_cursorMethod]
      exact parallel_calling (fun _ => rfl) rfl (hown rfl) method hchecked
    | drawCommand cursor shape given =>
      rw [checked_drawCommand] at hchecked
      rw [rename_drawCommand, node_drawCommand, node_drawCommand]
      exact parallel_calling (fun _ => rfl) rfl (hown rfl) shape hchecked
    | branch test body as otherwise =>
      simp only [checked_branch, List.forall_mem_cons, List.forall_mem_append,
        List.forall_mem_flatMap] at hchecked
      obtain ⟨ht, hb, ha, ho⟩ := hchecked
      exact parallel_branch ht hb (fun arm harm => List.forall_mem_cons.mpr (ha arm harm)) ho
    | whileLoop test body =>
      rw [checked_whileLoop, List.forall_mem_cons] at hchecked
      have htest := (parallel_test .whileLoop hchecked.1).bind fun _ =>
        (parallel_all hchecked.2).bind fun _ => parallel_pure (none : Option Kind)
      rw [bind_assoc, bind_assoc] at htest
      exact htest
    | forLoop init test update body =>
      simp only [checked_forLoop, List.forall_mem_cons] at hchecked
      obtain ⟨hi, ht, hu, hb⟩ := hchecked
      have hupdate := hu.bind fun _ =>
        (parallel_all hb).bind fun _ => parallel_pure (none : Option Kind)
      have htest := (parallel_test .forLoop ht).bind fun _ => hupdate
      rw [bind_assoc, bind_assoc] at htest
      exact hi.bind fun _ => htest
    | binary left op right =>
      apply (hpart (.head _)).bind
      intro k
      apply (hpart (.tail _ (.head _))).bind
      intro l
      exact (parallel_operationType op k l).bind fun _ => parallel_pure _
    | number value => cases value <;> exact parallel_pure _
    | truth value => exact parallel_pure _
    | color name parts =>
      have hcolor := (parallel_components hchecked).bind fun _ => parallel_pure (some Kind.color)
      rw [← checked_rename_color, rename_color] at hcolor
      rw [rename_color, node_color, node_color]
      exact hcolor
    | _ name => exact (parallel_readVariable (hown rfl)).bind fun _ => parallel_pure _

end

end Check

/-! ## Whole programs -/

/-- A program and the program with its names replaced are accepted alike, and if they are refused it
is for the same reason, with the names replaced in it too. -/
theorem check_rename {ρ : Value → Value} (hρ : Function.Injective ρ)
    (hwindow : ∀ x : Value, NameRule.IsWindow x → ρ x = x) (n : Node) :
    (n.rename ρ).check = n.check.mapError (ScopeError.rename ρ) := by
  have hnode := Check.parallel_node (N := Set.univ) hρ.injOn n fun _ _ => trivial
  have hwhole := hnode.bind fun _ =>
    Check.parallel_windowDimensions fun x hx => ⟨trivial, hwindow x hx⟩
  have hempty : Scope.Corresponds ρ Set.univ .empty .empty := fun _ _ => rfl
  unfold Node.check
  cases hwhole .empty .empty hempty with
  | ok hx hy _ =>
    rw [hx, hy]
    rfl
  | error hx hy _ =>
    rw [hx, hy]
    rfl

end DrawPlus
