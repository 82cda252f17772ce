import DrawPlus.Proofs.Parsing.WindowNames
import DrawPlus.Proofs.Scope.Formulas

/-!
# What the check does with names

The check of a tree declares variables, creates cursors and reads variables, in an order that the
tree alone decides (`Node.accesses`). A scope lets some of this happen: a name is declared once, and
a variable is read after it is declared. `makes_node` says that the check of a tree, whether it
succeeds or fails, does the first part of what the tree says and changes the scope by that and
nothing else, and that it does all of it when it succeeds. Then, as `visits_node` adds, everything
that is looked at inside the tree has been accepted too.
-/

namespace DrawPlus

/-- One thing that is done with a name. A variable can be read in its own declaration, which is why
the declaration has a beginning and an end. -/
inductive Access (ι τ : Type) where
  | begins (name : ι) (type : τ)
  | completes (name : ι)
  | creates (name : ι)
  | reads (name : ι)
deriving DecidableEq

/-- What the check does with a name. -/
abbrev ScopeAccess := Access Value (Option Kind)

namespace Access

variable {ι τ : Type}

/-- The variable that is declared, with its type. -/
def entry? : Access ι τ → Option (ι × τ)
  | .begins name type => some (name, type)
  | _ => none

def cursor? : Access ι τ → Option ι
  | .creates name => some name
  | _ => none

end Access

namespace Node

/-- What the check meets inside a node. -/
def checked : Node → List Node
  | .varDecl _ _ .absent => []
  | .color name parts => if name.isVoid then parts.getD [] else []
  | n => n.children.map Prod.snd

/-- What a node does with names before it looks at what is inside it. -/
def opening : Node → List ScopeAccess
  | .varDecl type name _ => [.begins name type]
  | .cursorCreation name _ _ => [.creates name]
  | .variable name => [.reads name]
  | _ => []

/-- What a node does with names after it has looked at what is inside it. -/
def closing : Node → List ScopeAccess
  | .varDecl _ name _ => [.completes name]
  | _ => []

theorem exists_child_of_mem_checked {n m : Node} (h : m ∈ n.checked) :
    ∃ p, (p, m) ∈ n.children := by
  have hmap (h : m ∈ n.children.map Prod.snd) : ∃ p, (p, m) ∈ n.children := by
    obtain ⟨⟨p, _⟩, hm, rfl⟩ := List.mem_map.mp h
    exact ⟨p, hm⟩
  cases n with
  | varDecl type name init =>
    cases init with
    | absent => cases h
    | _ => exact hmap h
  | color name parts =>
    simp only [checked] at h
    split_ifs at h
    · exact ⟨.operand, List.mem_map_of_mem h⟩
    · cases h
  | _ => exact hmap h

@[simp] theorem checked_program (ns : List Node) : (Node.program ns).checked = ns := by
  simp [checked, children, Function.comp_def]

@[simp] theorem checked_cursorMethod (cursor method : Value) (given : List Node) :
    (Node.cursorMethod cursor method given).checked = given := by
  simp [checked, children, Function.comp_def]

@[simp] theorem checked_drawCommand (cursor shape : Value) (given : List Node) :
    (Node.drawCommand cursor shape given).checked = given := by
  simp [checked, children, Function.comp_def]

@[simp] theorem checked_branch (test : Node) (body : List Node) (as : List (Node × List Node))
    (otherwise : Option (List Node)) : (Node.branch test body as otherwise).checked =
      test :: (body ++ ((as.flatMap fun arm => arm.1 :: arm.2) ++ otherwise.getD [])) := by
  simp [checked, children, Function.comp_def, List.map_flatMap]

@[simp] theorem checked_whileLoop (test : Node) (body : List Node) :
    (Node.whileLoop test body).checked = test :: body := by
  simp [checked, children, Function.comp_def]

@[simp] theorem checked_forLoop (init test update : Node) (body : List Node) :
    (Node.forLoop init test update body).checked = init :: test :: update :: body := by
  simp [checked, children, Function.comp_def]

theorem sizeOf_checked {n m : Node} (h : m ∈ n.checked) : sizeOf m < sizeOf n := by
  obtain ⟨p, hm⟩ := exists_child_of_mem_checked h
  exact sizeOf_child hm

/-- What a tree does with names, in the order in which the check meets its nodes. -/
def accesses (n : Node) : List ScopeAccess :=
  n.opening ++ ((n.checked.attach.flatMap fun m => m.1.accesses) ++ n.closing)
termination_by sizeOf n
decreasing_by exact sizeOf_checked m.2

theorem accesses_eq (n : Node) :
    n.accesses = n.opening ++ (n.checked.flatMap accesses ++ n.closing) := by
  rw [accesses, List.flatMap_subtype fun _ _ => rfl, List.unattach_attach]

theorem accesses_of_plain {n : Node} (ho : n.opening = []) (hc : n.closing = []) :
    n.accesses = n.checked.flatMap accesses := by
  rw [accesses_eq, ho, hc, List.nil_append, List.append_nil]

end Node

/-! ## Scopes -/

namespace Scope

/-- The scope lets this be done. -/
def Admits (s : Scope) : ScopeAccess → Prop
  | .begins name _ => s.isFree name = true
  | .completes _ => True
  | .creates name => s.isFree name = true
  | .reads name => ∃ k, s.readable? name = some k

def add (s : Scope) : ScopeAccess → Scope
  | .begins name type => { s with declared := s.declared ++ [(name, type)] }
  | .completes _ => s
  | .creates name => { s with cursors := s.cursors ++ [name] }
  | .reads _ => s

def addAll (s : Scope) (as : List ScopeAccess) : Scope := as.foldl add s

/-- The scope lets all of this be done, one after the other. -/
def Passes : Scope → List ScopeAccess → Prop
  | _, [] => True
  | s, a :: as => s.Admits a ∧ (s.add a).Passes as

@[simp] theorem addAll_append (s : Scope) (as bs : List ScopeAccess) :
    s.addAll (as ++ bs) = (s.addAll as).addAll bs := List.foldl_append

theorem passes_append {s : Scope} {as bs : List ScopeAccess} :
    s.Passes (as ++ bs) ↔ s.Passes as ∧ (s.addAll as).Passes bs := by
  induction as generalizing s with
  | nil => simp [Passes, addAll]
  | cons a as ih =>
    rw [List.cons_append, Passes, Passes, ih, and_assoc]
    rfl

theorem declared_addAll (s : Scope) (as : List ScopeAccess) :
    (s.addAll as).declared = s.declared ++ as.filterMap Access.entry? := by
  induction as generalizing s with
  | nil => simp [addAll]
  | cons a as ih =>
    rw [addAll, List.foldl_cons, ← addAll, ih]
    cases a <;> simp [add, List.filterMap_cons, Access.entry?]

theorem cursors_addAll (s : Scope) (as : List ScopeAccess) :
    (s.addAll as).cursors = s.cursors ++ as.filterMap Access.cursor? := by
  induction as generalizing s with
  | nil => simp [addAll]
  | cons a as ih =>
    rw [addAll, List.foldl_cons, ← addAll, ih]
    cases a <;> simp [add, List.filterMap_cons, Access.cursor?]

theorem Passes.of_prefix {s : Scope} {as bs : List ScopeAccess} (h : s.Passes bs)
    (hle : as <+: bs) : s.Passes as := by
  obtain ⟨more, rfl⟩ := hle
  exact (passes_append.mp h).1

end Scope

/-! ## Actions -/

namespace Check

open Node

/-- The action does this with names when it succeeds, and a first part of it when it fails. -/
structure Makes {α : Type} (x : Check α) (as : List ScopeAccess) : Prop where
  ok : ∀ {s a t}, x s = .ok a t → s.Passes as ∧ t = s.addAll as
  error : ∀ {s e t}, x s = .error e t → ∃ made, made <+: as ∧ s.Passes made ∧ t = s.addAll made

section

variable {α β : Type} {x y : Check α} {as bs : List ScopeAccess}

theorem Makes.bind {f : α → Check β} (hx : Makes x as) (hf : ∀ a, Makes (f a) bs) :
    Makes (x >>= f) (as ++ bs) where
  ok := by
    intro s b t h
    obtain ⟨a, u, hxu, hfu⟩ := bind_eq_ok.mp h
    obtain ⟨hpasses, rfl⟩ := hx.ok hxu
    obtain ⟨hpasses', rfl⟩ := (hf a).ok hfu
    exact ⟨Scope.passes_append.mpr ⟨hpasses, hpasses'⟩, (Scope.addAll_append _ _ _).symm⟩
  error := by
    intro s e t h
    rcases bind_eq_error.mp h with h | ⟨a, u, hxu, hfu⟩
    · obtain ⟨made, hmade, hpasses⟩ := hx.error h
      exact ⟨made, hmade.trans (List.prefix_append _ _), hpasses⟩
    · obtain ⟨hpasses, rfl⟩ := hx.ok hxu
      obtain ⟨made, hmade, hpasses', rfl⟩ := (hf a).error hfu
      refine ⟨as ++ made, (List.prefix_append_right_inj as).mpr hmade, ?_, ?_⟩
      · exact Scope.passes_append.mpr ⟨hpasses, hpasses'⟩
      · exact (Scope.addAll_append _ _ _).symm

/-- An action that leaves the scope as it is does nothing with names. -/
theorem makes_nothing (hok : ∀ {s a t}, x s = .ok a t → t = s)
    (herror : ∀ {s e t}, x s = .error e t → t = s) : Makes x [] where
  ok h := ⟨trivial, hok h⟩
  error h := ⟨[], List.prefix_refl _, trivial, herror h⟩

theorem makes_pure (a : α) : Makes (pure a : Check α) [] :=
  makes_nothing (fun h => (pure_eq_ok.mp h).2) fun h => by cases h

theorem makes_throw (e : ScopeError) : Makes (throw e : Check α) as where
  ok h := absurd h throw_ne_ok
  error h := by
    cases h
    exact ⟨[], List.nil_prefix, trivial, rfl⟩

theorem makes_ite {p : Prop} [Decidable p] (hx : p → Makes x as) (hy : ¬p → Makes y as) :
    Makes (if p then x else y) as := by
  split_ifs with hp
  · exact hx hp
  · exact hy hp

/-- An action that succeeds only adds to the declared variables. -/
theorem Makes.grows (hx : Makes x as) {s t : Scope} {a : α} (h : x s = .ok a t) :
    s.declared <+: t.declared := by
  rw [(hx.ok h).2, Scope.declared_addAll]
  exact List.prefix_append _ _

theorem Makes.followed {f : α → Check β} (hx : Makes x as) (hf : ∀ a, Makes (f a) []) :
    Makes (x >>= f) as := by
  have h := hx.bind hf
  rwa [List.append_nil] at h

end

theorem makes_declare {declaration : Scope → Except ScopeError Scope} {a : ScopeAccess}
    (h : ∀ {s t}, declaration s = .ok t → s.Admits a ∧ t = s.add a) :
    Makes (declare declaration) [a] where
  ok := by
    intro s u t hok
    unfold declare at hok
    cases hd : declaration s with
    | error e => simp [hd] at hok
    | ok t' =>
      obtain ⟨hadmits, rfl⟩ := h hd
      simp only [hd] at hok
      obtain ⟨-, rfl⟩ := ok_eq_ok.mp hok
      exact ⟨⟨hadmits, trivial⟩, rfl⟩
  error := by
    intro s e t herror
    unfold declare at herror
    cases hd : declaration s with
    | ok t' => simp [hd] at herror
    | error e' =>
      simp only [hd] at herror
      cases herror
      exact ⟨[], List.nil_prefix, trivial, rfl⟩

theorem makes_define (name : Value) (type : Option Kind) :
    Makes (declare (·.define name type)) [.begins name type] := by
  apply makes_declare
  intro s t h
  unfold Scope.define at h
  split_ifs at h with hfree
  exact ⟨hfree, (Except.ok.inj h).symm⟩

theorem makes_defineCursor (name : Value) :
    Makes (declare (·.defineCursor name)) [.creates name] := by
  apply makes_declare
  intro s t h
  unfold Scope.defineCursor at h
  split_ifs at h with hfree
  exact ⟨hfree, (Except.ok.inj h).symm⟩

theorem makes_declareVariable (name : Value) (type : Option Kind) :
    Makes (declareVariable name type) [.begins name type] where
  ok := by
    intro s u t h
    unfold declareVariable at h
    split_ifs at h
    exact (makes_define name type).ok h
  error := by
    intro s e t h
    unfold declareVariable at h
    split_ifs at h
    · cases h
      exact ⟨[], List.nil_prefix, trivial, rfl⟩
    · exact (makes_define name type).error h

/-- Looking a variable up leaves the scope, and when it succeeds the variable can be read. -/
theorem makes_readVariable (name : Value) : Makes (readVariable name) [.reads name] where
  ok := by
    intro s k t h
    obtain ⟨hk, rfl⟩ := readVariable_eq_ok.mp h
    exact ⟨⟨⟨k, hk⟩, trivial⟩, rfl⟩
  error := by
    intro s e t h
    unfold readVariable at h
    split at h <;> cases h
    exact ⟨[], List.nil_prefix, trivial, rfl⟩

/-- To look up the variable that is assigned to is not to read it. -/
theorem makes_lookUp (name : Value) : Makes (readVariable name) [] := by
  refine makes_nothing (fun h => (readVariable_eq_ok.mp h).2) fun h => ?_
  unfold readVariable at h
  split at h <;> cases h
  rfl

theorem makes_signature (cursor method : Value) : Makes (signature cursor method) [] := by
  refine makes_nothing (fun h => (signature_eq_ok.mp h).2.2) fun {s e t} h => ?_
  unfold signature at h
  split at h
  · split at h <;> cases h
    rfl
  · cases h
    rfl

theorem makes_windowDimensions : Makes windowDimensions [] := by
  refine makes_nothing (fun h => (windowDimensions_eq_ok.mp h).2) fun {s e t} h => ?_
  unfold windowDimensions at h
  split_ifs at h <;> cases h <;> rfl

theorem makes_requireTruth (guard : Guard) (type : Option Kind) :
    Makes (requireTruth guard type) [] :=
  makes_ite (fun _ => makes_pure ()) fun _ => makes_throw _

theorem makes_ofExcept {α : Type} (result : Except ScopeError α) : Makes (ofExcept result) [] := by
  refine makes_nothing (fun h => (ofExcept_eq_ok.mp h).2) fun {s e t} h => ?_
  cases result <;> cases h
  rfl

/-- A declaration is complete when it has been looked at. -/
theorem makes_completion (name : Value) :
    Makes (pure none : Check (Option Kind)) [.completes name] where
  ok h := ⟨⟨trivial, trivial⟩, (pure_eq_ok.mp h).2⟩
  error h := by cases h

/-! ## Nodes -/

/-- The action does this with names, and when it succeeds these nodes have been accepted on the
way. -/
structure Visits {α : Type} (x : Check α) (as : List ScopeAccess) (met : List Node) : Prop
    extends Makes x as where
  accepts : ∀ {s a t}, x s = .ok a t → ∀ m ∈ met, ∃ s' b t',
    node m s' = .ok b t' ∧ t'.declared <+: t.declared

section

variable {α β : Type} {x y : Check α} {as bs : List ScopeAccess} {met met' : List Node}

theorem Makes.visits (hx : Makes x as) : Visits x as [] := ⟨hx, by simp⟩

theorem Visits.bind {f : α → Check β} (hx : Visits x as met) (hf : ∀ a, Visits (f a) bs met') :
    Visits (x >>= f) (as ++ bs) (met ++ met') where
  toMakes := hx.toMakes.bind fun a => (hf a).toMakes
  accepts := by
    intro s b t h m hm
    obtain ⟨a, u, hxu, hfu⟩ := bind_eq_ok.mp h
    rcases List.mem_append.mp hm with hm | hm
    · obtain ⟨s', c, t', hnode, hle⟩ := hx.accepts hxu m hm
      exact ⟨s', c, t', hnode, hle.trans ((hf a).grows hfu)⟩
    · exact (hf a).accepts hfu m hm

theorem visits_throw (e : ScopeError) : Visits (throw e : Check α) as met where
  toMakes := makes_throw e
  accepts h := absurd h throw_ne_ok

theorem visits_ite {p : Prop} [Decidable p] (hx : p → Visits x as met)
    (hy : ¬p → Visits y as met) : Visits (if p then x else y) as met := by
  split_ifs with hp
  · exact hx hp
  · exact hy hp

theorem Visits.followed {f : α → Check β} (hx : Visits x as met) (hf : ∀ a, Makes (f a) []) :
    Visits (x >>= f) as met := by
  have h := hx.bind fun a => (hf a).visits
  rwa [List.append_nil, List.append_nil] at h

/-- A node is itself met by its check. -/
theorem Visits.self {n : Node} (h : Visits (node n) as met) : Visits (node n) as [n] where
  toMakes := h.toMakes
  accepts := by
    intro s a t hn m hm
    rw [List.mem_singleton.mp hm]
    exact ⟨s, a, t, hn, List.prefix_refl _⟩

end

theorem visits_all {ns : List Node} (h : ∀ n ∈ ns, Visits (node n) n.accesses [n]) :
    Visits (all ns) (ns.flatMap accesses) ns := by
  induction ns with
  | nil => exact (makes_pure ()).visits
  | cons n ns ih =>
    rw [List.forall_mem_cons] at h
    exact h.1.bind fun _ => ih h.2

theorem visits_test (guard : Guard) {n : Node} (h : Visits (node n) n.accesses [n]) :
    Visits (do requireTruth guard (← node n)) n.accesses [n] :=
  h.followed fun _ => makes_requireTruth _ _

theorem visits_arms {as : List (Node × List Node)}
    (h : ∀ arm ∈ as, ∀ n ∈ arm.1 :: arm.2, Visits (node n) n.accesses [n]) :
    Visits (arms as) ((as.flatMap fun arm => arm.1 :: arm.2).flatMap accesses)
      (as.flatMap fun arm => arm.1 :: arm.2) := by
  induction as with
  | nil => exact (makes_pure ()).visits
  | cons arm as ih =>
    rw [List.forall_mem_cons, List.forall_mem_cons] at h
    have hbody := (visits_all h.1.2).bind fun _ => ih h.2
    have harm := (visits_test .alternative h.1.1).bind fun _ => hbody
    rw [bind_assoc] at harm
    rw [List.flatMap_cons, List.flatMap_append, List.flatMap_cons, List.append_assoc]
    exact harm

theorem visits_arguments (error : ScopeError) {ns : List Node} {types : List Kind}
    (hlen : ns.length = types.length) (h : ∀ n ∈ ns, Visits (node n) n.accesses [n]) :
    Visits (arguments error ns types) (ns.flatMap accesses) ns := by
  induction ns generalizing types with
  | nil =>
    obtain rfl := List.length_eq_zero_iff.mp hlen.symm
    exact (makes_pure ()).visits
  | cons n ns ih =>
    obtain ⟨type, types, rfl⟩ := List.exists_cons_of_length_eq_add_one hlen.symm
    rw [List.forall_mem_cons] at h
    apply h.1.bind
    intro k
    exact visits_ite (fun _ => ih (Nat.succ.inj hlen) h.2) fun _ => visits_throw _

theorem visits_components {ns : List Node} (h : ∀ n ∈ ns, Visits (node n) n.accesses [n]) :
    Visits (components ns) (ns.flatMap accesses) ns := by
  induction ns with
  | nil => exact (makes_pure ()).visits
  | cons n ns ih =>
    rw [List.forall_mem_cons] at h
    apply h.1.bind
    intro k
    exact visits_ite (fun _ => ih h.2) fun _ => visits_throw _

theorem visits_calling (arity : ℕ → ScopeError) (argument : ScopeError) (cursor method : Value)
    {given : List Node} (h : ∀ n ∈ given, Visits (node n) n.accesses [n]) :
    Visits (calling arity argument cursor method given) (given.flatMap accesses) given := by
  apply (makes_signature cursor method).visits.bind
  intro types
  apply visits_ite
  · intro _
    exact visits_throw _
  · intro hlen
    exact (visits_arguments argument (not_not.mp hlen) h).followed fun _ => makes_pure none

theorem visits_varDecl (type : Option Kind) (name : Value) {init : Node}
    (h : ∀ m ∈ (Node.varDecl type name init).checked, Visits (node m) m.accesses [m]) :
    Visits (node (.varDecl type name init)) (Node.varDecl type name init).accesses
      (Node.varDecl type name init).checked := by
  have hdeclare := (makes_declareVariable name type).visits
  rw [accesses_eq]
  by_cases hinit : init = .absent
  · subst hinit
    exact hdeclare.bind fun _ => (makes_completion name).visits
  · have hchecked : (Node.varDecl type name init).checked = [init] := by
      cases init with
      | absent => exact absurd rfl hinit
      | _ => rfl
    rw [hchecked, List.forall_mem_singleton] at h
    rw [node_varDecl_eq hinit, hchecked, List.flatMap_singleton]
    apply hdeclare.bind
    intro _
    rw [← List.append_nil [init]]
    apply h.bind
    intro k
    exact visits_ite (fun _ => (makes_completion name).visits) fun _ => visits_throw _

theorem visits_branch {test : Node} {body : List Node} {as : List (Node × List Node)}
    {otherwise : Option (List Node)} (ht : Visits (node test) test.accesses [test])
    (hb : ∀ n ∈ body, Visits (node n) n.accesses [n])
    (ha : ∀ arm ∈ as, ∀ n ∈ arm.1 :: arm.2, Visits (node n) n.accesses [n])
    (ho : ∀ n ∈ otherwise.getD [], Visits (node n) n.accesses [n]) :
    Visits (node (.branch test body as otherwise)) (Node.branch test body as otherwise).accesses
      (Node.branch test body as otherwise).checked := by
  have hlast := (visits_all ho).followed fun _ => makes_pure (none : Option Kind)
  have harms := (visits_arms ha).bind fun _ => hlast
  have hbody := (visits_all hb).bind fun _ => harms
  have htest := (visits_test .branch ht).bind fun _ => hbody
  rw [bind_assoc] at htest
  rw [node_branch, accesses_of_plain rfl rfl, checked_branch, List.flatMap_cons,
    List.flatMap_append, List.flatMap_append]
  exact htest

theorem node_color (name : Value) (parts : Option (List Node)) : node (.color name parts) = (do
      components (Node.color name parts).checked
      return some .color) := by
  cases parts <;> cases hname : name.isVoid <;> simp [node, checked, components, hname]

/-- The check of a node does with names what the node says and meets what is inside it. -/
theorem visits_node (n : Node) : Visits (node n) n.accesses n.checked := by
  induction n using induction_children with
  | h n ih =>
    have hchecked : ∀ m ∈ n.checked, Visits (node m) m.accesses [m] := by
      intro m hm
      obtain ⟨p, hp⟩ := exists_child_of_mem_checked hm
      exact (ih p m hp).self
    cases n with
    | absent | bare | text => exact visits_throw _
    | program statements =>
      rw [accesses_of_plain rfl rfl, checked_program]
      rw [checked_program] at hchecked
      exact (visits_all hchecked).followed fun _ => makes_pure none
    | varDecl type name init => exact visits_varDecl type name hchecked
    | assign name value =>
      have hvalue := hchecked value (.head _)
      rw [accesses_of_plain rfl rfl]
      change Visits _ ([value].flatMap accesses) [value]
      rw [List.flatMap_singleton]
      apply (makes_lookUp name).visits.bind
      intro type
      apply hvalue.followed
      intro k
      exact makes_ite (fun _ => makes_pure none) fun _ => makes_throw _
    | cursorCreation name x y =>
      have hx := hchecked x (.head _)
      have hy := hchecked y (.tail _ (.head _))
      have haccesses : (Node.cursorCreation name x y).accesses =
          [.creates name] ++ (x.accesses ++ y.accesses) := by
        rw [accesses_eq]
        simp [opening, closing, checked, children]
      rw [haccesses]
      apply (makes_defineCursor name).visits.bind
      intro _
      apply hx.bind
      intro k
      apply hy.followed
      intro l
      exact makes_ite (fun _ => makes_pure none) fun _ => makes_throw _
    | cursorMethod cursor method given =>
      rw [accesses_of_plain rfl rfl, checked_cursorMethod, node_cursorMethod]
      rw [checked_cursorMethod] at hchecked
      exact visits_calling _ _ cursor method hchecked
    | drawCommand cursor shape given =>
      rw [accesses_of_plain rfl rfl, checked_drawCommand, node_drawCommand]
      rw [checked_drawCommand] at hchecked
      exact visits_calling _ _ cursor shape hchecked
    | branch test body as otherwise =>
      simp only [checked_branch, List.forall_mem_cons, List.forall_mem_append,
        List.forall_mem_flatMap] at hchecked
      obtain ⟨ht, hb, ha, ho⟩ := hchecked
      exact visits_branch ht hb (fun arm harm => List.forall_mem_cons.mpr (ha arm harm)) ho
    | whileLoop test body =>
      rw [checked_whileLoop, List.forall_mem_cons] at hchecked
      have htest := (visits_test .whileLoop hchecked.1).bind fun _ =>
        (visits_all hchecked.2).followed fun _ => makes_pure (none : Option Kind)
      rw [bind_assoc] at htest
      rw [accesses_of_plain rfl rfl, checked_whileLoop, List.flatMap_cons]
      exact htest
    | forLoop init test update body =>
      simp only [checked_forLoop, List.forall_mem_cons] at hchecked
      obtain ⟨hi, ht, hu, hb⟩ := hchecked
      have hupdate := hu.bind fun _ =>
        (visits_all hb).followed fun _ => makes_pure (none : Option Kind)
      have htest := (visits_test .forLoop ht).bind fun _ => hupdate
      rw [bind_assoc] at htest
      rw [accesses_of_plain rfl rfl, checked_forLoop, List.flatMap_cons, List.flatMap_cons,
        List.flatMap_cons]
      exact hi.bind fun _ => htest
    | binary left op right =>
      have hl := hchecked left (.head _)
      have hr := hchecked right (.tail _ (.head _))
      have haccesses : (Node.binary left op right).accesses = left.accesses ++ right.accesses := by
        rw [accesses_of_plain rfl rfl]
        simp [checked, children]
      rw [haccesses]
      apply hl.bind
      intro k
      apply hr.followed
      intro l
      exact (makes_ofExcept _).followed fun _ => makes_pure _
    | number value =>
      rw [accesses_of_plain rfl rfl]
      cases value <;> exact (makes_pure _).visits
    | truth value =>
      rw [accesses_of_plain rfl rfl]
      exact (makes_pure _).visits
    | color name parts =>
      rw [accesses_of_plain rfl rfl, node_color]
      exact (visits_components hchecked).followed fun _ => makes_pure _
    | _ name =>
      rw [accesses_eq]
      exact ((makes_readVariable name).followed fun _ => makes_pure _).visits

/-- The check of a tree does with names what the tree says, or a first part of it if it fails. -/
theorem makes_node (n : Node) : Makes (node n) n.accesses := (visits_node n).toMakes

end Check

end DrawPlus
