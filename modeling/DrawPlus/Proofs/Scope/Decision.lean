import DrawPlus.Proofs.Parsing.Forms
import DrawPlus.Proofs.Scope.Formulas

/-!
# The check decides the static rules

For every program that is read from tokens, the check accepts it exactly when it keeps the static
rules. The check works through a program with a scope that it changes as it goes, and the rules look
at the steps of the program. What ties them together is that the scope after some steps is the one
that holds their variables and cursors (`Scope.of`). `Walks x steps` says of an action of the check
that it succeeds, from the scope of any earlier steps, exactly when the steps can follow them, and
then leaves the scope of all of them.
-/

namespace DrawPlus

open Step

variable {before : List Step} {e : Node}

/-! ## The names of steps -/

namespace Step

@[simp] theorem context_append (as bs : List Step) :
    context (as ++ bs) = context as ++ context bs :=
  List.filterMap_append

@[simp] theorem cursors_append (as bs : List Step) :
    cursors (as ++ bs) = cursors as ++ cursors bs :=
  List.filterMap_append

@[simp] theorem names_append (as bs : List Step) : names (as ++ bs) = names as ++ names bs :=
  List.filterMap_append

theorem names_singleton (step : Step) : names [step] = step.name?.toList := by
  cases step <;> rfl

theorem mem_names {x : Value} {steps : List Step} :
    x ∈ names steps ↔ x ∈ (context steps).map Prod.fst ∨ x ∈ cursors steps := by
  induction steps with
  | nil => simp [names, context, cursors]
  | cons step steps ih =>
    cases step with
    | declares type y init =>
      change x ∈ y :: names steps ↔ x ∈ y :: (context steps).map Prod.fst ∨ x ∈ cursors steps
      rw [List.mem_cons, List.mem_cons, ih, or_assoc]
    | creates y a b =>
      change x ∈ y :: names steps ↔ x ∈ (context steps).map Prod.fst ∨ x ∈ y :: cursors steps
      rw [List.mem_cons, List.mem_cons, ih, or_left_comm]
    | assigns | calls | tests => exact ih

theorem context_sublist (steps : List Step) :
    ((context steps).map Prod.fst).Sublist (names steps) := by
  induction steps with
  | nil => exact .slnil
  | cons step steps ih =>
    cases step with
    | declares => exact ih.cons_cons _
    | creates => exact ih.cons _
    | assigns | calls | tests => exact ih

/-- A step that declares a variable gives it a type that variables can have. -/
def Typed : Step → Prop
  | .declares type _ _ => ∃ k ∈ [Kind.int, .float, .bool, .color], type = some k
  | _ => True

theorem typed_of_mem_context {steps : List Step} (h : ∀ step ∈ steps, step.Typed) {x : Value}
    {type : Option Kind} (hx : (x, type) ∈ context steps) :
    ∃ k ∈ [Kind.int, .float, .bool, .color], type = some k := by
  obtain ⟨step, hstep, heq⟩ := List.mem_filterMap.mp hx
  have htyped := h step hstep
  cases step with
  | declares =>
    cases heq
    exact htyped
  | creates | assigns | calls | tests => cases heq

/-- The name that the step declares is not declared before it. -/
def Fresh (before : List Step) (step : Step) : Prop := ∀ x ∈ step.name?, x ∉ names before

/-- The steps can follow those before them. -/
def Follows : List Step → List Step → Prop
  | _, [] => True
  | before, step :: steps =>
    step.Fresh before ∧ step.Sound before ∧ Follows (before ++ [step]) steps

theorem follows_append {as bs : List Step} :
    Follows before (as ++ bs) ↔ Follows before as ∧ Follows (before ++ as) bs := by
  induction as generalizing before with
  | nil => simp [Follows]
  | cons step as ih => simp [Follows, ih, and_assoc]

theorem follows_singleton {step : Step} :
    Follows before [step] ↔ step.Fresh before ∧ step.Sound before := by
  simp [Follows]

theorem nodup_names_concat {step : Step} (hb : (names before).Nodup) (h : step.Fresh before) :
    (names (before ++ [step])).Nodup := by
  rw [names_append, names_singleton, List.nodup_append']
  refine ⟨hb, ?_, fun x hx hstep => h x (Option.mem_toList.mp hstep) hx⟩
  cases step.name? <;> simp

theorem nodup_names_of_follows {before steps : List Step} (hb : (names before).Nodup)
    (h : Follows before steps) : (names (before ++ steps)).Nodup := by
  induction steps generalizing before with
  | nil => simpa using hb
  | cons step steps ih =>
    rw [List.append_cons]
    exact ih (nodup_names_concat hb h.1) h.2.2

theorem follows_of_nodup {steps : List Step} (hn : (names (before ++ steps)).Nodup)
    (hs : ∀ l step r, steps = l ++ step :: r → step.Sound (before ++ l)) :
    Follows before steps := by
  induction steps generalizing before with
  | nil => trivial
  | cons step steps ih =>
    refine ⟨?_, by simpa using hs [] step steps rfl, ih (by simpa using hn) ?_⟩
    · intro x hx hbefore
      rw [← List.singleton_append, names_append, names_append, names_singleton] at hn
      have hmem : x ∈ step.name?.toList ++ names steps :=
        List.mem_append_left _ (Option.mem_toList.mpr hx)
      exact (List.nodup_append'.mp hn).2.2 hbefore hmem
    · rintro l step' r rfl
      simpa using hs (step :: l) step' r rfl

/-- The steps of a program follow one another from the start exactly when they declare distinct
names and each is sound after those before it. -/
theorem follows_nil_iff {steps : List Step} : Follows [] steps ↔
    (names steps).Nodup ∧
      ∀ before step after, steps = before ++ step :: after → step.Sound before := by
  constructor
  · intro h
    refine ⟨@nodup_names_of_follows [] steps .nil h, ?_⟩
    rintro before step after rfl
    exact (follows_append.mp h).2.2.1
  · rintro ⟨hn, hs⟩
    exact follows_of_nodup hn hs

/-- What is known of the steps before others: their names are distinct and their variables have
types. -/
structure Ready (before : List Step) : Prop where
  nodup : (names before).Nodup
  typed : ∀ step ∈ before, step.Typed

theorem ready_nil : Ready [] := ⟨.nil, by simp⟩

theorem Ready.concat {step : Step} (h : Ready before) (hf : step.Fresh before) (ht : step.Typed) :
    Ready (before ++ [step]) := by
  refine ⟨nodup_names_concat h.nodup hf, ?_⟩
  rw [List.forall_mem_append]
  exact ⟨h.typed, by simpa using ht⟩

theorem Ready.append {steps : List Step} (h : Ready before) (hf : Follows before steps)
    (ht : ∀ step ∈ steps, step.Typed) : Ready (before ++ steps) := by
  refine ⟨nodup_names_of_follows h.nodup hf, ?_⟩
  rw [List.forall_mem_append]
  exact ⟨h.typed, ht⟩

end Step

/-! ## The scope of steps -/

def Scope.of (steps : List Step) : Scope := ⟨context steps, Step.cursors steps⟩

/-- A step that declares nothing leaves the scope. -/
theorem of_concat {step : Step} (h : step.name? = none) (before : List Step) :
    Scope.of (before ++ [step]) = Scope.of before := by
  cases step with
  | declares | creates => cases h
  | assigns | calls | tests => simp [Scope.of, context, Step.cursors, entry?, cursor?]

theorem isFree_of {steps : List Step} {x : Value} :
    (Scope.of steps).isFree x = true ↔ x ∉ names steps := by
  rw [← Bool.not_eq_false, Check.isFree_eq_false, mem_names]
  simp [Scope.of, Scope.hasVariable, Scope.isCursor]

theorem declareVariable_of {type : Option Kind} {x : Value} (init : Node) {u : Unit} {t : Scope} :
    Check.declareVariable x type (Scope.of before) = .ok u t ↔
      (Step.declares type x init).Fresh before ∧
        t = Scope.of (before ++ [.declares type x init]) := by
  have hscope : Scope.of (before ++ [.declares type x init]) =
      ⟨context before ++ [(x, type)], Step.cursors before⟩ := by
    rw [Scope.of, context_append, cursors_append]
    exact congrArg (Scope.mk _) (List.append_nil _)
  rw [Check.declareVariable_eq_ok, isFree_of, hscope]
  simp [Fresh, name?, Scope.of]

theorem declareCursor_of {x : Value} (a b : Node) {u : Unit} {t : Scope} :
    Check.declare (·.defineCursor x) (Scope.of before) = .ok u t ↔
      (Step.creates x a b).Fresh before ∧ t = Scope.of (before ++ [.creates x a b]) := by
  have hscope : Scope.of (before ++ [.creates x a b]) =
      ⟨context before, Step.cursors before ++ [x]⟩ := by
    rw [Scope.of, context_append, cursors_append]
    exact congrArg (Scope.mk · _) (List.append_nil _)
  rw [Check.declareCursor_eq_ok, isFree_of, hscope]
  simp [Fresh, name?, Scope.of]

theorem lookup_eq_some_iff_mem {α β : Type} [BEq α] [LawfulBEq α] {l : List (α × β)}
    (h : (l.map Prod.fst).Nodup) {a : α} {b : β} : l.lookup a = some b ↔ (a, b) ∈ l := by
  induction l with
  | nil => simp
  | cons entry l ih =>
    obtain ⟨a', b'⟩ := entry
    rw [List.map_cons, List.nodup_cons] at h
    by_cases ha : a = a'
    · subst ha
      have hnot : (a, b) ∉ l := fun hmem => h.1 (List.mem_map.mpr ⟨_, hmem, rfl⟩)
      simp [hnot, eq_comm]
    · have hbeq : (a == a') = false := by simpa using ha
      simp [List.lookup_cons, hbeq, ha, ih h.2]

/-- The variables of the scope that can be read are those listed, with their types. -/
def Reads (s : Scope) (Γ : List (Value × Option Kind)) : Prop :=
  ∀ x k, s.readable? x = some k ↔ (x, some k) ∈ Γ

theorem lookup_context {steps : List Step} (h : Ready steps) {x : Value} {type : Option Kind} :
    (context steps).lookup x = some type ↔ (x, type) ∈ context steps :=
  lookup_eq_some_iff_mem (h.nodup.sublist (context_sublist steps))

theorem reads_of {steps : List Step} (h : Ready steps) :
    Reads (Scope.of steps) (context steps) := by
  intro x k
  rw [← lookup_context h]
  unfold Scope.readable? Scope.typeOf? Scope.of
  cases hl : (context steps).lookup x with
  | none => simp
  | some type =>
    obtain ⟨t, ht, rfl⟩ := typed_of_mem_context h.typed ((lookup_context h).mp hl)
    simp only [List.mem_cons, List.not_mem_nil, or_false] at ht
    rcases ht with rfl | rfl | rfl | rfl <;> simp

theorem typeOf?_of {steps : List Step} (h : Ready steps) {x : Value} :
    ((Scope.of steps).typeOf? x).isSome = true ↔ x ∈ (context steps).map Prod.fst := by
  unfold Scope.typeOf? Scope.of
  constructor
  · intro hx
    cases hl : (context steps).lookup x with
    | none => simp [hl] at hx
    | some type => exact List.mem_map_of_mem ((lookup_context h).mp hl)
  · intro hx
    obtain ⟨⟨y, type⟩, hmem, rfl⟩ := List.mem_map.mp hx
    obtain ⟨k, -, rfl⟩ := typed_of_mem_context h.typed hmem
    rw [(lookup_context h).mpr hmem]
    rfl

/-! ## Expressions -/

section

variable {Γ : List (Value × Option Kind)} {k : Kind} {l r : Node} {op : Kind}

theorem hasType_arithmetic (hop : op.isArithmetic = true) : HasType Γ (.binary l op r) k ↔
    ∃ m n, HasType Γ l m ∧ HasType Γ r n ∧ (m.Numeric ∧ n.Numeric) ∧
      k = if m = .float ∨ n = .float then .float else .int := by
  constructor
  · intro h
    cases h with
    | wholeArithmetic _ hl hr => exact ⟨.int, .int, hl, hr, ⟨.inl rfl, .inl rfl⟩, by simp⟩
    | fractionalArithmetic _ hl hr hm hn hf => exact ⟨_, _, hl, hr, ⟨hm, hn⟩, (if_pos hf).symm⟩
    | comparison hc =>
      rw [Parse.isArithmetic_of_isComparison hc] at hop
      cases hop
  · rintro ⟨m, n, hl, hr, ⟨hm, hn⟩, rfl⟩
    split_ifs with hf
    · exact .fractionalArithmetic hop hl hr hm hn hf
    · rw [not_or] at hf
      obtain rfl := hm.resolve_right hf.1
      obtain rfl := hn.resolve_right hf.2
      exact .wholeArithmetic hop hl hr

theorem hasType_comparison (hop : op.isComparison = true) : HasType Γ (.binary l op r) k ↔
    ∃ m n, HasType Γ l m ∧ HasType Γ r n ∧ m.Comparable n ∧ k = .boolValue := by
  have hnot := Parse.isArithmetic_of_isComparison hop
  constructor
  · intro h
    cases h with
    | wholeArithmetic ha | fractionalArithmetic ha =>
      rw [hnot] at ha
      cases ha
    | comparison _ hl hr hc => exact ⟨_, _, hl, hr, hc, rfl⟩
  · rintro ⟨m, n, hl, hr, hc, rfl⟩
    exact .comparison hop hl hr hc

end

namespace Check

/-- The check of the expression gives its type and leaves the scope. -/
def Types (s : Scope) (Γ : List (Value × Option Kind)) (e : Node) : Prop :=
  ∀ a t, node e s = .ok a t ↔ (∃ k, a = some k ∧ HasType Γ e k) ∧ t = s

variable {s : Scope} {Γ : List (Value × Option Kind)}

theorem types_literal {k : Kind} (hn : node e = pure (some k)) (ht : ∀ l, HasType Γ e l ↔ l = k) :
    Types s Γ e := by
  intro a t
  simp [hn, ht]

theorem types_number (v : Value) : Types s Γ (.number v) := by
  cases v with
  | double x =>
    refine types_literal rfl fun l => ⟨fun h => ?_, fun h => h ▸ .fractional x⟩
    cases h with
    | whole hv => exact absurd rfl (hv x)
    | fractional => rfl
  | _ =>
    refine types_literal rfl fun l => ⟨fun h => ?_, fun h => h ▸ .whole (by simp)⟩
    cases h
    rfl

theorem types_truth (v : Value) : Types s Γ (.truth v) := by
  refine types_literal rfl fun l => ⟨fun h => ?_, fun h => h ▸ .truth v⟩
  cases h
  rfl

theorem types_hue (v : Value) : Types s Γ (.color v none) := by
  refine types_literal rfl fun l => ⟨fun h => ?_, fun h => h ▸ .hue v⟩
  cases h
  rfl

theorem components_eq_ok {ns : List Node} (h : ∀ n ∈ ns, Types s Γ n) {u : Unit} {t : Scope} :
    components ns s = .ok u t ↔ (∀ n ∈ ns, ∃ k, HasType Γ n k ∧ k.Numeric) ∧ t = s := by
  induction ns with
  | nil => simp [components]
  | cons n ns ih =>
    rw [List.forall_mem_cons] at h
    simp only [components, bind_eq_ok, ite_eq_ok, throw_ne_ok, and_false, or_false, h.1 _ _,
      List.forall_mem_cons]
    constructor
    · rintro ⟨_, _, ⟨⟨k, rfl, hk⟩, rfl⟩, hn, hns⟩
      obtain ⟨hall, rfl⟩ := (ih h.2).mp hns
      exact ⟨⟨⟨k, hk, isNumeric_some.mp hn⟩, hall⟩, rfl⟩
    · rintro ⟨⟨⟨k, hk, hn⟩, hall⟩, rfl⟩
      exact ⟨some k, _, ⟨⟨k, rfl, hk⟩, rfl⟩, isNumeric_some.mpr hn, (ih h.2).mpr ⟨hall, rfl⟩⟩

theorem types_mixed {r g b : Node} (hr : Types s Γ r) (hg : Types s Γ g) (hb : Types s Γ b) :
    Types s Γ (.color .absent (some [r, g, b])) := by
  intro a t
  have hparts : ∀ n ∈ [r, g, b], Types s Γ n := by simp [hr, hg, hb]
  have hnode : node (.color .absent (some [r, g, b])) = (do
      components [r, g, b]
      return some .color) := rfl
  simp only [hnode, bind_eq_ok, pure_eq_ok, components_eq_ok hparts, List.forall_mem_cons,
    List.not_mem_nil, false_implies, implies_true, and_true]
  constructor
  · rintro ⟨_, _, ⟨⟨⟨k, hk, hkn⟩, ⟨l, hl, hln⟩, m, hm, hmn⟩, rfl⟩, rfl, rfl⟩
    exact ⟨⟨.color, rfl, .mixed hk hkn hl hln hm hmn⟩, rfl⟩
  · rintro ⟨⟨_, rfl, h⟩, rfl⟩
    cases h with
    | mixed hk hkn hl hln hm hmn =>
      exact ⟨(), t, ⟨⟨⟨_, hk, hkn⟩, ⟨_, hl, hln⟩, _, hm, hmn⟩, rfl⟩, rfl, rfl⟩

theorem types_name (hs : Reads s Γ) (x : Value) : Types s Γ (.variable x) := by
  intro a t
  simp only [node, bind_eq_ok, pure_eq_ok, readVariable_eq_ok, hs x]
  constructor
  · rintro ⟨k, _, ⟨hk, rfl⟩, rfl, rfl⟩
    exact ⟨⟨k, rfl, .name hk⟩, rfl⟩
  · rintro ⟨⟨k, rfl, h⟩, rfl⟩
    cases h with
    | name hk => exact ⟨k, t, ⟨hk, rfl⟩, rfl, rfl⟩

theorem types_binary {l r : Node} {op : Kind} (hl : Types s Γ l)
    (hop : op.isArithmetic = true ∨ op.isComparison = true) (hr : Types s Γ r) :
    Types s Γ (.binary l op r) := by
  intro a t
  have htype (k : Kind) : HasType Γ (.binary l op r) k ↔
      ∃ m n, HasType Γ l m ∧ HasType Γ r n ∧ operationType op (some m) (some n) = .ok k := by
    rcases hop with hop | hop
    · simp only [hasType_arithmetic hop, operationType_arithmetic hop]
    · simp only [hasType_comparison hop,
        operationType_comparison hop (Parse.isArithmetic_of_isComparison hop)]
  simp only [node, bind_eq_ok, pure_eq_ok, ofExcept_eq_ok, hl _ _, htype]
  constructor
  · rintro ⟨_, _, ⟨⟨m, rfl, hm⟩, rfl⟩, _, _, hright, k, _, ⟨hk, rfl⟩, rfl, rfl⟩
    obtain ⟨⟨n, rfl, hn⟩, rfl⟩ := (hr _ _).mp hright
    exact ⟨⟨k, rfl, m, n, hm, hn, hk⟩, rfl⟩
  · rintro ⟨⟨k, rfl, m, n, hm, hn, hk⟩, rfl⟩
    have hright := (hr (some n) t).mpr ⟨⟨n, rfl, hn⟩, rfl⟩
    exact ⟨_, t, ⟨⟨m, rfl, hm⟩, rfl⟩, _, t, hright, k, t, ⟨hk, rfl⟩, rfl, rfl⟩

/-- The check gives every expression the type that it has. -/
theorem types_of_isExpr (hs : Reads s Γ) (he : e.IsExpr .any) : Types s Γ e := by
  induction he with
  | @number v _ => exact types_number v
  | @truth v _ => exact types_truth v
  | @hue v _ => exact types_hue v
  | mixed _ _ _ ihr ihg ihb => exact types_mixed ihr ihg ihb
  | @name x _ => exact types_name hs x
  | binary _ hop _ ihl ihr => exact types_binary ihl hop ihr

/-! ## Statements -/

/-- From the scope of any earlier steps the action succeeds exactly when the steps can follow, and
it leaves the scope of all the steps. -/
structure Walks {α : Type} (x : Check α) (steps : List Step) : Prop where
  typed : ∀ step ∈ steps, step.Typed
  ok_iff : ∀ {before : List Step}, Ready before → ∀ t, (∃ a, x (Scope.of before) = .ok a t) ↔
    Follows before steps ∧ t = Scope.of (before ++ steps)

section

variable {α β : Type} {x : Check α} {steps : List Step}

theorem walks_pure (a : α) : Walks (pure a : Check α) [] where
  typed := by simp
  ok_iff := by
    intro before hb t
    simp [Follows]

theorem Walks.bind [Nonempty α] {f : α → Check β} {steps' : List Step} (hx : Walks x steps)
    (hf : ∀ a, Walks (f a) steps') : Walks (x >>= f) (steps ++ steps') where
  typed := by
    obtain ⟨a⟩ := ‹Nonempty α›
    rw [List.forall_mem_append]
    exact ⟨hx.typed, (hf a).typed⟩
  ok_iff := by
    intro before hb t
    simp only [bind_eq_ok, follows_append]
    constructor
    · rintro ⟨b, a, u, hxu, hfu⟩
      obtain ⟨hsteps, rfl⟩ := (hx.ok_iff hb u).mp ⟨a, hxu⟩
      have hnext := hb.append hsteps hx.typed
      obtain ⟨hsteps', rfl⟩ := ((hf a).ok_iff hnext t).mp ⟨b, hfu⟩
      exact ⟨⟨hsteps, hsteps'⟩, by rw [List.append_assoc]⟩
    · rintro ⟨⟨hsteps, hsteps'⟩, rfl⟩
      obtain ⟨a, hxu⟩ := (hx.ok_iff hb _).mpr ⟨hsteps, rfl⟩
      have hnext := hb.append hsteps hx.typed
      obtain ⟨b, hfu⟩ := ((hf a).ok_iff hnext _).mpr ⟨hsteps', rfl⟩
      exact ⟨b, a, _, hxu, by rwa [List.append_assoc] at hfu⟩

theorem Walks.followed [Nonempty α] {f : α → Check β} (hx : Walks x steps)
    (hf : ∀ a, Walks (f a) []) :
    Walks (x >>= f) steps := by
  have h := hx.bind hf
  rwa [List.append_nil] at h

theorem walks_step {step : Step} (ht : step.Typed) (h : ∀ {before : List Step}, Ready before →
    ∀ t, (∃ a, x (Scope.of before) = .ok a t) ↔
      step.Fresh before ∧ step.Sound before ∧ t = Scope.of (before ++ [step])) :
    Walks x [step] where
  typed := by simpa using ht
  ok_iff := by
    intro before hb t
    rw [h hb t, follows_singleton, and_assoc]

end

theorem walks_declaration {k : Kind} (hk : k ∈ [Kind.int, .float, .bool, .color]) (x : Value)
    (he : e.IsExpr .any) : Walks (node (.varDecl (some k) x e)) [.declares (some k) x e] := by
  refine walks_step ⟨k, hk, rfl⟩ fun {before} hb t => ?_
  have hne : e ≠ .absent := by
    rintro rfl
    cases he
  have htypes (hfresh : (Step.declares (some k) x e).Fresh before) :=
    types_of_isExpr (reads_of (hb.concat hfresh ⟨k, hk, rfl⟩)) he
  simp only [node_varDecl_eq hne, bind_eq_ok, declareVariable_of e, ite_eq_ok, throw_ne_ok,
    and_false, or_false, pure_eq_ok]
  constructor
  · rintro ⟨_, _, _, ⟨hfresh, rfl⟩, _, _, hnode, hfits, rfl, rfl⟩
    obtain ⟨⟨m, rfl, hm⟩, rfl⟩ := (htypes hfresh _ _).mp hnode
    rw [context_append] at hm
    exact ⟨hfresh, ⟨m, k, rfl, hm, fits_some.mp hfits⟩, rfl⟩
  · rintro ⟨hfresh, ⟨m, k', hk', hm, hsuits⟩, rfl⟩
    obtain rfl := Option.some.inj hk'
    have hnode := (htypes hfresh (some m) _).mpr ⟨⟨m, rfl, by rwa [context_append]⟩, rfl⟩
    exact ⟨none, (), _, ⟨hfresh, rfl⟩, some m, _, hnode, fits_some.mpr hsuits, rfl, rfl⟩

theorem walks_creation (x : Value) {a b : Node} (ha : a.IsExpr .any) (hb : b.IsExpr .any) :
    Walks (node (.cursorCreation x a b)) [.creates x a b] := by
  refine walks_step trivial fun {before} hbefore t => ?_
  have hreads (hfresh : (Step.creates x a b).Fresh before) :=
    reads_of (hbefore.concat hfresh trivial)
  have hcontext : context (before ++ [.creates x a b]) = context before := by
    simp [context, entry?]
  simp only [node, bind_eq_ok, declareCursor_of a b, ite_eq_ok, throw_ne_ok, and_false, or_false,
    pure_eq_ok, Bool.and_eq_true]
  constructor
  · rintro ⟨_, _, _, ⟨hfresh, rfl⟩, _, _, hx, _, _, hy, ⟨hxn, hyn⟩, rfl, rfl⟩
    obtain ⟨⟨k, rfl, hk⟩, rfl⟩ := (types_of_isExpr (hreads hfresh) ha _ _).mp hx
    obtain ⟨⟨l, rfl, hl⟩, rfl⟩ := (types_of_isExpr (hreads hfresh) hb _ _).mp hy
    rw [hcontext] at hk hl
    exact ⟨hfresh, ⟨k, l, hk, isNumeric_some.mp hxn, hl, isNumeric_some.mp hyn⟩, rfl⟩
  · rintro ⟨hfresh, ⟨k, l, hk, hkn, hl, hln⟩, rfl⟩
    rw [← hcontext] at hk hl
    have hx := (types_of_isExpr (hreads hfresh) ha (some k) _).mpr ⟨⟨k, rfl, hk⟩, rfl⟩
    have hy := (types_of_isExpr (hreads hfresh) hb (some l) _).mpr ⟨⟨l, rfl, hl⟩, rfl⟩
    exact ⟨none, (), _, ⟨hfresh, rfl⟩, some k, _, hx, some l, _, hy,
      ⟨isNumeric_some.mpr hkn, isNumeric_some.mpr hln⟩, rfl, rfl⟩

/-- An action that declares nothing walks a step if it succeeds exactly when the step is sound. -/
theorem walks_unnamed {α : Type} {x : Check α} {step : Step} (h : step.name? = none)
    (hx : ∀ {before : List Step}, Ready before →
      ∀ t, (∃ a, x (Scope.of before) = .ok a t) ↔ step.Sound before ∧ t = Scope.of before) :
    Walks x [step] := by
  refine walks_step ?_ fun {before} hb t => ?_
  · cases step with
    | declares => cases h
    | creates | assigns | calls | tests => trivial
  · have hfresh : step.Fresh before := by simp [Fresh, h]
    rw [hx hb t, of_concat h]
    simp [hfresh]

theorem walks_assignment (x : Value) (he : e.IsExpr .any) :
    Walks (node (.assign x e)) [.assigns x e] := by
  refine walks_unnamed rfl fun {before} hb t => ?_
  have hreads := reads_of hb
  simp only [node, bind_eq_ok, readVariable_eq_ok, hreads x, ite_eq_ok, throw_ne_ok, and_false,
    or_false, pure_eq_ok]
  constructor
  · rintro ⟨_, k, _, ⟨hk, rfl⟩, _, _, hnode, hfits, rfl, rfl⟩
    obtain ⟨⟨m, rfl, hm⟩, rfl⟩ := (types_of_isExpr hreads he _ _).mp hnode
    exact ⟨⟨m, k, hk, hm, fits_some.mp hfits⟩, rfl⟩
  · rintro ⟨⟨m, k, hk, hm, hsuits⟩, rfl⟩
    have hnode := (types_of_isExpr hreads he (some m) _).mpr ⟨⟨m, rfl, hm⟩, rfl⟩
    exact ⟨none, k, _, ⟨hk, rfl⟩, some m, _, hnode, fits_some.mpr hsuits, rfl, rfl⟩

theorem walks_test (guard : Guard) (he : e.IsTest .any) :
    Walks (do requireTruth guard (← node e)) [.tests e] := by
  refine walks_unnamed rfl fun {before} hb t => ?_
  have htypes := types_of_isExpr (reads_of hb) (he.isExpr Vocabulary.isCoarse_any)
  simp only [bind_eq_ok, requireTruth_eq_ok, htypes _ _]
  constructor
  · rintro ⟨_, _, _, ⟨⟨k, rfl, hk⟩, rfl⟩, htruth, rfl⟩
    obtain rfl := Option.some.inj htruth
    exact ⟨hk, rfl⟩
  · rintro ⟨hk, rfl⟩
    exact ⟨(), _, _, ⟨⟨_, rfl, hk⟩, rfl⟩, rfl, rfl⟩

theorem arguments_eq_ok {s : Scope} {Γ : List (Value × Option Kind)} {error : ScopeError}
    {given : List Node} (h : ∀ n ∈ given, Types s Γ n) {types : List Kind}
    (hlen : given.length = types.length) {u : Unit} {t : Scope} :
    arguments error given types s = .ok u t ↔
      List.Forall₂ (fun e m => ∃ k, HasType Γ e k ∧ k.Suits m) given types ∧ t = s := by
  induction given generalizing types with
  | nil =>
    obtain rfl := List.length_eq_zero_iff.mp hlen.symm
    simp [arguments]
  | cons n given ih =>
    obtain ⟨m, types, rfl⟩ := List.exists_cons_of_length_eq_add_one hlen.symm
    rw [List.forall_mem_cons] at h
    have hrest := ih h.2 (Nat.succ.inj hlen)
    simp only [arguments, bind_eq_ok, ite_eq_ok, throw_ne_ok, and_false, or_false, h.1 _ _,
      List.forall₂_cons]
    constructor
    · rintro ⟨_, _, ⟨⟨k, rfl, hk⟩, rfl⟩, hfits, hmore⟩
      obtain ⟨hall, rfl⟩ := hrest.mp hmore
      exact ⟨⟨⟨k, hk, fits_some.mp hfits⟩, hall⟩, rfl⟩
    · rintro ⟨⟨⟨k, hk, hsuits⟩, hall⟩, rfl⟩
      exact ⟨some k, _, ⟨⟨k, rfl, hk⟩, rfl⟩, fits_some.mpr hsuits, hrest.mpr ⟨hall, rfl⟩⟩

theorem lookup_methods {method : Value} {types : List Kind} :
    methods.lookup method = some types ↔ (method, types) ∈ methods :=
  lookup_eq_some_iff_mem (by decide)

theorem walks_calling (arity : ℕ → ScopeError) (error : ScopeError) (cursor method : Value)
    {given : List Node} (hg : ∀ n ∈ given, n.IsExpr .any) :
    Walks (calling arity error cursor method given) [.calls cursor method given] := by
  refine walks_unnamed rfl fun {before} hb t => ?_
  have htypes (n : Node) (hn : n ∈ given) := types_of_isExpr (reads_of hb) (hg n hn)
  have hcursor : (Scope.of before).isCursor cursor = true ↔ cursor ∈ Step.cursors before := by
    simp [Scope.isCursor, Scope.of]
  simp only [calling, bind_eq_ok, signature_eq_ok, hcursor, lookup_methods, ite_eq_ok, throw_ne_ok,
    and_false, false_or, not_not, pure_eq_ok]
  constructor
  · rintro ⟨_, types, _, ⟨hc, hm, rfl⟩, hlen, _, _, hargs, rfl, rfl⟩
    obtain ⟨hall, rfl⟩ := (arguments_eq_ok htypes hlen).mp hargs
    exact ⟨⟨hc, types, hm, hall⟩, rfl⟩
  · rintro ⟨⟨hc, types, hm, hall⟩, rfl⟩
    have hargs := (@arguments_eq_ok _ _ error _ htypes _ hall.length_eq () _).mpr ⟨hall, rfl⟩
    exact ⟨none, types, _, ⟨hc, hm, rfl⟩, hall.length_eq, (), _, hargs, rfl, rfl⟩

/-! ## Whole programs -/

theorem walks_start {n : Node} (h : n.IsStart .any) : Walks (node n) n.steps := by
  cases h with
  | declaration hd =>
    obtain ⟨hk, -, -, he⟩ := hd
    exact walks_declaration hk _ he
  | assignment ha =>
    obtain ⟨-, he⟩ := ha
    exact walks_assignment _ he

theorem walks_all {ns : List Node} (h : ∀ n ∈ ns, Walks (node n) n.steps) :
    Walks (all ns) (Node.stepsAll ns) := by
  induction ns with
  | nil => exact walks_pure ()
  | cons n ns ih =>
    rw [List.forall_mem_cons] at h
    exact h.1.bind fun _ => ih h.2

theorem walks_arms {as : List (Node × List Node)} (ht : ∀ arm ∈ as, arm.1.IsTest .any)
    (hb : ∀ arm ∈ as, ∀ n ∈ arm.2, Walks (node n) n.steps) :
    Walks (arms as) (Node.stepsArms as) := by
  induction as with
  | nil => exact walks_pure ()
  | cons arm as ih =>
    rw [List.forall_mem_cons] at ht hb
    have htest := walks_test .alternative ht.1
    have h := htest.bind fun _ => (walks_all hb.1).bind fun _ => ih ht.2 hb.2
    rwa [bind_assoc] at h

/-- The steps of a branch; a missing last block counts as an empty one. -/
theorem steps_branch (test : Node) (body : List Node) (as : List (Node × List Node))
    (otherwise : Option (List Node)) : (Node.branch test body as otherwise).steps =
      .tests test :: (Node.stepsAll body ++ (Node.stepsArms as ++
        Node.stepsAll (otherwise.getD []))) := by
  cases otherwise <;> rfl

theorem walks_of_isStatement {n : Node} (h : n.IsStatement .any) : Walks (node n) n.steps := by
  induction h with
  | declaration hd => exact walks_start (.declaration hd)
  | assignment _ _ he => exact walks_assignment _ he
  | creation _ ha hb => exact walks_creation _ ha hb
  | change _ _ _ hns => exact walks_calling _ _ _ _ hns
  | draw _ _ _ hns => exact walks_calling _ _ _ _ hns
  | @branch test body as otherwise ht _ ha _ _ ihb iha iho =>
    have hlast : ∀ n ∈ otherwise.getD [], Walks (node n) n.steps := by
      cases otherwise with
      | none => simp
      | some block => exact iho block rfl
    rw [node_branch, steps_branch]
    have h := (walks_test .branch ht).bind fun _ => (walks_all ihb).bind fun _ =>
      (walks_arms ha iha).bind fun _ => (walks_all hlast).followed fun _ =>
        walks_pure (none : Option Kind)
    rwa [bind_assoc] at h
  | whileLoop ht _ ihb =>
    have h := (walks_test .whileLoop ht).bind fun _ =>
      (walks_all ihb).followed fun _ => walks_pure (none : Option Kind)
    rwa [bind_assoc] at h
  | forLoop hi ht hu _ ihb =>
    have h := (walks_start hi).bind fun _ => (walks_test .forLoop ht).bind fun _ =>
      (walks_start (.assignment hu)).bind fun _ => (walks_all ihb).followed fun _ =>
        walks_pure (none : Option Kind)
    simp only [bind_assoc] at h
    exact h

end Check

open Check

theorem check_program_iff_wellFormed {ns : List Node} (hns : ∀ n ∈ ns, n.IsStatement .any) :
    (Node.program ns).check = .ok () ↔ (Node.program ns).WellFormed := by
  have hwalks : Walks (all ns) (Node.program ns).steps :=
    walks_all fun n hn => walks_of_isStatement (hns n hn)
  have hall (t : Scope) : all ns .empty = .ok () t ↔
      Follows [] (Node.program ns).steps ∧ t = Scope.of (Node.program ns).steps :=
    Iff.trans ⟨fun h => ⟨(), h⟩, fun ⟨(), h⟩ => h⟩ (hwalks.ok_iff ready_nil t)
  have hready (hf : Follows [] (Node.program ns).steps) : Ready (Node.program ns).steps :=
    ready_nil.append hf hwalks.typed
  simp only [check_program_eq_ok, hall, windowDimensions_eq_ok]
  constructor
  · rintro ⟨t, ⟨hf, rfl⟩, ⟨hw, hh⟩, -⟩
    obtain ⟨hnodup, hsound⟩ := follows_nil_iff.mp hf
    exact ⟨hnodup, (typeOf?_of (hready hf)).mp hw, (typeOf?_of (hready hf)).mp hh, hsound⟩
  · rintro ⟨hnodup, hw, hh, hsound⟩
    have hf := follows_nil_iff.mpr ⟨hnodup, hsound⟩
    exact ⟨_, ⟨hf, rfl⟩, ⟨(typeOf?_of (hready hf)).mpr hw, (typeOf?_of (hready hf)).mpr hh⟩,
      trivial⟩

/-- The check accepts a program that is read from tokens exactly when the program keeps the static
rules. -/
theorem check_eq_ok_iff_wellFormed {tokens : List Token} {tree : Node}
    (h : Node.ofTokens tokens = .ok tree) : tree.check = .ok () ↔ tree.WellFormed := by
  obtain ⟨ns, rfl, hns⟩ := isStatement_of_ofTokens h
  exact check_program_iff_wellFormed hns

/-- The words of a program with a branch inside a loop, in lines. The branch uses the variable of
the header and a cursor declared outside. -/
def loopWords : List (List (Kind × Value)) :=
  [[(.var, "var"), (.int, "int"), (.identifier, "windowWidth"), (.assign, "="),
      (.number, .int 400), (.semicolon, ";")],
    [(.var, "var"), (.int, "int"), (.identifier, "windowHeight"), (.assign, "="),
      (.identifier, "windowWidth"), (.semicolon, ";")],
    [(.cursor, "cursor"), (.identifier, "c"), (.assign, "="), (.createCursor, "create_cursor"),
      (.leftParen, "("), (.number, .int 1), (.comma, ","), (.identifier, "windowWidth"),
      (.rightParen, ")"), (.semicolon, ";")],
    [(.forWord, "for"), (.leftParen, "("), (.var, "var"), (.int, "int"), (.identifier, "i"),
      (.assign, "="), (.number, .int 0), (.semicolon, ";"), (.identifier, "i"), (.less, "<"),
      (.number, .int 3), (.semicolon, ";"), (.identifier, "i"), (.plusEqual, "+="),
      (.number, .int 1), (.rightParen, ")"), (.leftBrace, "\x7b")],
    [(.ifWord, "if"), (.leftParen, "("), (.identifier, "i"), (.equal, "=="), (.number, .int 1),
      (.rightParen, ")"), (.leftBrace, "\x7b")],
    [(.identifier, "c"), (.dot, "."), (.move, "move"), (.leftParen, "("), (.identifier, "i"),
      (.rightParen, ")"), (.semicolon, ";")],
    [(.rightBrace, "\x7d"), (.semicolon, ";"), (.rightBrace, "\x7d"), (.semicolon, ";")],
    [(.endOfInput, .absent)]]

def loopTokens : List Token := loopWords.flatten.map fun e => ⟨e.1, e.2, 1, 1⟩

theorem check_eq_ok_iff_wellFormed_loop : ∃ tree, Node.ofTokens loopTokens = .ok tree ∧
    tree.check = .ok () ∧ tree.WellFormed := by
  have hc : ((Node.ofTokens loopTokens).toOption.any fun tree => decide (tree.check = .ok ())) =
      true := by decide +kernel
  cases hn : Node.ofTokens loopTokens with
  | error e =>
    rw [hn] at hc
    cases hc
  | ok tree =>
    rw [hn] at hc
    have haccepted : tree.check = .ok () := of_decide_eq_true hc
    exact ⟨tree, rfl, haccepted, (check_eq_ok_iff_wellFormed hn).mp haccepted⟩

end DrawPlus
