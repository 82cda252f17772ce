import DrawPlus.Proofs.Parsing.Congruence
import DrawPlus.Proofs.Scope.Formulas
import DrawPlus.Proofs.Parsing.Forms

/-!
# What a program can be refused for

A tree may be refused for all kinds of reasons. One that is read from a text is refused for a name
that it has, for a call of a method of the language, or for the types of expressions, which are
types of the language (`IsOrdinary`). It never has a method, an operator or a node that the check
does not know. That types are types of the language is an invariant of the scope, and it is carried
along.
-/

namespace DrawPlus

variable {w : String} {e : ScopeError} {n : Node}

namespace ScopeError

def name? : ScopeError → Option Value
  | .nameTaken name | .variableTaken name | .undeclared name | .initializer name
  | .assignment name | .notCursor name => some name
  | _ => none

/-- The types that can be missing, and if not, are types of the language. -/
def IsType (type : Option Kind) : Prop := ∀ k ∈ type, k.IsNative

/-- What a program that is read from a text can be refused for. -/
inductive IsOrdinary : ScopeError → Prop
  | name {e : ScopeError} {w : String} : e.name? = some (.text w) → IsName w → IsOrdinary e
  | methodArity {m : Value} {types : List Kind} : (m, types) ∈ Check.methods →
      IsOrdinary (.methodArity m types.length)
  | methodArgument {m : Value} {types : List Kind} : (m, types) ∈ Check.methods →
      IsOrdinary (.methodArgument m)
  | shapeArity {m : Value} {types : List Kind} : (m, types) ∈ Check.methods →
      IsOrdinary (.shapeArity m types.length)
  | shapeArgument {m : Value} {types : List Kind} : (m, types) ∈ Check.methods →
      IsOrdinary (.shapeArgument m)
  | arithmetic {left right : Option Kind} : IsType left → IsType right →
      IsOrdinary (.arithmetic left right)
  | comparison {left right : Option Kind} : IsType left → IsType right →
      IsOrdinary (.comparison left right)
  | coordinates : IsOrdinary .coordinates
  | components : IsOrdinary .components
  | condition (guard : Guard) : IsOrdinary (.condition guard)

theorem IsOrdinary.isName (h : e.IsOrdinary) (hname : e.name? = some (.text w)) : IsName w := by
  cases h with
  | name hsome hw =>
    obtain rfl : w = _ := Value.text.inj (Option.some.inj (hname.symm.trans hsome))
    exact hw
  | _ => cases hname

end ScopeError

namespace Check

open Node ScopeError

/-- The variables in the scope have types of the language. -/
def Typed (s : Scope) : Prop := ∀ entry ∈ s.declared, IsType entry.2

/-- From a scope with types of the language, the action leaves such a scope and gives a result with
the property, or it is refused for an ordinary reason. -/
def Refuses {α : Type} (Q : α → Prop) (x : Check α) : Prop :=
  ∀ s, Typed s → (∀ a t, x s = .ok a t → Q a ∧ Typed t) ∧ ∀ e t, x s = .error e t → e.IsOrdinary

section

variable {α β : Type} {Q : α → Prop} {R : β → Prop}

theorem refuses_pure {a : α} (h : Q a) : Refuses Q (pure a : Check α) := by
  intro s hs
  constructor
  · intro b t hb
    obtain ⟨rfl, rfl⟩ := pure_eq_ok.mp hb
    exact ⟨h, hs⟩
  · intro e t he
    cases he

theorem Refuses.bind {x : Check α} {f : α → Check β} (hx : Refuses Q x)
    (hf : ∀ a, Q a → Refuses R (f a)) : Refuses R (x >>= f) := by
  intro s hs
  obtain ⟨hok, herror⟩ := hx s hs
  constructor
  · intro b t hb
    obtain ⟨a, u, ha, hb⟩ := bind_eq_ok.mp hb
    obtain ⟨hQ, hu⟩ := hok a u ha
    exact (hf a hQ u hu).1 b t hb
  · intro e t he
    rcases bind_eq_error.mp he with he | ⟨a, u, ha, he⟩
    · exact herror e t he
    · obtain ⟨hQ, hu⟩ := hok a u ha
      exact (hf a hQ u hu).2 e t he

theorem refuses_throw (h : e.IsOrdinary) : Refuses Q (throw e : Check α) := by
  refine fun s _ => ⟨fun a t ha => absurd ha throw_ne_ok, fun e' t he => ?_⟩
  cases he
  exact h

theorem refuses_ite {p : Prop} [Decidable p] {x y : Check α} (hx : Refuses Q x)
    (hy : Refuses Q y) : Refuses Q (if p then x else y) := by
  split_ifs
  · exact hx
  · exact hy

end

/-! ## The single actions -/

theorem refuses_declare {declaration : Scope → Except ScopeError Scope}
    (hok : ∀ s t, Typed s → declaration s = .ok t → Typed t)
    (herror : ∀ s e, declaration s = .error e → e.IsOrdinary) :
    Refuses (fun _ => True) (declare declaration) := by
  intro s hs
  unfold declare
  cases hd : declaration s with
  | ok t =>
    refine ⟨fun a t' ha => ?_, fun e t' he => ?_⟩
    · cases ha
      exact ⟨trivial, hok s t hs hd⟩
    · cases he
  | error e =>
    refine ⟨fun a t' ha => ?_, fun e' t' he => ?_⟩
    · cases ha
    · cases he
      exact herror s e hd

theorem refuses_define (hw : IsName w) {type : Option Kind} (h : IsType type) :
    Refuses (fun _ => True) (declare (·.define w type)) := by
  refine refuses_declare (fun s t hs hd => ?_) fun s e hd => ?_
  · unfold Scope.define at hd
    split_ifs at hd
    cases hd
    intro entry hmem
    rcases List.mem_append.mp hmem with hmem | hmem
    · exact hs entry hmem
    · obtain rfl := List.mem_singleton.mp hmem
      exact h
  · unfold Scope.define at hd
    split_ifs at hd
    cases hd
    exact .name rfl hw

theorem refuses_declareVariable (hw : IsName w) {type : Option Kind} (h : IsType type) :
    Refuses (fun _ => True) (declareVariable w type) := by
  intro s hs
  unfold declareVariable
  split_ifs
  · refine ⟨fun a t ha => ?_, fun e t he => ?_⟩
    · cases ha
    · cases he
      exact .name rfl hw
  · exact refuses_define hw h s hs

theorem refuses_defineCursor (hw : IsName w) :
    Refuses (fun _ => True) (declare (·.defineCursor w)) := by
  refine refuses_declare (fun s t hs hd => ?_) fun s e hd => ?_
  · unfold Scope.defineCursor at hd
    split_ifs at hd
    cases hd
    exact hs
  · unfold Scope.defineCursor at hd
    split_ifs at hd
    cases hd
    exact .name rfl hw

theorem isNative_of_readable? {s : Scope} (hs : Typed s) {name : Value} {k : Kind}
    (h : s.readable? name = some k) : k.IsNative := by
  have htype : s.typeOf? name = some k := by
    unfold Scope.readable? at h
    split at h
    · cases h
    · exact h
  have hlookup : s.declared.lookup name = some (some k) := Option.join_eq_some_iff.mp htype
  obtain ⟨before, after, heq, -⟩ := List.lookup_eq_some_iff.mp hlookup
  exact hs (name, some k) (by rw [heq]; simp) k rfl

theorem refuses_readVariable (hw : IsName w) : Refuses Kind.IsNative (readVariable w) := by
  intro s hs
  constructor
  · intro k t hk
    obtain ⟨hk, rfl⟩ := readVariable_eq_ok.mp hk
    exact ⟨isNative_of_readable? hs hk, hs⟩
  · intro e t he
    unfold readVariable at he
    split at he <;> cases he
    exact .name rfl hw

/-- The method is one of the language. -/
theorem refuses_signature (hw : IsName w) {method : Value}
    (hm : (methods.lookup method).isSome = true) :
    Refuses (fun types => (method, types) ∈ methods) (signature w method) := by
  intro s hs
  constructor
  · intro types t htypes
    obtain ⟨-, hlookup, rfl⟩ := signature_eq_ok.mp htypes
    obtain ⟨before, after, heq, -⟩ := List.lookup_eq_some_iff.mp hlookup
    exact ⟨by rw [heq]; simp, hs⟩
  · intro e t he
    unfold signature at he
    split_ifs at he
    · obtain ⟨types, htypes⟩ := Option.isSome_iff_exists.mp hm
      rw [htypes] at he
      cases he
    · cases he
      exact .name rfl hw

theorem refuses_requireTruth (guard : Guard) (type : Option Kind) :
    Refuses (fun _ => True) (requireTruth guard type) :=
  refuses_ite (refuses_pure trivial) (refuses_throw (.condition guard))

theorem refuses_operationType {operator : Kind}
    (hop : operator.isArithmetic = true ∨ operator.isComparison = true) {left right : Option Kind}
    (hl : IsType left) (hr : IsType right) :
    Refuses Kind.IsNative (ofExcept (operationType operator left right)) := by
  intro s hs
  constructor
  · intro k t hk
    obtain ⟨hk, rfl⟩ := ofExcept_eq_ok.mp hk
    refine ⟨?_, hs⟩
    unfold operationType at hk
    split_ifs at hk <;> cases hk <;> trivial
  · intro e t he
    unfold ofExcept operationType at he
    split_ifs at he with harithmetic _ hcomparison <;> cases he
    · exact .arithmetic hl hr
    · exact .comparison hl hr
    · exact absurd hop (by simp [harithmetic, hcomparison])

/-! ## Nodes -/

theorem isType_some {k : Kind} (h : k.IsNative) : IsType (some k) := by
  rintro _ ⟨⟩
  exact h

theorem refuses_of_isExpr (h : n.IsExpr .lexed) : Refuses IsType (node n) := by
  induction h with
  | number hv =>
    cases hv with
    | int n => exact refuses_pure (isType_some trivial)
    | double hx => exact refuses_pure (isType_some trivial)
  | truth _ => exact refuses_pure (isType_some trivial)
  | hue _ =>
    have hnothing : Refuses (fun _ => True) (pure () : Check Unit) := refuses_pure trivial
    exact hnothing.bind fun _ _ => refuses_pure (@isType_some .color trivial)
  | mixed _ _ _ hr hg hb =>
    refine Refuses.bind (Q := fun _ => True) ?_ fun _ _ => refuses_pure (isType_some trivial)
    refine hr.bind fun _ _ => refuses_ite ?_ (refuses_throw .components)
    refine hg.bind fun _ _ => refuses_ite ?_ (refuses_throw .components)
    exact hb.bind fun _ _ => refuses_ite (refuses_pure trivial) (refuses_throw .components)
  | name hx =>
    obtain ⟨w, rfl, hw⟩ := hx
    exact (refuses_readVariable hw).bind fun _ hk => refuses_pure (isType_some hk)
  | binary _ hop _ hl hr =>
    exact hl.bind fun _ hl => hr.bind fun _ hr => (refuses_operationType hop hl hr).bind fun _ hk =>
      refuses_pure (isType_some hk)

theorem refuses_of_isTest (h : n.IsTest .lexed) : Refuses IsType (node n) :=
  refuses_of_isExpr (h.isExpr Vocabulary.isCoarse_lexed)

theorem refuses_all {ns : List Node} (h : ∀ n ∈ ns, Refuses IsType (node n)) :
    Refuses (fun _ => True) (all ns) := by
  induction ns with
  | nil => exact refuses_pure trivial
  | cons n ns ih =>
    rw [List.forall_mem_cons] at h
    exact h.1.bind fun _ _ => ih h.2

theorem refuses_arms {as : List (Node × List Node)} (ht : ∀ arm ∈ as, arm.1.IsTest .lexed)
    (hb : ∀ arm ∈ as, ∀ n ∈ arm.2, Refuses IsType (node n)) :
    Refuses (fun _ => True) (arms as) := by
  induction as with
  | nil => exact refuses_pure trivial
  | cons arm as ih =>
    rw [List.forall_mem_cons] at ht hb
    exact (refuses_of_isTest ht.1).bind fun _ _ => (refuses_requireTruth _ _).bind fun _ _ =>
      (refuses_all hb.1).bind fun _ _ => ih ht.2 hb.2

theorem refuses_arguments (he : e.IsOrdinary) {ns : List Node} (h : ∀ n ∈ ns, n.IsExpr .lexed)
    (types : List Kind) : Refuses (fun _ => True) (arguments e ns types) := by
  induction ns generalizing types with
  | nil => exact refuses_pure trivial
  | cons n ns ih =>
    rw [List.forall_mem_cons] at h
    cases types with
    | nil => exact refuses_pure trivial
    | cons type types =>
      exact (refuses_of_isExpr h.1).bind fun _ _ => refuses_ite (ih h.2 types) (refuses_throw he)

theorem isType_none : IsType none := nofun

theorem refuses_calling {arity : ℕ → ScopeError} {argument : ScopeError} {method : Value}
    {given : List Node} (hw : IsName w) (hm : (methods.lookup method).isSome = true)
    (ha : ∀ types, (method, types) ∈ methods → (arity types.length).IsOrdinary)
    (he : ∀ types, (method, types) ∈ methods → argument.IsOrdinary)
    (h : ∀ n ∈ given, n.IsExpr .lexed) : Refuses IsType (calling arity argument w method given) :=
  (refuses_signature hw hm).bind fun types ht => refuses_ite (refuses_throw (ha types ht))
    ((refuses_arguments (he types ht) h types).bind fun _ _ => refuses_pure isType_none)

theorem refuses_of_isStart (h : n.IsStart .lexed) : Refuses IsType (node n) := by
  cases h with
  | declaration h =>
    obtain @⟨k, x, e, hk, ⟨w, rfl, hw⟩, -, he⟩ := h
    have hnative : k.IsNative := by
      simp only [List.mem_cons, List.not_mem_nil, or_false] at hk
      rcases hk with rfl | rfl | rfl | rfl <;> trivial
    rw [node_varDecl_eq (by rintro rfl; cases he)]
    exact (refuses_declareVariable hw (isType_some hnative)).bind fun _ _ =>
      (refuses_of_isExpr he).bind fun _ _ =>
        refuses_ite (refuses_pure isType_none) (refuses_throw (.name rfl hw))
  | assignment h =>
    obtain ⟨⟨w, rfl, hw⟩, he⟩ := h
    exact (refuses_readVariable hw).bind fun _ _ => (refuses_of_isExpr he).bind fun _ _ =>
      refuses_ite (refuses_pure isType_none) (refuses_throw (.name rfl hw))

theorem refuses_of_isStatement (h : n.IsStatement .lexed) : Refuses IsType (node n) := by
  induction h with
  | declaration h => exact refuses_of_isStart (.declaration h)
  | assignment hw _ he => exact refuses_of_isStart (.assignment (.intro hw he))
  | creation hw hx hy =>
    obtain ⟨w, rfl, hw⟩ := hw
    exact (refuses_defineCursor hw).bind fun _ _ => (refuses_of_isExpr hx).bind fun _ _ =>
      (refuses_of_isExpr hy).bind fun _ _ =>
        refuses_ite (refuses_pure isType_none) (refuses_throw .coordinates)
  | change hw _ hm hns =>
    obtain ⟨w, rfl, hw⟩ := hw
    obtain ⟨m, hm, rfl⟩ := hm
    have hknown : ∀ m ∈ changeWords, (methods.lookup (.text m)).isSome = true := by decide
    rw [node_cursorMethod]
    exact refuses_calling hw (hknown _ hm) (fun _ => .methodArity) (fun _ => .methodArgument) hns
  | draw hw _ hm hns =>
    obtain ⟨w, rfl, hw⟩ := hw
    obtain ⟨m, hm, rfl⟩ := hm
    have hknown : ∀ m ∈ drawWords, (methods.lookup (.text m)).isSome = true := by decide
    rw [node_drawCommand]
    exact refuses_calling hw (hknown _ hm) (fun _ => .shapeArity) (fun _ => .shapeArgument) hns
  | @branch test body as otherwise ht _ ha _ _ ihb iha iho =>
    have hlast : ∀ n ∈ otherwise.getD [], Refuses IsType (node n) := by
      cases otherwise with
      | none => simp
      | some block => exact iho block rfl
    rw [node_branch]
    exact (refuses_of_isTest ht).bind fun _ _ => (refuses_requireTruth _ _).bind fun _ _ =>
      (refuses_all ihb).bind fun _ _ => (refuses_arms ha iha).bind fun _ _ =>
      (refuses_all hlast).bind fun _ _ => refuses_pure isType_none
  | whileLoop ht _ ihb =>
    exact (refuses_of_isTest ht).bind fun _ _ => (refuses_requireTruth _ _).bind fun _ _ =>
      (refuses_all ihb).bind fun _ _ => refuses_pure isType_none
  | forLoop hi ht hu _ ihb =>
    exact (refuses_of_isStart hi).bind fun _ _ => (refuses_of_isTest ht).bind fun _ _ =>
      (refuses_requireTruth _ _).bind fun _ _ =>
      (refuses_of_isStart (.assignment hu)).bind fun _ _ =>
      (refuses_all ihb).bind fun _ _ => refuses_pure isType_none

theorem refuses_windowDimensions : Refuses (fun _ => True) windowDimensions := by
  have hwidth : IsName "windowWidth" :=
    ⟨⟨'w', "indowWidth".toList, rfl, by decide, by simp [isWordChar_of_ascii]⟩, by decide⟩
  have hheight : IsName "windowHeight" :=
    ⟨⟨'w', "indowHeight".toList, rfl, by decide, by simp [isWordChar_of_ascii]⟩, by decide⟩
  intro s hs
  constructor
  · intro a t ha
    obtain ⟨-, rfl⟩ := windowDimensions_eq_ok.mp ha
    exact ⟨trivial, hs⟩
  · intro e t he
    unfold windowDimensions at he
    split_ifs at he <;> cases he
    · exact .name rfl hwidth
    · exact .name rfl hheight

end Check

/-- A program that is read from a text is refused for an ordinary reason if it is refused. -/
theorem isOrdinary_of_check {source : String} {tree : Node} (h : Node.ofText source = .ok tree)
    (he : tree.check = .error e) : e.IsOrdinary := by
  obtain ⟨ns, rfl, hns⟩ := isStatement_of_ofText h
  have hnode : Check.Refuses ScopeError.IsType (Check.node (.program ns)) :=
    (Check.refuses_all fun n hn => Check.refuses_of_isStatement (hns n hn)).bind fun _ _ =>
      Check.refuses_pure Check.isType_none
  unfold Node.check at he
  split at he
  case h_1 => cases he
  case h_2 e' t ht =>
    cases he
    have hempty : Check.Typed .empty := by simp [Check.Typed, Scope.empty]
    exact ((hnode.bind fun _ _ => Check.refuses_windowDimensions) .empty hempty).2 e t ht

end DrawPlus
