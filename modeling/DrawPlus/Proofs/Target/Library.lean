import DrawPlus.Proofs.Scope.Operands
import DrawPlus.Proofs.Target.Acceptance

/-!
# Calls of the library

The generated program draws by calling a library. For every accepted program, each statement that
creates a cursor, changes one other than in its thickness, or draws a shape has become one call, at
the place at which the statement stands. The call gives the function what its prototype asks for:
the cursor, and for every other parameter an expression whose type the parameter admits.

Statements are found by a path from the outermost ones through blocks, in the same way in trees of
both languages (`at?`). That the tables of the check and of the code fit the prototypes is left to
computation (`prototype_of_call`); everything else is about types, which only the check knows.
-/

namespace DrawPlus

variable {n : Node} {a : Option Kind} {s t : Scope} {ns given : List Node} {α β : Type}

/-! ## Prototypes -/

namespace Target

inductive LibraryType where
  | double
  | int
  | bool
  | color
  /-- a reference to a cursor -/
  | cursor
deriving DecidableEq

/-- A function of the library, with the type of its result if it has one. -/
structure Prototype where
  name : String
  result : Option LibraryType
  parameters : List LibraryType
deriving DecidableEq

/-- The functions of the library that work on cursors and on the canvas. -/
def library : List Prototype :=
  [⟨"create_cursor", some .cursor, [.double, .double]⟩,
    ⟨"move_cursor", none, [.cursor, .double]⟩,
    ⟨"rotate_cursor", none, [.cursor, .double]⟩,
    ⟨"set_cursor_color", none, [.cursor, .color]⟩,
    ⟨"set_cursor_visibility", none, [.cursor, .bool]⟩,
    ⟨"set_cursor_thickness", none, [.cursor, .int]⟩,
    ⟨"clear_area", none, [.int, .int, .int, .int]⟩,
    ⟨"cursor_draw_line", none, [.cursor, .double]⟩,
    ⟨"cursor_draw_rectangle", none, [.cursor, .double, .double, .bool]⟩,
    ⟨"cursor_draw_circle", none, [.cursor, .double, .bool]⟩,
    ⟨"cursor_draw_triangle", none, [.cursor, .double, .double, .bool]⟩,
    ⟨"cursor_draw_ellipse", none, [.cursor, .double, .double, .bool]⟩,
    ⟨"print_cursor_position", none, [.cursor]⟩]

/-- The types of expressions that a parameter admits. -/
def LibraryType.Admits : LibraryType → Kind → Prop
  | .double, k => k = .int ∨ k = .float
  | .bool, k => k = .boolValue
  | .color, k => k = .color
  | .int, _ | .cursor, _ => False

/-! ## Places -/

/-- The statement at a place: the one at an index, or one inside a block of the statement at an
index. -/
def at? {α : Type} (blocks : α → List (List α)) : List (ℕ × ℕ) → ℕ → List α → Option α
  | [], i, statements => statements[i]?
  | (i, b) :: path, j, statements =>
    statements[i]?.bind fun s => (blocks s)[b]?.bind fun block => at? blocks path j block

/-- The blocks of a statement of the generated language. -/
def Stmt.blocks : Stmt → List (List Stmt)
  | .branch _ body arms otherwise => body :: (arms.map Prod.snd ++ [otherwise.getD []])
  | .whileLoop _ body | .forLoop _ _ _ body => [body]
  | .simple _ => []

end Target

def Node.blocks : Node → List (List Node)
  | .branch _ body arms otherwise => body :: (arms.map Prod.snd ++ [otherwise.getD []])
  | .whileLoop _ body | .forLoop _ _ _ body => [body]
  | _ => []

namespace Target

theorem forall₂_of_translatesAll {ss : List Stmt} (h : TranslatesAll ns ss) :
    List.Forall₂ Translates ns ss := by
  induction ns generalizing ss with
  | nil =>
    cases h
    exact .nil
  | cons n ns ih =>
    cases h with
    | cons hn hns => exact .cons hn (ih hns)

theorem forall₂_arms {arms : List (Node × List Node)} {arms' : List (Expr × List Stmt)}
    (h : TranslatesArms arms arms') :
    List.Forall₂ (List.Forall₂ Translates) (arms.map Prod.snd) (arms'.map Prod.snd) := by
  induction arms generalizing arms' with
  | nil =>
    cases h
    exact .nil
  | cons arm arms ih =>
    cases h with
    | cons ht hb ha => exact .cons (forall₂_of_translatesAll hb) (ih ha)

/-- The blocks of a translation are the translations of the blocks. -/
theorem forall₂_blocks {s : Stmt} (h : Translates n s) :
    List.Forall₂ (List.Forall₂ Translates) n.blocks s.blocks := by
  cases h with
  | start h => cases h <;> exact .nil
  | creation | change | thickness | visible | draw => exact .nil
  | branch _ hb ha ho =>
    refine .cons (forall₂_of_translatesAll hb) (List.rel_append (forall₂_arms ha) ?_)
    cases ho with
    | none | empty => exact .cons .nil .nil
    | some h => exact .cons (forall₂_of_translatesAll h) .nil
  | whileLoop _ hb | forLoop _ _ _ hb => exact .cons (forall₂_of_translatesAll hb) .nil

theorem isSome_of_rel {R : α → β → Prop} {a : Option α} {b : Option β} (h : Option.Rel R a b) :
    a.isSome = b.isSome := by
  cases h <;> rfl

theorem exists_of_rel {R : α → β → Prop} {x : α} {b : Option β} (h : Option.Rel R (some x) b) :
    ∃ y, b = some y ∧ R x y := by
  cases h with
  | some hxy => exact ⟨_, rfl, hxy⟩

theorem rel_getElem? {R : α → β → Prop} {as : List α} {bs : List β} (h : List.Forall₂ R as bs)
    (i : ℕ) : Option.Rel R as[i]? bs[i]? := by
  induction h generalizing i with
  | nil => exact .none
  | cons hab _ ih =>
    cases i with
    | zero => exact .some hab
    | succ i => exact ih i

theorem rel_bind {γ δ : Type} {R : α → β → Prop} {S : γ → δ → Prop} {a : Option α} {b : Option β}
    {f : α → Option γ} {g : β → Option δ} (h : Option.Rel R a b)
    (hf : ∀ x y, R x y → Option.Rel S (f x) (g y)) : Option.Rel S (a.bind f) (b.bind g) := by
  cases h with
  | none => exact .none
  | some hxy => exact hf _ _ hxy

/-- A statement and its translation stand at the same place. -/
theorem rel_at? {ss : List Stmt} (h : List.Forall₂ Translates ns ss) (path : List (ℕ × ℕ)) (i : ℕ) :
    Option.Rel Translates (at? Node.blocks path i ns) (at? Stmt.blocks path i ss) := by
  induction path generalizing ns ss with
  | nil => exact rel_getElem? h i
  | cons step path ih =>
    refine rel_bind (rel_getElem? h step.1) fun n s hs => ?_
    exact rel_bind (rel_getElem? (forall₂_blocks hs) step.2) fun _ _ hblock => ih hblock

theorem mem_checked_of_blocks {m : Node} {block : List Node} (hblock : block ∈ n.blocks)
    (hm : m ∈ block) : m ∈ n.checked := by
  cases n with
  | branch test body arms otherwise =>
    simp only [Node.blocks, List.mem_cons, List.mem_append, List.mem_map, List.not_mem_nil,
      or_false] at hblock
    simp only [Node.checked, Node.children, List.map_append, List.map_cons, List.mem_append,
      List.mem_cons, List.map_flatMap, List.mem_flatMap, List.map_map, Function.comp_def,
      List.map_id']
    rcases hblock with rfl | ⟨arm, harm, rfl⟩ | rfl
    · exact .inl (.inl (.inr hm))
    · exact .inl (.inr ⟨arm, harm, .inr hm⟩)
    · exact .inr hm
  | whileLoop | forLoop =>
    obtain rfl := List.mem_singleton.mp hblock
    simp [Node.checked, Node.children, hm]
  | _ => cases hblock

/-- The check of a program meets every statement of it. -/
theorem meets_at? {tree : Node} (h : ∀ n ∈ ns, tree.Meets n) {path : List (ℕ × ℕ)} {i : ℕ}
    (hn : at? Node.blocks path i ns = some n) : tree.Meets n := by
  induction path generalizing ns with
  | nil => exact h n (List.mem_of_getElem? hn)
  | cons step path ih =>
    obtain ⟨m, hm, hn⟩ := Option.bind_eq_some_iff.mp hn
    obtain ⟨block, hblock, hn⟩ := Option.bind_eq_some_iff.mp hn
    have hmeets := h m (List.mem_of_getElem? hm)
    exact ih (fun l hl => hmeets.inside (mem_checked_of_blocks (List.mem_of_getElem? hblock) hl)) hn

end Target

/-- The statements that call the library: all that create a cursor, change one other than in its
thickness, or draw. -/
def Node.IsLibraryCall : Node → Prop
  | .cursorCreation .. | .drawCommand .. => True
  | .cursorMethod _ method _ => method ≠ .text "thickness"
  | _ => False

/-! ## Types -/

/-- The check of the tree gives the expression this type, at a point at which it has met some of the
declarations, and it keeps it when all of them are known. -/
structure Node.GivesType (tree e : Node) (k : Kind) : Prop where
  checked : ∃ s t, Check.node e s = .ok (some k) t ∧ t.declared <+: tree.declarations
  among : e.typeAmong tree.declarations = some k

namespace Check

open Node

variable {tree : Node}

theorem exists_of_fits {t : Kind} (h : fits a (some t) = true) : ∃ k, a = some k ∧ k.Suits t := by
  cases a with
  | none => simp [fits] at h
  | some k => exact ⟨k, rfl, fits_some.mp h⟩

theorem givesType_of_node {e : Node} {k : Kind} (h : node e s = .ok (some k) t)
    (ht : t.declared <+: tree.declarations) : tree.GivesType e k :=
  ⟨⟨s, t, h, ht⟩, (typeAmong_of_node h ht).symm⟩

/-- The types of accepted arguments suit the types that are asked for. -/
theorem givesType_of_arguments {error : ScopeError} {types : List Kind}
    (hlen : given.length = types.length) {u : Unit} (h : arguments error given types s = .ok u t)
    (ht : t.declared <+: tree.declarations) :
    List.Forall₂ (fun e type => ∃ k, tree.GivesType e k ∧ k.Suits type) given types := by
  induction given generalizing types s with
  | nil =>
    obtain rfl := List.length_eq_zero_iff.mp hlen.symm
    exact .nil
  | cons e given ih =>
    obtain ⟨type, types, rfl⟩ := List.exists_cons_of_length_eq_add_one hlen.symm
    obtain ⟨a, s', he, hrest⟩ := bind_eq_ok.mp h
    rcases ite_eq_ok.mp hrest with ⟨hfits, hmore⟩ | ⟨-, hfail⟩
    · obtain ⟨k, rfl, hk⟩ := exists_of_fits hfits
      have hlen' := Nat.succ.inj hlen
      have hgrows : s'.declared <+: t.declared :=
        (visits_arguments error hlen' fun n _ => (visits_node n).self).grows hmore
      exact .cons ⟨k, givesType_of_node he (hgrows.trans ht), hk⟩ (ih hlen' hmore)
    · exact absurd hfail throw_ne_ok

theorem givesType_of_calling {arity : ℕ → ScopeError} {error : ScopeError} {cursor method : Value}
    (h : calling arity error cursor method given s = .ok a t)
    (ht : t.declared <+: tree.declarations) : ∃ types, methods.lookup method = some types ∧
      List.Forall₂ (fun e type => ∃ k, tree.GivesType e k ∧ k.Suits type) given types := by
  obtain ⟨types, _, hsignature, hrest⟩ := bind_eq_ok.mp h
  obtain ⟨-, hmethod, -⟩ := signature_eq_ok.mp hsignature
  rcases ite_eq_ok.mp hrest with ⟨-, hfail⟩ | ⟨hlen, hgiven⟩
  · exact absurd hfail throw_ne_ok
  · obtain ⟨_, _, harguments, hpure⟩ := bind_eq_ok.mp hgiven
    obtain ⟨-, rfl⟩ := pure_eq_ok.mp hpure
    exact ⟨types, hmethod, givesType_of_arguments (not_not.mp hlen) harguments ht⟩

theorem node_cursorCreation (name : Value) (x y : Node) : node (.cursorCreation name x y) = (do
      declare (·.defineCursor name)
      let xType ← node x
      let yType ← node y
      if isNumeric xType && isNumeric yType then return none else throw .coordinates) := rfl

theorem exists_of_isNumeric (h : isNumeric a = true) : ∃ k, a = some k ∧ k.Numeric := by
  cases a with
  | none => cases h
  | some k => exact ⟨k, rfl, isNumeric_some.mp h⟩

theorem givesType_of_creation {name : Value} {x y : Node}
    (h : node (.cursorCreation name x y) s = .ok a t) (ht : t.declared <+: tree.declarations) :
    ∃ k l, tree.GivesType x k ∧ k.Numeric ∧ tree.GivesType y l ∧ l.Numeric := by
  rw [node_cursorCreation] at h
  obtain ⟨_, s₁, -, h₁⟩ := bind_eq_ok.mp h
  obtain ⟨xType, s₂, hx, h₂⟩ := bind_eq_ok.mp h₁
  obtain ⟨yType, s₃, hy, h₃⟩ := bind_eq_ok.mp h₂
  rcases ite_eq_ok.mp h₃ with ⟨hnumeric, hpure⟩ | ⟨-, hfail⟩
  · obtain ⟨-, rfl⟩ := pure_eq_ok.mp hpure
    rw [Bool.and_eq_true] at hnumeric
    obtain ⟨k, rfl, hk⟩ := exists_of_isNumeric hnumeric.1
    obtain ⟨l, rfl, hl⟩ := exists_of_isNumeric hnumeric.2
    have hgrows : s₂.declared <+: t.declared := (makes_node y).grows hy
    exact ⟨k, l, givesType_of_node hx (hgrows.trans ht), hk, givesType_of_node hy ht, hl⟩
  · exact absurd hfail throw_ne_ok

end Check

namespace Node

/-- The types with which a program read from a text declares variables. -/
def variableTypes : List (Option Kind) := [some .int, some .float, some .bool, some .color]

theorem declarations_of_isExpr {V : Vocabulary} (h : n.IsExpr V) : n.declarations = [] := by
  induction h with
  | number | truth | hue | name => rfl
  | mixed _ _ _ hr hg hb =>
    change declarationsAll _ = []
    simp only [declarationsAll, hr, hg, hb, List.append_nil]
  | binary _ _ _ hl hr => rw [declarations, hl, hr, List.append_nil]

theorem declarations_of_isTest (h : n.IsTest .lexed) : n.declarations = [] :=
  declarations_of_isExpr (h.isExpr Vocabulary.isCoarse_lexed)

theorem mem_declarationsAll {d : Value × Option Kind} :
    d ∈ declarationsAll ns ↔ ∃ n ∈ ns, d ∈ n.declarations := by
  rw [declarationsAll_eq, List.mem_flatMap]

theorem declarationsAll_of_isExpr {V : Vocabulary} (h : ∀ n ∈ ns, n.IsExpr V) :
    declarationsAll ns = [] := by
  induction ns with
  | nil => rfl
  | cons n ns ih =>
    rw [List.forall_mem_cons] at h
    rw [declarationsAll, declarations_of_isExpr h.1, ih h.2, List.append_nil]

theorem mem_declarationsArms {as : List (Node × List Node)} {d : Value × Option Kind} :
    d ∈ declarationsArms as ↔
      ∃ arm ∈ as, d ∈ arm.1.declarations ∨ ∃ n ∈ arm.2, d ∈ n.declarations := by
  induction as with
  | nil => simp [declarationsArms]
  | cons arm as ih => simp [declarationsArms, ih, mem_declarationsAll, or_assoc]

theorem declarations_branch (test : Node) (body : List Node) (as : List (Node × List Node))
    (otherwise : Option (List Node)) : (branch test body as otherwise).declarations =
      test.declarations ++ (declarationsAll body ++
        (declarationsArms as ++ declarationsAll (otherwise.getD []))) := by
  cases otherwise <;> rfl

theorem variableTypes_of_isStart (h : n.IsStart .lexed) :
    ∀ d ∈ n.declarations, d.2 ∈ variableTypes := by
  cases h with
  | declaration h =>
    obtain ⟨hk, -, -, he⟩ := h
    rw [declarations, declarations_of_isExpr he]
    simpa [variableTypes] using hk
  | assignment h =>
    obtain ⟨-, he⟩ := h
    rw [declarations, declarations_of_isExpr he]
    simp

/-- A program read from a text declares variables with these types only. -/
theorem variableTypes_of_isStatement (h : n.IsStatement .lexed) :
    ∀ d ∈ n.declarations, d.2 ∈ variableTypes := by
  induction h with
  | declaration h => exact variableTypes_of_isStart (.declaration h)
  | assignment hx _ he => exact variableTypes_of_isStart (.assignment (.intro hx he))
  | creation _ hx hy =>
    rw [declarations, declarations_of_isExpr hx, declarations_of_isExpr hy]
    simp
  | change _ _ _ hns =>
    rw [declarations, declarationsAll_of_isExpr hns]
    simp
  | draw _ _ _ hns =>
    rw [declarations, declarationsAll_of_isExpr hns]
    simp
  | @branch test body arms otherwise ht _ ha _ _ ihb iha iho =>
    intro d hd
    rw [declarations_branch, declarations_of_isTest ht, List.nil_append, List.mem_append,
      List.mem_append, mem_declarationsAll, mem_declarationsArms, mem_declarationsAll] at hd
    rcases hd with ⟨n, hn, hd⟩ | ⟨arm, harm, hd | ⟨n, hn, hd⟩⟩ | ⟨n, hn, hd⟩
    · exact ihb n hn d hd
    · rw [declarations_of_isTest (ha arm harm)] at hd
      cases hd
    · exact iha arm harm n hn d hd
    · cases otherwise with
      | none => cases hn
      | some block => exact iho block rfl n hn d hd
  | whileLoop ht _ ihb =>
    intro d hd
    rw [declarations, declarations_of_isTest ht, List.nil_append, mem_declarationsAll] at hd
    obtain ⟨n, hn, hd⟩ := hd
    exact ihb n hn d hd
  | forLoop hi ht hu _ ihb =>
    intro d hd
    rw [declarations, declarations_of_isTest ht, List.nil_append, List.mem_append, List.mem_append,
      mem_declarationsAll] at hd
    rcases hd with hd | hd | ⟨n, hn, hd⟩
    · exact variableTypes_of_isStart hi d hd
    · exact variableTypes_of_isStart (.assignment hu) d hd
    · exact ihb n hn d hd

/-- The check knows a type of numbers of any kind, but no expression has it. -/
theorem ne_number_of_typeAmong {Γ : List (Value × Option Kind)} (hΓ : ∀ d ∈ Γ, d.2 ∈ variableTypes)
    {e : Node} {k : Kind} (h : e.typeAmong Γ = some k) : k ≠ .number := by
  rintro rfl
  cases e with
  | number v => cases v <;> simp [typeAmong] at h
  | «variable» name =>
    rw [typeAmong] at h
    obtain ⟨type, hlookup, htype⟩ := Option.bind_eq_some_iff.mp h
    obtain ⟨before, after, rfl, -⟩ := List.lookup_eq_some_iff.mp hlookup
    have hmem := hΓ (name, type) (by simp)
    obtain rfl : type = some .number := htype
    simp [variableTypes] at hmem
  | binary l op r =>
    rw [typeAmong] at h
    split_ifs at h <;> cases h
  | _ => simp [typeAmong] at h

end Node

namespace Target

open Node

/-! ## Calls -/

/-- The types of parameters for the types that the check asks for. -/
def parameterFor : Kind → LibraryType
  | .boolValue => .bool
  | .color => .color
  | _ => .double

/-- The expressions that are passed with a call of a method: the ones that are given and, when a
cursor is shown, the truth that it is to be shown. -/
def passed : String → List Node → List Node
  | "visible", _ => [.truth "true"]
  | _, given => given

/-- The tables of the check and of the code fit the prototypes. -/
theorem prototype_of_call : ∀ entry ∈ changeCalls ++ drawCalls, ∃ types,
    Check.methods.lookup (.text entry.1) = some types ∧ types.length = entry.2.2 ∧
      (∀ t ∈ types, t ∈ [Kind.number, .boolValue, .color]) ∧
      ⟨entry.2.1, none, .cursor :: types.map parameterFor⟩ ∈ library := by
  decide

theorem admits_of_suits {k t : Kind} (ht : t ∈ [Kind.number, .boolValue, .color]) (h : k.Suits t)
    (hk : k ≠ .number) : (parameterFor t).Admits k := by
  simp only [List.mem_cons, List.not_mem_nil, or_false] at ht
  rcases ht with rfl | rfl | rfl
  · cases h with
    | same => exact absurd rfl hk
    | number h => exact h
  · cases h
    rfl
  · cases h
    rfl

/-- What is written for the expressions supplies the parameters, one for one and in order: every
parameter admits the type that the check gives the expression. -/
inductive Supplies (tree : Node) : List LibraryType → List Node → List Expr → Prop
  | nil : Supplies tree [] [] []
  | cons {p : LibraryType} {ps : List LibraryType} {n : Node} {ns : List Node} {e : Expr}
      {es : List Expr} {k : Kind} : tree.GivesType n k → p.Admits k →
      (∀ page, Emit.node .standard n page = .ok (some e.text) page) → Supplies tree ps ns es →
      Supplies tree (p :: ps) (n :: ns) (e :: es)

/-- The statement of the generated language is one call that does what the statement says. A new
cursor is bound to its name, and every other call begins with the cursor. -/
inductive CallsLibrary (tree : Node) : Node → Stmt → Prop
  | creation {w f : String} {x y : Node} {ps : List LibraryType} {es : List Expr} :
      ⟨f, some .cursor, ps⟩ ∈ library → Supplies tree ps [x, y] es →
      CallsLibrary tree (.cursorCreation w x y) (.simple (.declare "Cursor" true w (.call f es)))
  | change {w m f : String} {given : List Node} {ps : List LibraryType} {es : List Expr} :
      ⟨f, none, .cursor :: ps⟩ ∈ library → Supplies tree ps (passed m given) es →
      CallsLibrary tree (.cursorMethod w m given) (.simple (.call f (.word w :: es)))
  | draw {w m f : String} {given : List Node} {ps : List LibraryType} {es : List Expr} :
      ⟨f, none, .cursor :: ps⟩ ∈ library → Supplies tree ps given es →
      CallsLibrary tree (.drawCommand w m given) (.simple (.call f (.word w :: es)))

section

variable {tree : Node} (htypes : ∀ d ∈ tree.declarations, d.2 ∈ variableTypes)

include htypes

theorem supplies_of_suits {types : List Kind} {es : List Expr}
    (h : List.Forall₂ (fun e type => ∃ k, tree.GivesType e k ∧ k.Suits type) given types)
    (hall : ∀ t ∈ types, t ∈ [Kind.number, .boolValue, .color])
    (hes : List.Forall₂ TranslatesExpr given es) :
    Supplies tree (types.map parameterFor) given es := by
  induction h generalizing es with
  | nil =>
    cases hes
    exact .nil
  | cons hk _ ih =>
    obtain ⟨k, hgives, hsuits⟩ := hk
    rw [List.forall_mem_cons] at hall
    cases hes with
    | cons he hes =>
      have hadmits := admits_of_suits hall.1 hsuits (ne_number_of_typeAmong htypes hgives.among)
      exact .cons hgives hadmits (node_of_translatesExpr he) (ih hall.2 hes)

/-- An accepted call of a method supplies the function that it becomes. -/
theorem supplies_of_calling {arity : ℕ → ScopeError} {error : ScopeError} {cursor : Value}
    {m f : String} {k : ℕ} {es : List Expr} (hm : (m, f, k) ∈ changeCalls ++ drawCalls)
    (hes : List.Forall₂ TranslatesExpr given es)
    (h : Check.calling arity error cursor m given s = .ok a t)
    (ht : t.declared <+: tree.declarations) :
    ∃ ps, ⟨f, none, .cursor :: ps⟩ ∈ library ∧ Supplies tree ps given (es.take k) := by
  obtain ⟨types, hlookup, hgiven⟩ := Check.givesType_of_calling h ht
  obtain ⟨types', hlookup', hlength, hall, hlibrary⟩ := prototype_of_call _ hm
  obtain rfl : types = types' := Option.some.inj (hlookup.symm.trans hlookup')
  have htake : es.take k = es := by
    rw [List.take_of_length_le]
    rw [← hes.length_eq, hgiven.length_eq]
    exact hlength.le
  rw [htake]
  exact ⟨_, hlibrary, supplies_of_suits htypes hgiven hall hes⟩

/-- Every statement that the check has met and that calls the library has become one call. -/
theorem callsLibrary_of_node {st : Stmt} (hst : Translates n st) (hn : n.IsLibraryCall)
    (h : Check.node n s = .ok a t) (ht : t.declared <+: tree.declarations) :
    CallsLibrary tree n st := by
  cases hst with
  | start hstart => cases hstart <;> cases hn
  | creation _ hx hy =>
    obtain ⟨k, l, hgx, hk, hgy, hl⟩ := Check.givesType_of_creation h ht
    have hmem : ⟨"create_cursor", some .cursor, [.double, .double]⟩ ∈ library := by decide
    refine .creation hmem (.cons hgx hk (node_of_translatesExpr hx) ?_)
    exact .cons hgy hl (node_of_translatesExpr hy) .nil
  | @change w m f k ns es _ hm hes _ =>
    rw [Check.node_cursorMethod] at h
    obtain ⟨ps, hlibrary, hsupplies⟩ :=
      supplies_of_calling htypes (List.mem_append_left _ hm) hes h ht
    have hpassed : passed m ns = ns := by
      have hall : ∀ entry ∈ changeCalls, entry.1 ≠ "visible" := by decide
      have hne : m ≠ "visible" := hall _ hm
      unfold passed
      split
      · exact absurd rfl hne
      · rfl
    exact .change hlibrary (hpassed.symm ▸ hsupplies)
  | thickness => exact absurd rfl hn
  | @visible w ns es _ hes =>
    have hmem : ⟨"set_cursor_visibility", none, [.cursor, .bool]⟩ ∈ library := by decide
    have htrue : tree.GivesType (.truth "true") .boolValue :=
      ⟨⟨.empty, .empty, rfl, List.nil_prefix⟩, rfl⟩
    exact .change hmem (.cons htrue rfl (node_of_translatesExpr (.truth (.inl rfl))) .nil)
  | draw _ hm hes _ =>
    rw [Check.node_drawCommand] at h
    obtain ⟨ps, hlibrary, hsupplies⟩ :=
      supplies_of_calling htypes (List.mem_append_right _ hm) hes h ht
    exact .draw hlibrary hsupplies
  | branch | whileLoop | forLoop => cases hn

end

end Target

open Target Node in
/-- In the code of an accepted program every statement that creates a cursor, changes one other than
in its thickness, or draws has become one call of the library, which stands at the same place and
fits the prototype. The code has statements nowhere else. -/
theorem library_calls_fit {source : String} {tree : Node} (h : Node.ofText source = .ok tree)
    (hc : tree.check = .ok ()) :
    ∃ ns body, tree = .program ns ∧ tree.code .standard = .ok (programText body) ∧
      (∀ path i, (at? Node.blocks path i ns).isSome = (at? Stmt.blocks path i body).isSome) ∧
      ∀ path i n, at? Node.blocks path i ns = some n → n.IsLibraryCall →
        ∃ s, at? Stmt.blocks path i body = some s ∧ CallsLibrary tree n s := by
  obtain ⟨ns, rfl, hns⟩ := isStatement_of_ofText h
  obtain ⟨body, hbody⟩ := exists_translatesAll_of_check hns hc
  have hplaces := rel_at? (forall₂_of_translatesAll hbody)
  refine ⟨ns, body, rfl, code_of_translates hbody, fun path i => ?_, fun path i n hn hcall => ?_⟩
  · exact isSome_of_rel (hplaces path i)
  · have htypes : ∀ d ∈ (Node.program ns).declarations, d.2 ∈ variableTypes := by
      intro d hd
      obtain ⟨m, hm, hd⟩ := mem_declarationsAll.mp hd
      exact variableTypes_of_isStatement (hns m hm) d hd
    obtain ⟨_, hrun⟩ := check_eq_ok.mp hc
    obtain ⟨a, t, htree, -⟩ := bind_eq_ok.mp hrun
    have hmeets : (Node.program ns).Meets n := by
      refine meets_at? (fun m hm => Meets.self.inside ?_) hn
      simp [checked, children, hm]
    obtain ⟨s', b, t', hnode, hle⟩ := Check.accepted_of_meets hmeets htree
    rw [(Check.visits_node _).adds htree] at hle
    obtain ⟨s, hs, htranslates⟩ := exists_of_rel (hn ▸ hplaces path i)
    exact ⟨s, hs, callsLibrary_of_node htypes htranslates hcall hnode hle⟩

/-- A program that draws inside a loop. -/
def drawingSource : String :=
  "var int windowWidth=400;var int windowHeight=400;cursor c=create_cursor(1,2);" ++
  "while(true)\x7bc.draw_circle(windowWidth,false);\x7d;"

def drawingTree : Node :=
  .program [.varDecl (some .int) "windowWidth" (.number (.int 400)),
    .varDecl (some .int) "windowHeight" (.number (.int 400)),
    .cursorCreation "c" (.number (.int 1)) (.number (.int 2)),
    .whileLoop (.truth "true")
      [.drawCommand "c" "draw_circle" [.variable "windowWidth", .truth "false"]]]

open Target in
theorem library_calls_fit_in_loop : ∃ body s, Node.ofText drawingSource = .ok drawingTree ∧
    drawingTree.check = .ok () ∧ drawingTree.code .standard = .ok (programText body) ∧
    at? Stmt.blocks [(3, 0)] 0 body = some s ∧ CallsLibrary drawingTree
      (.drawCommand "c" "draw_circle" [.variable "windowWidth", .truth "false"]) s := by
  have htokens : Token.ofText drawingSource = .ok [⟨.var, "var", 1, 1⟩, ⟨.int, "int", 1, 5⟩,
      ⟨.identifier, "windowWidth", 1, 9⟩, ⟨.assign, "=", 1, 20⟩, ⟨.number, .int 400, 1, 21⟩,
      ⟨.semicolon, ";", 1, 24⟩, ⟨.var, "var", 1, 25⟩, ⟨.int, "int", 1, 29⟩,
      ⟨.identifier, "windowHeight", 1, 33⟩, ⟨.assign, "=", 1, 45⟩, ⟨.number, .int 400, 1, 46⟩,
      ⟨.semicolon, ";", 1, 49⟩, ⟨.cursor, "cursor", 1, 50⟩, ⟨.identifier, "c", 1, 57⟩,
      ⟨.assign, "=", 1, 58⟩, ⟨.createCursor, "create_cursor", 1, 59⟩, ⟨.leftParen, "(", 1, 72⟩,
      ⟨.number, .int 1, 1, 73⟩, ⟨.comma, ",", 1, 74⟩, ⟨.number, .int 2, 1, 75⟩,
      ⟨.rightParen, ")", 1, 76⟩, ⟨.semicolon, ";", 1, 77⟩, ⟨.whileWord, "while", 1, 78⟩,
      ⟨.leftParen, "(", 1, 83⟩, ⟨.boolValue, "true", 1, 84⟩, ⟨.rightParen, ")", 1, 88⟩,
      ⟨.leftBrace, "\x7b", 1, 89⟩, ⟨.identifier, "c", 1, 90⟩, ⟨.dot, ".", 1, 91⟩,
      ⟨.drawCircle, "draw_circle", 1, 92⟩, ⟨.leftParen, "(", 1, 103⟩,
      ⟨.identifier, "windowWidth", 1, 104⟩, ⟨.comma, ",", 1, 115⟩, ⟨.boolValue, "false", 1, 116⟩,
      ⟨.rightParen, ")", 1, 121⟩, ⟨.semicolon, ";", 1, 122⟩, ⟨.rightBrace, "\x7d", 1, 123⟩,
      ⟨.semicolon, ";", 1, 124⟩, ⟨.endOfInput, .absent, 1, 124⟩] := by
    decide +kernel
  have htree : Node.ofText drawingSource = .ok drawingTree := ofText_of_ofTokens htokens rfl
  have hcheck : drawingTree.check = .ok () := by decide
  obtain ⟨ns, body, hns, hcode, -, hcalls⟩ := library_calls_fit htree hcheck
  obtain rfl := Node.program.inj hns
  obtain ⟨s, hs, hcall⟩ := hcalls [(3, 0)] 0 _ rfl trivial
  exact ⟨body, s, htree, hcheck, hcode, hs, hcall⟩

end DrawPlus
