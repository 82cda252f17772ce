import DrawPlus.Proofs.Scope.Accesses

/-!
# How a scope grows

The check can be asked for single things in any order: to look at a tree, to declare a name, to look
a name up. Some of this fails, and a failure may come in the middle of a tree, when part of it has
been declared already. Whatever is asked, a scope only grows: new entries come after the old ones,
the old ones stay as they are, and no name has two entries, be it as a variable or as a cursor. This
holds of the scopes in the middle of a tree as well.

After a whole program has been accepted, the scope holds exactly the declarations of the program, in
the order in which they stand in it.
-/

namespace DrawPlus

/-! ## Operations -/

inductive Operation where
  | visit (tree : Node)
  /-- refuse a node for which there is no rule -/
  | refuse (tree : Node)
  | define (name : Value) (type : Option Kind)
  | defineCursor (name : Value)
  | lookUp (name : Value)
  | isCursor (name : Value)
  | fits (source target : Option Kind)
  | signature (cursor method : Value)
  | windowDimensions

inductive Response where
  | nothing
  | type (type : Option Kind)
  | types (types : List Kind)
  | truth (b : Bool)

namespace Operation

def perform : Operation → Check Response
  | .visit tree => do return .type (← Check.node tree)
  | .refuse tree => throw (.noRule tree.classText)
  | .define name type => do
    Check.declare (·.define name type)
    return .nothing
  | .defineCursor name => do
    Check.declare (·.defineCursor name)
    return .nothing
  | .lookUp name => fun s => .ok (.type (s.typeOf? name)) s
  | .isCursor name => fun s => .ok (.truth (s.isCursor name)) s
  | .fits source target => return .truth (Check.fits source target)
  | .signature cursor method => do return .types (← Check.signature cursor method)
  | .windowDimensions => do
    Check.windowDimensions
    return .nothing

def accesses : Operation → List ScopeAccess
  | .visit tree => tree.accesses
  | .define name type => [.begins name type]
  | .defineCursor name => [.creates name]
  | _ => []

end Operation

namespace Scope

/-- The scope that an action leaves, also when it fails. -/
def left {α : Type} : EStateM.Result ScopeError Scope α → Scope
  | .ok _ t => t
  | .error _ t => t

def after (s : Scope) (op : Operation) : Scope := left (op.perform s)

def run (s : Scope) (ops : List Operation) : Scope := ops.foldl after s

/-- No name has two entries. -/
def Distinct (s : Scope) : Prop := (s.declared.map Prod.fst ++ s.cursors).Nodup

/-- The first scope is the beginning of the second. -/
structure Grows (s t : Scope) : Prop where
  declared : s.declared <+: t.declared
  cursors : s.cursors <+: t.cursors

theorem Grows.refl (s : Scope) : s.Grows s := ⟨List.prefix_refl _, List.prefix_refl _⟩

theorem Grows.trans {s t u : Scope} (h : s.Grows t) (h' : t.Grows u) : s.Grows u :=
  ⟨h.declared.trans h'.declared, h.cursors.trans h'.cursors⟩

/-! ## One access -/

theorem grows_add (s : Scope) (a : ScopeAccess) : s.Grows (s.add a) := by
  cases a with
  | begins name type => exact ⟨List.prefix_append _ _, List.prefix_refl _⟩
  | creates name => exact ⟨List.prefix_refl _, List.prefix_append _ _⟩
  | completes | reads => exact .refl s

theorem isFree_iff {s : Scope} {name : Value} :
    s.isFree name = true ↔ name ∉ s.declared.map Prod.fst ++ s.cursors := by
  rw [← Bool.not_eq_false, Check.isFree_eq_false, List.mem_append]
  simp [hasVariable, isCursor]

/-- A name that is free can be declared, as a variable or as a cursor. -/
theorem Distinct.add {s : Scope} {a : ScopeAccess} (h : s.Distinct) (ha : s.Admits a) :
    (s.add a).Distinct := by
  cases a with
  | begins name type =>
    have hfree := isFree_iff.mp ha
    have hperm : ((s.declared ++ [(name, type)]).map Prod.fst ++ s.cursors).Perm
        (name :: (s.declared.map Prod.fst ++ s.cursors)) := by
      rw [List.map_append, List.append_assoc]
      exact List.perm_middle
    exact hperm.nodup_iff.mpr (List.nodup_cons.mpr ⟨hfree, h⟩)
  | creates name =>
    have hfree := isFree_iff.mp ha
    have hperm : (s.declared.map Prod.fst ++ (s.cursors ++ [name])).Perm
        (name :: (s.declared.map Prod.fst ++ s.cursors)) := by
      rw [← List.append_assoc]
      exact List.perm_append_comm
    exact hperm.nodup_iff.mpr (List.nodup_cons.mpr ⟨hfree, h⟩)
  | completes | reads => exact h

/-! ## Many of them -/

theorem grows_addAll (s : Scope) (as : List ScopeAccess) : s.Grows (s.addAll as) := by
  induction as generalizing s with
  | nil => exact .refl s
  | cons a as ih => exact (s.grows_add a).trans (ih (s.add a))

theorem Distinct.addAll {s : Scope} {as : List ScopeAccess} (h : s.Distinct) (has : s.Passes as) :
    (s.addAll as).Distinct := by
  induction as generalizing s with
  | nil => exact h
  | cons a as ih => exact ih (h.add has.1) has.2

end Scope

/-! ## Operations one after the other -/

open Check in
/-- An operation does with names what it says, or a first part of it if it fails. -/
theorem makes_perform (op : Operation) : Makes op.perform op.accesses := by
  cases op with
  | visit tree => exact (makes_node tree).followed fun _ => makes_pure _
  | refuse tree => exact makes_throw _
  | define name type => exact (makes_define name type).followed fun _ => makes_pure _
  | defineCursor name => exact (makes_defineCursor name).followed fun _ => makes_pure _
  | lookUp name | isCursor name =>
    refine makes_nothing (fun h => (ok_eq_ok.mp h).2) fun h => ?_
    cases h
  | fits source target => exact makes_pure _
  | signature cursor method => exact (makes_signature cursor method).followed fun _ => makes_pure _
  | windowDimensions => exact makes_windowDimensions.followed fun _ => makes_pure _

namespace Scope

/-- What an operation has done with names when it ends, whether it succeeds or fails. -/
theorem exists_made (s : Scope) (op : Operation) :
    ∃ made, made <+: op.accesses ∧ s.Passes made ∧ s.after op = s.addAll made := by
  unfold after left
  cases hop : op.perform s with
  | ok reply t =>
    have hmade := (makes_perform op).ok hop
    exact ⟨op.accesses, List.prefix_refl _, hmade.1, hmade.2⟩
  | error e t => exact (makes_perform op).error hop

theorem grows_after (s : Scope) (op : Operation) : s.Grows (s.after op) := by
  obtain ⟨made, -, -, hafter⟩ := s.exists_made op
  rw [hafter]
  exact s.grows_addAll made

theorem Distinct.after {s : Scope} (h : s.Distinct) (op : Operation) : (s.after op).Distinct := by
  obtain ⟨made, -, hpasses, hafter⟩ := s.exists_made op
  rw [hafter]
  exact h.addAll hpasses

theorem grows_run (s : Scope) (ops : List Operation) : s.Grows (s.run ops) := by
  induction ops generalizing s with
  | nil => exact .refl s
  | cons op ops ih => exact (s.grows_after op).trans (ih (s.after op))

theorem Distinct.run {s : Scope} (h : s.Distinct) (ops : List Operation) :
    (s.run ops).Distinct := by
  induction ops generalizing s with
  | nil => exact h
  | cons op ops ih => exact ih (h.after op)

theorem distinct_empty : Scope.empty.Distinct := List.nodup_nil

end Scope

/-! ## Whole programs -/

namespace Node

/-- A tree and everything inside it, each node before what it holds. -/
def preorder (n : Node) : List Node :=
  n :: n.children.attach.flatMap fun c => c.1.2.preorder
termination_by sizeOf n
decreasing_by exact sizeOf_child c.2

theorem preorder_eq (n : Node) :
    n.preorder = n :: n.children.flatMap fun c => c.2.preorder := by
  rw [preorder, List.flatMap_subtype (g := fun c => c.2.preorder) fun _ _ => rfl,
    List.unattach_attach]

/-- The variable that a node declares, with its type. -/
def entry? : Node → Option (Value × Option Kind)
  | .varDecl type name _ => some (name, type)
  | _ => none

def cursor? : Node → Option Value
  | .cursorCreation name _ _ => some name
  | _ => none

/-- In the trees of programs the check leaves nothing out. -/
theorem FormIn.checked_eq {V : Vocabulary} {p : Place} {n : Node} (h : FormIn V p n) :
    n.checked = n.children.map Prod.snd := by
  have hdeclaration {d : Node} (hd : IsDeclaration V d) :
      d.checked = d.children.map Prod.snd := by
    obtain ⟨-, -, -, he⟩ := hd
    cases he <;> rfl
  cases p with
  | operand =>
    cases h with
    | hue _ => simp [checked, children]
    | _ => rfl
  | header =>
    cases h with
    | declaration hd => exact hdeclaration hd
    | assignment ha =>
      cases ha
      rfl
  | statement =>
    cases h with
    | declaration hd => exact hdeclaration hd
    | _ => rfl

section

variable {γ : Type} {f : ScopeAccess → Option γ} {g : Node → Option γ}

/-- What a tree does with names can be read off its nodes, if that is so for the trees in it. -/
theorem filterMap_accesses_of_children (hopening : ∀ n, (opening n).filterMap f = (g n).toList)
    (hclosing : ∀ n, (closing n).filterMap f = []) {n : Node}
    (hchecked : n.checked = n.children.map Prod.snd)
    (h : ∀ c ∈ n.children, c.2.accesses.filterMap f = c.2.preorder.filterMap g) :
    n.accesses.filterMap f = n.preorder.filterMap g := by
  rw [accesses_eq, preorder_eq, List.filterMap_append, List.filterMap_append, hopening, hclosing,
    List.append_nil, hchecked, List.flatMap_map, List.filterMap_flatMap, List.filterMap_cons,
    List.filterMap_flatMap]
  have hinside : (n.children.flatMap fun c => c.2.accesses.filterMap f) =
      n.children.flatMap fun c => c.2.preorder.filterMap g := List.flatMap_congr h
  rw [hinside]
  cases g n <;> rfl

/-- What a tree of a program does with names can be read off its nodes. -/
theorem FormIn.filterMap_accesses (hopening : ∀ n, (opening n).filterMap f = (g n).toList)
    (hclosing : ∀ n, (closing n).filterMap f = []) {V : Vocabulary}
    (hV : V.IsCoarse) {p : Place} {n : Node} (h : FormIn V p n) :
    n.accesses.filterMap f = n.preorder.filterMap g := by
  induction n using induction_children generalizing p with
  | h n ih =>
    apply filterMap_accesses_of_children hopening hclosing h.checked_eq
    intro c hc
    exact ih c.1 c.2 hc (h.forall_children hV c hc)

end

end Node

open Node

/-- The entries of the scope after a program are the declarations of the program. -/
theorem entries_of_program {ns : List Node} (hns : ∀ n ∈ ns, n.IsStatement .any)
    {reply : Option Kind}
    {t : Scope} (h : Check.node (.program ns) .empty = .ok reply t) :
    t.declared = (Node.program ns).preorder.filterMap entry? ∧
      t.cursors = (Node.program ns).preorder.filterMap cursor? ∧ t.Distinct := by
  obtain ⟨hpasses, rfl⟩ := (Check.makes_node _).ok h
  have hchecked : (Node.program ns).checked = (Node.program ns).children.map Prod.snd := rfl
  have hform := formIn_children_program hns
  have hentry (n : Node) : n.opening.filterMap Access.entry? = n.entry?.toList ∧
      n.closing.filterMap Access.entry? = [] := by
    cases n <;> exact ⟨rfl, rfl⟩
  have hcursor (n : Node) : n.opening.filterMap Access.cursor? = n.cursor?.toList ∧
      n.closing.filterMap Access.cursor? = [] := by
    cases n <;> exact ⟨rfl, rfl⟩
  refine ⟨?_, ?_, Scope.distinct_empty.addAll hpasses⟩
  · rw [Scope.declared_addAll]
    refine filterMap_accesses_of_children (fun n => (hentry n).1) (fun n => (hentry n).2)
      hchecked ?_
    intro c hc
    exact (hform c hc).filterMap_accesses (fun n => (hentry n).1) (fun n => (hentry n).2)
      Vocabulary.isCoarse_any
  · rw [Scope.cursors_addAll]
    refine filterMap_accesses_of_children (fun n => (hcursor n).1) (fun n => (hcursor n).2)
      hchecked ?_
    intro c hc
    exact (hform c hc).filterMap_accesses (fun n => (hcursor n).1) (fun n => (hcursor n).2)
      Vocabulary.isCoarse_any

/-- After any operations, some of which may fail, no name has two entries, and whatever is asked
next, the entries stay as they are and new ones come after them. That also holds in the middle of an
operation: what it has done with names by then is a first part of what it would do, and it is never
taken back. After a program that is read from tokens has been accepted, the scope has an entry for
each of its declarations and no other, in the order in which they stand in the program. -/
theorem scope_only_grows :
    (∀ ops : List Operation,
      let s := Scope.empty.run ops
      s.Distinct ∧ (∀ more, s.Grows (s.run more)) ∧
      ∀ op, ∃ made, made <+: op.accesses ∧ s.after op = s.addAll made ∧ ∀ part, part <+: made →
        (s.addAll part).Distinct ∧ s.Grows (s.addAll part) ∧
          (s.addAll part).Grows (s.after op)) ∧
    ∀ tokens tree reply t, Node.ofTokens tokens = .ok tree →
      Check.node tree .empty = .ok reply t →
      t.declared = tree.preorder.filterMap entry? ∧ t.cursors = tree.preorder.filterMap cursor? ∧
        t.Distinct := by
  constructor
  · intro ops s
    have hs : s.Distinct := Scope.distinct_empty.run ops
    refine ⟨hs, s.grows_run, fun op => ?_⟩
    obtain ⟨made, hmade, hpasses, hafter⟩ := s.exists_made op
    refine ⟨made, hmade, hafter, fun part hpart => ?_⟩
    refine ⟨hs.addAll (hpasses.of_prefix hpart), s.grows_addAll part, ?_⟩
    obtain ⟨later, rfl⟩ := hpart
    rw [hafter, Scope.addAll_append]
    exact Scope.grows_addAll _ later
  · intro tokens tree reply t htree hnode
    obtain ⟨ns, rfl, hns⟩ := isStatement_of_ofTokens htree
    exact entries_of_program hns hnode

/-- The words of a program that creates a cursor in a loop. -/
def creatingWords : List (Kind × Value) :=
  [(.var, "var"), (.int, "int"), (.identifier, "x"), (.assign, "="), (.number, .int 1),
    (.semicolon, ";"), (.whileWord, "while"), (.leftParen, "("), (.boolValue, "true"),
    (.rightParen, ")"), (.leftBrace, "\x7b"), (.cursor, "cursor"), (.identifier, "c"),
    (.assign, "="), (.createCursor, "create_cursor"), (.leftParen, "("), (.identifier, "x"),
    (.comma, ","), (.number, .int 2), (.rightParen, ")"), (.semicolon, ";"), (.var, "var"),
    (.float, "float"), (.identifier, "y"), (.assign, "="), (.identifier, "x"), (.semicolon, ";"),
    (.rightBrace, "\x7d"), (.semicolon, ";"), (.endOfInput, .absent)]

def creatingTree : Node :=
  .program [.varDecl (some .int) "x" (.number (.int 1)),
    .whileLoop (.truth "true") [.cursorCreation "c" (.variable "x") (.number (.int 2)),
      .varDecl (some .float) "y" (.variable "x")]]

/-- The first visit fails in the loop, where the name of the cursor is taken already, and leaves the
variable before the loop in the scope; the second one fails at once. -/
theorem scope_only_grows_creating :
    let tokens := creatingWords.map fun e => (⟨e.1, e.2, 1, 1⟩ : Token)
    let ops : List Operation :=
      [.define "c" (some .color), .visit creatingTree, .visit creatingTree]
    Node.ofTokens tokens = .ok creatingTree ∧
      (∃ t, Check.node creatingTree .empty = .ok none t ∧
        t.declared = creatingTree.preorder.filterMap entry? ∧
        t.declared = [(Value.text "x", some Kind.int), (.text "y", some .float)] ∧
        t.cursors = creatingTree.preorder.filterMap cursor? ∧ t.cursors = [Value.text "c"]) ∧
      (Scope.empty.run ops).declared = [(Value.text "c", some Kind.color), (.text "x", some .int)] ∧
      (Scope.empty.run ops).Distinct := by
  intro tokens ops
  have htree : Node.ofTokens tokens = .ok creatingTree := rfl
  have hnode : Check.node creatingTree .empty =
      .ok none ⟨[("x", some .int), ("y", some .float)], ["c"]⟩ := rfl
  have hentries := scope_only_grows.2 tokens creatingTree none _ htree hnode
  exact ⟨htree, ⟨_, hnode, hentries.1, rfl, hentries.2.1, rfl⟩, rfl, (scope_only_grows.1 ops).1⟩

end DrawPlus
