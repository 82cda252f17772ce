import DrawPlus.Proofs.Target.Acceptance
import DrawPlus.Proofs.Target.Blocks

/-!
# Declarations before uses

The check walks a program in the order in which its code is written. When it succeeds, every name in
the code is declared before it is used, and no name is declared twice. `Marked x ms` says so for an
action `x` of the check and the marks `ms` of the code written for it; actions one after the other
are marked by their marks one after the other.

The check has one scope for a whole program, so nothing is said here about blocks.
-/

namespace DrawPlus.Check

open Node Target

/-- The words of the generated language that programs use without a declaration: the truth values,
the word for a number that is too large, and the predefined colours. -/
def libraryWords : List String := ["true", "false", "inf"] ++ Hue.all.map Hue.constant

/-! ## Names of a scope -/

/-- The names that are taken in the scope. -/
def Knows (s : Scope) (known : List String) : Prop := ∀ w : String, s.isFree w = false ↔ w ∈ known

theorem knows_empty : Knows .empty [] := by
  intro w
  simp [isFree_eq_false, Scope.hasVariable, Scope.isCursor, Scope.empty]

section

variable {s t : Scope} {known : List String} {w : String}

theorem Knows.mem_of_typeOf? (h : Knows s known) (hw : (s.typeOf? w).isSome = true) :
    w ∈ known := by
  rw [← h w, isFree_eq_false]
  by_contra hn
  rw [not_or, Scope.hasVariable, List.any_eq_true] at hn
  have hlookup : s.declared.lookup (w : Value) = none := by
    rw [List.lookup_eq_none_iff]
    intro entry hentry
    by_contra heq
    refine hn.1 ⟨entry, hentry, ?_⟩
    simpa [@eq_comm _ entry.1] using heq
  rw [Scope.typeOf?, hlookup] at hw
  cases hw

theorem Knows.mem_of_readable? {k : Kind} (h : Knows s known) (hw : s.readable? w = some k) :
    w ∈ known := by
  refine h.mem_of_typeOf? ?_
  unfold Scope.readable? at hw
  split at hw
  · cases hw
  · rw [hw]
    rfl

theorem Knows.mem_of_isCursor (h : Knows s known) (hw : s.isCursor w = true) : w ∈ known := by
  rw [← h w, isFree_eq_false]
  exact .inr hw

theorem Knows.notMem_of_isFree (h : Knows s known) (hw : s.isFree w = true) : w ∉ known := by
  rw [← h w, hw]
  simp

theorem Knows.declareVariable (h : Knows s known) (hfree : s.isFree w = true)
    (type : Option Kind) : w ∉ known ∧
      Knows { s with declared := s.declared ++ [(.text w, type)] } (known ++ [w]) := by
  refine ⟨h.notMem_of_isFree hfree, fun v => ?_⟩
  rw [List.mem_append, ← h v, isFree_eq_false, isFree_eq_false]
  simp [Scope.hasVariable, Scope.isCursor, or_right_comm, @eq_comm _ v w]

theorem Knows.declareCursor (h : Knows s known) (hfree : s.isFree w = true) :
    w ∉ known ∧ Knows { s with cursors := s.cursors ++ [.text w] } (known ++ [w]) := by
  refine ⟨h.notMem_of_isFree hfree, fun v => ?_⟩
  rw [List.mem_append, ← h v, isFree_eq_false, isFree_eq_false]
  simp [Scope.hasVariable, Scope.isCursor, or_assoc]

end

/-! ## Actions and their marks -/

/-- When the action succeeds, the marks are ordered after the names of the scope, and their
declarations are what it adds to the scope. -/
def Marked {α : Type} (x : Check α) (ms : List Mark) : Prop :=
  ∀ ⦃s known a t⦄, Knows s known → x s = .ok a t →
    Ordered libraryWords known ms ∧ Knows t (known ++ declared ms)

section

variable {α β : Type} {x : Check α} {ms : List Mark}

theorem Marked.bind {f : α → Check β} {ms' : List Mark} (hx : Marked x ms)
    (hf : ∀ a, Marked (f a) ms') : Marked (x >>= f) (ms ++ ms') := by
  intro s known b t hs h
  obtain ⟨a, u, hxs, hfu⟩ := bind_eq_ok.mp h
  obtain ⟨hms, hu⟩ := hx hs hxs
  obtain ⟨hms', ht⟩ := hf a hu hfu
  refine ⟨ordered_append.mpr ⟨hms, hms'⟩, ?_⟩
  rwa [declared_append, ← List.append_assoc]

theorem marked_pure (a : α) : Marked (pure a : Check α) [] := by
  intro s known b t hs h
  obtain ⟨-, rfl⟩ := pure_eq_ok.mp h
  exact ⟨trivial, by simpa using hs⟩

theorem marked_throw (e : ScopeError) : Marked (throw e : Check α) ms := by
  intro s known b t hs h
  exact absurd h throw_ne_ok

theorem Marked.ite {p : Prop} [Decidable p] {y : Check α} (hx : Marked x ms) (hy : Marked y ms) :
    Marked (if p then x else y) ms := by
  split_ifs
  · exact hx
  · exact hy

theorem Marked.followed {f : α → Check β} (hx : Marked x ms) (hf : ∀ a, Marked (f a) []) :
    Marked (x >>= f) ms := by
  have h := hx.bind hf
  rwa [List.append_nil] at h

theorem Marked.opens (hx : Marked x ms) : Marked x (.opens :: ms) := hx

theorem Marked.closes (hx : Marked x ms) : Marked x (.closes :: ms) := hx

theorem Marked.closed (hx : Marked x ms) : Marked x (ms ++ [.closes]) := by
  intro s known a t hs h
  obtain ⟨hms, ht⟩ := hx hs h
  exact ⟨ordered_append.mpr ⟨hms, trivial⟩, by simpa using ht⟩

/-- Words of the library and names used before can be used again. -/
theorem Marked.again (hx : Marked x ms) {ws : List String}
    (hws : ∀ w ∈ ws, w ∈ libraryWords ∨ .uses w ∈ ms) : Marked x (ms ++ ws.map .uses) := by
  intro s known a t hs h
  obtain ⟨hms, ht⟩ := hx hs h
  refine ⟨ordered_append.mpr ⟨hms, ordered_map_uses.mpr fun w hw => ?_⟩, by simpa using ht⟩
  exact (hws w hw).elim .inl hms.mem_of_uses

theorem Marked.library (hx : Marked x []) {w : String} (hw : w ∈ libraryWords) :
    Marked x [.uses w] := by
  have hws : ∀ v ∈ [w], v ∈ libraryWords ∨ .uses v ∈ ([] : List Mark) := by simp [hw]
  exact hx.again hws

end

theorem marked_declareVariable (w : String) (type : Option Kind) :
    Marked (declareVariable w type) [.declares w] := by
  intro s known a t hs h
  obtain ⟨hfree, rfl⟩ := declareVariable_eq_ok.mp h
  obtain ⟨hw, ht⟩ := hs.declareVariable hfree type
  exact ⟨⟨hw, trivial⟩, ht⟩

theorem marked_declareCursor (w : String) :
    Marked (declare (·.defineCursor w)) [.declares w] := by
  intro s known a t hs h
  obtain ⟨hfree, rfl⟩ := declareCursor_eq_ok.mp h
  obtain ⟨hw, ht⟩ := hs.declareCursor hfree
  exact ⟨⟨hw, trivial⟩, ht⟩

theorem marked_readVariable (w : String) : Marked (readVariable w) [.uses w] := by
  intro s known a t hs h
  obtain ⟨hk, rfl⟩ := readVariable_eq_ok.mp h
  exact ⟨⟨.inr (hs.mem_of_readable? hk), trivial⟩, by simpa using hs⟩

theorem marked_signature (w : String) (method : Value) :
    Marked (signature w method) [.uses w] := by
  intro s known a t hs h
  obtain ⟨hw, -, rfl⟩ := signature_eq_ok.mp h
  exact ⟨⟨.inr (hs.mem_of_isCursor hw), trivial⟩, by simpa using hs⟩

theorem marked_requireTruth (guard : Guard) (type : Option Kind) :
    Marked (requireTruth guard type) [] :=
  (marked_pure ()).ite (marked_throw _)

theorem marked_ofExcept {α : Type} (result : Except ScopeError α) :
    Marked (ofExcept result) [] := by
  cases result with
  | ok a => exact marked_pure a
  | error e => exact marked_throw e

theorem marked_windowDimensions :
    Marked windowDimensions [.uses "windowWidth", .uses "windowHeight"] := by
  intro s known a t hs h
  unfold windowDimensions at h
  split_ifs at h with hwidth hheight
  cases h
  rw [Option.isNone_iff_eq_none, ← ne_eq, Option.ne_none_iff_isSome] at hwidth hheight
  exact ⟨⟨.inr (hs.mem_of_typeOf? hwidth), .inr (hs.mem_of_typeOf? hheight), trivial⟩,
    by simpa using hs⟩

/-! ## Translated parts of a program -/

theorem constant_mem_libraryWords (h : Hue) : h.constant ∈ libraryWords := by
  cases h <;> decide

theorem marked_expr {n : Node} {e : Expr} (h : TranslatesExpr n e) :
    Marked (node n) ((e.words .names).map .uses) := by
  induction h with
  | number hv _ =>
    cases hv with
    | int n => exact marked_pure _
    | double hx => exact marked_pure _
  | infinite hv _ =>
    have hinf : "inf" ∈ libraryWords := by decide
    cases hv with
    | int n => exact (marked_pure (some Kind.int)).library hinf
    | double hx => exact (marked_pure (some Kind.float)).library hinf
  | @truth w hw =>
    have hlibrary : w ∈ libraryWords := by rcases hw with rfl | rfl <;> decide
    exact (marked_pure (some Kind.boolValue)).library hlibrary
  | hue h =>
    have hcolor : Marked (node (.color h.name none)) [] :=
      (marked_pure ()).followed fun _ => marked_pure _
    exact hcolor.library (constant_mem_libraryWords h)
  | mixed _ _ _ hr hg hb =>
    simp only [Expr.words, Expr.wordsAll, List.map_append]
    refine Marked.followed ?_ fun _ => marked_pure _
    refine hr.bind fun _ => Marked.ite ?_ (marked_throw _)
    refine hg.bind fun _ => Marked.ite ?_ (marked_throw _)
    exact hb.bind fun _ => Marked.ite (marked_pure ()) (marked_throw _)
  | name _ => exact (marked_readVariable _).followed fun _ => marked_pure _
  | binary _ _ _ _ hl hr =>
    rw [Expr.words, List.map_append]
    exact hl.bind fun _ => hr.followed fun _ => (marked_ofExcept _).followed fun _ => marked_pure _

theorem marked_arguments {ns : List Node} {es : List Expr} (h : List.Forall₂ TranslatesExpr ns es)
    (e : ScopeError) {types : List Kind} (hlen : ns.length = types.length) :
    Marked (arguments e ns types) ((Expr.wordsAll .names es).map .uses) := by
  induction h generalizing types with
  | nil => exact marked_pure ()
  | cons hn _ ih =>
    cases types with
    | nil => cases hlen
    | cons type types =>
      rw [Expr.wordsAll, List.map_append]
      exact (marked_expr hn).bind fun _ => (ih (Nat.succ.inj hlen)).ite (marked_throw _)

theorem mem_takes {m f : String} {k : ℕ} (h : (m, f, k) ∈ changeCalls ++ drawCalls) :
    (m, k) ∈ takes := by
  have hall : ∀ entry ∈ changeCalls ++ drawCalls, (entry.1, entry.2.2) ∈ takes := by decide
  exact hall _ h

/-- A call uses the cursor and then its arguments, none of which is too many. -/
theorem marked_calling {arity : ℕ → ScopeError} {argument : ScopeError} {w m : String} {k : ℕ}
    {ns : List Node} {es : List Expr} (hk : (m, k) ∈ takes)
    (h : List.Forall₂ TranslatesExpr ns es) :
    Marked (calling arity argument w m ns)
      (.uses w :: (Expr.wordsAll .names (es.take k)).map .uses) := by
  intro s known a t hs hc
  have hlen := length_of_calling hc hk
  rw [List.take_of_length_le (by rw [← h.length_eq, hlen])]
  obtain ⟨types, u, hsig, hrest⟩ := bind_eq_ok.mp hc
  obtain ⟨-, hthrow⟩ | ⟨htypes, hargs⟩ := ite_eq_ok.mp hrest
  · exact absurd hthrow throw_ne_ok
  obtain ⟨hw, hu⟩ := marked_signature w m hs hsig
  have harguments := marked_arguments h argument (not_not.mp htypes)
  obtain ⟨hes, ht⟩ := (harguments.followed fun _ => marked_pure _) hu hargs
  exact ⟨⟨hw.1, by simpa using hes⟩, by simpa using ht⟩

theorem marked_start {n : Node} {s : Simple} (h : TranslatesStart n s) :
    Marked (node n) (s.marks .names) := by
  cases h with
  | declaration _ _ he =>
    rw [node_varDecl_eq (by rintro rfl; cases he)]
    exact (marked_declareVariable _ _).bind fun _ => (marked_expr he).followed fun _ =>
      (marked_pure _).ite (marked_throw _)
  | assignment _ he =>
    exact (marked_readVariable _).bind fun _ => (marked_expr he).followed fun _ =>
      (marked_pure _).ite (marked_throw _)

mutual

theorem marked_of_translates {n : Node} {s : Stmt} (h : Translates n s) :
    Marked (node n) (s.marks .names) := by
  match h with
  | .start h => exact marked_start h
  | .creation _ hx hy =>
    simp only [Stmt.marks, Simple.marks, Expr.words, Expr.wordsAll, List.map_append]
    exact (marked_declareCursor _).bind fun _ => (marked_expr hx).bind fun _ =>
      (marked_expr hy).bind fun _ => (marked_pure _).ite (marked_throw _)
  | @Translates.change w m f k ns es _ hc hn _ =>
    rw [node_cursorMethod]
    exact marked_calling (mem_takes (List.mem_append_left _ hc)) hn
  | @Translates.thickness w n ns e es _ hn =>
    have hk : ("thickness", 1) ∈ takes := by decide
    have hcall := @marked_calling (.methodArity "thickness") (.methodArgument "thickness") w
      "thickness" 1 _ _ hk hn
    rw [node_cursorMethod]
    simpa [Stmt.marks, Simple.marks, Expr.words, Expr.wordsAll] using hcall
  | @Translates.visible w ns es _ hn =>
    have hk : ("visible", 0) ∈ takes := by decide
    have hcall := @marked_calling (.methodArity "visible") (.methodArgument "visible") w
      "visible" 0 _ _ hk hn
    have htrue : ∀ v ∈ ["true"], v ∈ libraryWords ∨ .uses v ∈ [Mark.uses w] := by
      simp [libraryWords]
    rw [node_cursorMethod]
    exact hcall.again htrue
  | @Translates.draw w m f k ns es _ hc hn _ =>
    rw [node_drawCommand]
    exact marked_calling (mem_takes (List.mem_append_right _ hc)) hn
  | .branch ht hb ha ho =>
    rw [node_branch]
    exact (marked_expr ht).bind fun _ => (marked_requireTruth _ _).bind fun _ =>
      ((marked_of_translatesAll hb).bind fun _ => ((marked_of_translatesArms ha).bind fun _ =>
        (marked_of_translatesOtherwise ho).followed fun _ => marked_pure _).closes).opens
  | .whileLoop ht hb =>
    exact (marked_expr ht).bind fun _ => (marked_requireTruth _ _).bind fun _ =>
      ((marked_of_translatesAll hb).bind fun _ => (marked_pure _).closes).opens
  | .forLoop hi ht hu hb =>
    exact ((marked_start hi).bind fun _ => (marked_expr ht).bind fun _ =>
      (marked_requireTruth _ _).bind fun _ => (marked_start hu).bind fun _ =>
      ((marked_of_translatesAll hb).bind fun _ => (marked_pure _).closes.closes).opens).opens

theorem marked_of_translatesAll {ns : List Node} {ss : List Stmt} (h : TranslatesAll ns ss) :
    Marked (all ns) (Stmt.marksAll .names ss) := by
  match h with
  | .nil => exact marked_pure ()
  | .cons hn hns =>
    exact (marked_of_translates hn).bind fun _ => marked_of_translatesAll hns

theorem marked_of_translatesArms {as : List (Node × List Node)} {as' : List (Expr × List Stmt)}
    (h : TranslatesArms as as') : Marked (arms as) (Stmt.armMarks .names as') := by
  match h with
  | .nil => exact marked_pure ()
  | .cons ht hb ha =>
    exact (marked_expr ht).bind fun _ => (marked_requireTruth _ _).bind fun _ =>
      ((marked_of_translatesAll hb).bind fun _ => (marked_of_translatesArms ha).closes).opens

theorem marked_of_translatesOtherwise {otherwise : Option (List Node)}
    {otherwise' : Option (List Stmt)} (h : TranslatesOtherwise otherwise otherwise') :
    Marked (all (otherwise.getD [])) (Stmt.otherwiseMarks .names otherwise') := by
  match h with
  | .none => exact marked_pure ()
  | .empty => exact marked_pure ()
  | .some hn =>
    have hclosed := (marked_of_translatesAll hn).closed
    exact hclosed.opens

end

end DrawPlus.Check
