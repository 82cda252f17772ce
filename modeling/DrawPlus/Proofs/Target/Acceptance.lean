import DrawPlus.Proofs.Scope.Accesses
import DrawPlus.Proofs.Scope.Refusals
import DrawPlus.Proofs.Target.Emission

/-!
# Accepted programs have code

When the check accepts a program that is read from a text, code can be written for it: the check
wants exactly as many arguments as the code takes. When it refuses one, then not for want of a rule,
which is no ordinary reason.
-/

namespace DrawPlus.Check

open Node Target

/-! ## Accepted calls have enough arguments -/

/-- The node passes the check in some scope. -/
def Passes (n : Node) : Prop := ∃ s a t, node n s = .ok a t

theorem Passes.of_checked {n m : Node} (h : Passes n) (hm : m ∈ n.checked) : Passes m := by
  obtain ⟨s, a, t, h⟩ := h
  obtain ⟨s', b, t', hnode, -⟩ := (visits_node n).accepts h m hm
  exact ⟨s', b, t', hnode⟩

theorem length_of_calling {arity : ℕ → ScopeError} {argument : ScopeError} {cursor : Value}
    {m : String} {given : List Node} {k : ℕ} {s t : Scope} {a : Option Kind}
    (h : calling arity argument cursor m given s = .ok a t) (hk : (m, k) ∈ takes) :
    given.length = k := by
  have htable : ∀ e ∈ takes, (methods.lookup (.text e.1)).map List.length = some e.2 := by decide
  rw [calling, bind_eq_ok] at h
  obtain ⟨types, r, hsig, h⟩ := h
  rw [ite_eq_ok] at h
  obtain ⟨-, h⟩ | ⟨hlen, -⟩ := h
  · exact absurd h throw_ne_ok
  obtain ⟨-, hm, -⟩ := signature_eq_ok.mp hsig
  have := htable _ hk
  rw [hm, Option.map_some, Option.some.injEq] at this
  omega

theorem supplied_passes : Supplied Passes where
  body_of_branch h n hn := h.of_checked (by simp [checked, children, hn])
  arms_of_branch h arm harm n hn := by
    refine h.of_checked ?_
    rw [checked_branch]
    simp only [List.mem_cons, List.mem_append, List.mem_flatMap]
    exact .inr (.inr (.inl ⟨arm, harm, .inr hn⟩))
  otherwise_of_branch h block hblock n hn := by
    obtain rfl := Option.mem_def.mp hblock
    exact h.of_checked (by simp [checked, children, hn])
  body_of_whileLoop h n hn := h.of_checked (by simp [checked, children, hn])
  body_of_forLoop h n hn := h.of_checked (by simp [checked, children, hn])
  enough_of_change := by
    rintro w m ns k ⟨s, a, t, h⟩ - hk
    rw [node_cursorMethod] at h
    exact (length_of_calling h hk).ge
  enough_of_draw := by
    rintro w m ns k ⟨s, a, t, h⟩ - hk
    rw [node_drawCommand] at h
    exact (length_of_calling h hk).ge

end DrawPlus.Check

namespace DrawPlus

open Check Node Target

theorem exists_translatesAll_of_check {ns : List Node} (hns : ∀ n ∈ ns, n.IsStatement .lexed)
    (h : (Node.program ns).check = .ok ()) : ∃ body, TranslatesAll ns body := by
  obtain ⟨t, hall, -⟩ := check_program_eq_ok.mp h
  have hprogram : Passes (.program ns) := ⟨Scope.empty, none, t, bind_of_ok hall⟩
  exact exists_translatesAll fun n hn =>
    exists_translates supplied_passes (hns n hn)
      (hprogram.of_checked (by simp [checked, children, hn]))

theorem exists_translatesAll_of_ofText {source : String} {ns : List Node}
    (h : Node.ofText source = .ok (.program ns)) (hc : (Node.program ns).check = .ok ()) :
    ∃ body, TranslatesAll ns body := by
  obtain ⟨ns', heq, hns⟩ := isStatement_of_ofText h
  obtain rfl := Node.program.inj heq
  exact exists_translatesAll_of_check hns hc

/-- A program read from a text is never refused for want of a rule, and when it is accepted there is
code for it. -/
theorem accepted_has_code {source : String} {tree : Node} (h : Node.ofText source = .ok tree) :
    (∀ c, tree.check ≠ .error (.noRule c)) ∧
      (tree.check = .ok () → ∃ text, tree.code .standard = .ok text) := by
  refine ⟨fun c hc => ?_, fun hc => ?_⟩
  · cases isOrdinary_of_check h hc with
    | name hname _ => cases hname
  obtain ⟨ns, rfl, hns⟩ := isStatement_of_ofText h
  obtain ⟨body, hbody⟩ := exists_translatesAll_of_check hns hc
  exact ⟨_, code_of_translates hbody⟩

/-- A program with a call inside a branch. -/
def nestedSource : String :=
  "var int windowWidth=400;var int windowHeight=400;cursor c=create_cursor(1,2);" ++
  "if(true)\x7bc.visible();\x7d;"

theorem accepted_has_code_nested : ∃ tree, Node.ofText nestedSource = .ok tree ∧
    tree.check = .ok () ∧ ∃ text, tree.code .standard = .ok text := by
  have hc : (match Node.ofText nestedSource with
    | .ok tree => decide (tree.check = .ok ())
    | .error _ => false) = true := by decide +kernel
  cases ht : Node.ofText nestedSource with
  | ok tree =>
    rw [ht] at hc
    have haccepted := of_decide_eq_true hc
    exact ⟨tree, rfl, haccepted, (accepted_has_code ht).2 haccepted⟩
  | error e =>
    rw [ht] at hc
    cases hc

end DrawPlus
