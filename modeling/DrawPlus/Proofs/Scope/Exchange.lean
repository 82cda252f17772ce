import DrawPlus.Proofs.Scope.Renaming

/-!
# Statements in another order

The check of a tree reads of a scope only what it holds of the names that occur in the tree
(`node_local`), and it changes only what the scope holds of the names that the tree declares
(`entry_of_node`). So two statements, neither of which declares a name that occurs in the other, can
be looked at in either order. The scopes after them list the declarations in different orders but
hold the same of every name, and no later part of the check can tell them apart.
-/

namespace DrawPlus

/-! ## What is declared -/

namespace Node

/-- What the check of a tree does with names is done by nodes of the tree. Not every node has its
part in it, as the components of a colour with a name are never looked at. -/
theorem filterMap_accesses_subset {γ : Type} {f : ScopeAccess → Option γ} {g : Node → Option γ}
    (hopening : ∀ n, (opening n).filterMap f = (g n).toList)
    (hclosing : ∀ n, (closing n).filterMap f = []) (n : Node) :
    n.accesses.filterMap f ⊆ n.preorder.filterMap g := by
  induction n using induction_children with
  | h n ih =>
    rw [accesses_eq, List.filterMap_append, List.filterMap_append, hopening, hclosing,
      List.append_nil]
    refine List.append_subset.mpr ⟨?_, ?_⟩
    · intro c hc
      refine List.mem_filterMap.mpr ⟨n, ?_, Option.mem_toList.mp hc⟩
      rw [preorder_eq]
      exact List.mem_cons_self
    · intro c hc
      obtain ⟨a, ha, hac⟩ := List.mem_filterMap.mp hc
      obtain ⟨m, hm, ham⟩ := List.mem_flatMap.mp ha
      obtain ⟨p, hp⟩ := exists_child_of_mem_checked hm
      obtain ⟨k, hk, hkc⟩ := List.mem_filterMap.mp
        (ih p m hp (List.mem_filterMap.mpr ⟨a, ham, hac⟩))
      exact List.mem_filterMap.mpr ⟨k, preorder_subset_of_child hp hk, hkc⟩

theorem entries_accesses_subset (n : Node) :
    n.accesses.filterMap Access.entry? ⊆ n.preorder.filterMap entry? :=
  filterMap_accesses_subset (fun n => by cases n <;> rfl) (fun n => by cases n <;> rfl) n

theorem cursors_accesses_subset (n : Node) :
    n.accesses.filterMap Access.cursor? ⊆ n.preorder.filterMap cursor? :=
  filterMap_accesses_subset (fun n => by cases n <;> rfl) (fun n => by cases n <;> rfl) n

end Node

namespace Check

open Node Scope

variable {m n : Node} {s t u : Scope} {a : Option Kind} {x : Value}

/-! ## One tree -/

/-- The check of a tree leaves what the scope holds of names that the tree does not declare. -/
theorem entry_of_node (h : node n s = .ok a t) (hx : x ∉ n.declaring) : t.entry x = s.entry x := by
  obtain ⟨-, rfl⟩ := (makes_node n).ok h
  rw [declaring, List.mem_append, not_or] at hx
  have hvariable : (n.accesses.filterMap Access.entry?).lookup x = none := by
    rw [List.lookup_eq_none_iff]
    intro entry hentry
    have hmem := List.mem_map_of_mem (f := Prod.fst) (entries_accesses_subset n hentry)
    exact bne_iff_ne.mpr (ne_of_mem_of_not_mem hmem hx.1).symm
  have hcursor : (n.accesses.filterMap Access.cursor?).contains x = false := by
    rw [← Bool.not_eq_true, List.contains_iff_mem]
    exact fun hmem => hx.2 (cursors_accesses_subset n hmem)
  simp only [entry, isCursor]
  rw [declared_addAll, cursors_addAll, List.lookup_append, List.contains_append, hvariable, hcursor,
    Option.or_none, Bool.or_false]

theorem EndAlike.exists_of_ok {α : Type} {ρ : Value → Value} {N : Set Value} {x y : Check α} {a : α}
    (h : EndAlike ρ N x y s t) (hx : x s = .ok a u) : ∃ v, y t = .ok a v ∧ Corresponds ρ N u v := by
  cases h with
  | ok hs ht hsame =>
    rw [hs] at hx
    cases hx
    exact ⟨_, ht, hsame⟩
  | error hs =>
    rw [hs] at hx
    cases hx

/-- How the check of a tree ends depends only on what the scope holds of the names in the tree. -/
theorem node_local (hsame : ∀ x ∈ n.occurring, t.entry x = s.entry x) (h : node n s = .ok a u) :
    ∃ v, node n t = .ok a v ∧ ∀ x ∈ n.occurring, v.entry x = u.entry x := by
  have hrun := parallel_node (N := {x | x ∈ n.occurring}) (Set.injOn_id _) n (fun _ hx => hx)
  rw [rename_id] at hrun
  exact (hrun s t hsame).exists_of_ok h

/-! ## Trees one after the other -/

theorem all_nil : all [] = pure () := rfl

theorem all_cons (n : Node) (ns : List Node) : all (n :: ns) = (do let _ ← node n; all ns) := rfl

theorem all_append (ms ns : List Node) : all (ms ++ ns) = (do all ms; all ns) := by
  induction ms with
  | nil => rfl
  | cons m ms ih => rw [List.cons_append, all_cons, ih, all_cons, bind_assoc]

/-- Nothing of a scope matters for what follows but what it holds of names. -/
theorem all_same {ns : List Node} (hsame : ∀ x, t.entry x = s.entry x) (h : all ns s = .ok () u) :
    ∃ v, all ns t = .ok () v ∧ ∀ x, v.entry x = u.entry x := by
  have hrun : Parallel id Set.univ (all ns) (all (renameAll id ns)) :=
    parallel_all fun n _ => parallel_node (Set.injOn_id _) n fun _ _ => trivial
  rw [renameAll_id] at hrun
  obtain ⟨v, hv, hsame'⟩ := (hrun s t fun x _ => hsame x).exists_of_ok h
  exact ⟨v, hv, fun x => hsame' x trivial⟩

/-- Two trees that do not declare each other's names can be looked at in the other order. -/
theorem all_exchange (hm : ∀ x ∈ m.declaring, x ∉ n.occurring)
    (hn : ∀ x ∈ n.declaring, x ∉ m.occurring) (h : all [m, n] s = .ok () u) :
    ∃ v, all [n, m] s = .ok () v ∧ ∀ x, v.entry x = u.entry x := by
  simp only [all_cons, all_nil, bind_eq_ok, pure_eq_ok, true_and] at h
  obtain ⟨a, s₁, hm₁, b, s₂, hn₂, rfl⟩ := h
  have hfirst : ∀ x ∈ n.occurring, s.entry x = s₁.entry x := by
    intro x hx
    exact (entry_of_node hm₁ fun hdecl => hm x hdecl hx).symm
  obtain ⟨t₁, hn₁, hsame₁⟩ := node_local hfirst hn₂
  have hsecond : ∀ x ∈ m.occurring, t₁.entry x = s.entry x := by
    intro x hx
    exact entry_of_node hn₁ fun hdecl => hn x hdecl hx
  obtain ⟨t₂, hm₂, hsame₂⟩ := node_local hsecond hm₁
  refine ⟨t₂, ?_, ?_⟩
  · simp only [all_cons, all_nil, bind_eq_ok, pure_eq_ok, true_and]
    exact ⟨b, t₁, hn₁, a, t₂, hm₂, rfl⟩
  -- A name is declared by at most one of the two, and the other leaves what is held of it.
  intro x
  by_cases hxn : x ∈ n.declaring
  · have hx := mem_occurring_of_mem_declaring hxn
    rw [entry_of_node hm₂ fun hdecl => hm x hdecl hx, hsame₁ x hx]
  rw [entry_of_node hn₂ hxn]
  by_cases hxm : x ∈ m.declaring
  · exact hsame₂ x (mem_occurring_of_mem_declaring hxm)
  · rw [entry_of_node hm₂ hxm, entry_of_node hn₁ hxn, entry_of_node hm₁ hxm]

end Check

/-! ## Programs -/

open Check in
theorem check_exchanged {before after : List Node} {m n : Node}
    (hm : ∀ x ∈ m.declaring, x ∉ n.occurring) (hn : ∀ x ∈ n.declaring, x ∉ m.occurring)
    (h : (Node.program (before ++ m :: n :: after)).check = .ok ()) :
    (Node.program (before ++ n :: m :: after)).check = .ok () := by
  have hsplit (k l : Node) : before ++ k :: l :: after = before ++ ([k, l] ++ after) := rfl
  rw [check_program_eq_ok, hsplit, all_append, all_append] at h ⊢
  simp only [bind_eq_ok] at h ⊢
  obtain ⟨t, ⟨_, s, hbefore, _, u, hboth, hafter⟩, hwindow⟩ := h
  obtain ⟨u', hboth', hsame⟩ := all_exchange hm hn hboth
  obtain ⟨t', hafter', hsame'⟩ := all_same hsame hafter
  refine ⟨t', ⟨(), s, hbefore, (), u', hboth', hafter'⟩, ?_⟩
  rw [windowDimensions_eq_ok] at hwindow ⊢
  rw [Scope.typeOf?_congr (hsame' _), Scope.typeOf?_congr (hsame' _)]
  exact ⟨hwindow.1, rfl⟩

/-- Two neighbouring statements of a program can change places if neither declares a name that
occurs in the other: the program is accepted in both orders or in none. -/
theorem check_exchange_iff (before after : List Node) {m n : Node}
    (hm : ∀ x ∈ m.declaring, x ∉ n.occurring) (hn : ∀ x ∈ n.declaring, x ∉ m.occurring) :
    (Node.program (before ++ m :: n :: after)).check = .ok () ↔
      (Node.program (before ++ n :: m :: after)).check = .ok () :=
  ⟨check_exchanged hm hn, check_exchanged hn hm⟩

/-- The creation of a cursor and a loop that declares a counter, in a program that later uses
both. -/
theorem check_exchange_iff_counting :
    let before : List Node := [.varDecl (some .int) "windowWidth" (.number (.int 400)),
      .varDecl (some .int) "windowHeight" (.number (.int 400))]
    let creation : Node := .cursorCreation "c" (.variable "windowWidth") (.number (.int 2))
    let loop : Node := .whileLoop (.truth "true") [.varDecl (some .int) "i" (.number (.int 1)),
      .assign "i" (.binary (.variable "i") .plus (.variable "windowWidth"))]
    let after : List Node := [.cursorMethod "c" "move" [.variable "i"]]
    (∀ x ∈ creation.declaring, x ∉ loop.occurring) ∧
      (∀ x ∈ loop.declaring, x ∉ creation.occurring) ∧
      (Node.program (before ++ creation :: loop :: after)).check = .ok () ∧
      (Node.program (before ++ loop :: creation :: after)).check = .ok () := by
  intro before creation loop after
  have hcreation : ∀ x ∈ creation.declaring, x ∉ loop.occurring := by
    decide +kernel
  have hloop : ∀ x ∈ loop.declaring, x ∉ creation.occurring := by
    decide +kernel
  have haccepted : (Node.program (before ++ creation :: loop :: after)).check = .ok () := by decide
  exact ⟨hcreation, hloop, haccepted,
    (check_exchange_iff before after hcreation hloop).mp haccepted⟩

end DrawPlus
