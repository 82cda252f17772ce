import DrawPlus.Proofs.Parsing.Forms

/-!
# Assignments to the names that size the window

In a tree that is read from a text, an assignment to a window dimension stands nowhere but in the
header of a loop, and there it can stand.

`Part` goes through all of a tree: `children` lists everything that a node holds, with the place in
which it stands, and the parts of a tree are its children, their children and so on.
-/

namespace DrawPlus

namespace Node

inductive Place where
  | statement
  /-- the first or the last part of the header of a loop over a range -/
  | header
  | operand

def children : Node → List (Place × Node)
  | .absent | .bare | .number _ | .text _ | .truth _ | .variable _ => []
  | .program statements => statements.map (.statement, ·)
  | .varDecl _ _ init => [(.operand, init)]
  | .assign _ value => [(.operand, value)]
  | .cursorCreation _ x y => [(.operand, x), (.operand, y)]
  | .cursorMethod _ _ given | .drawCommand _ _ given => given.map (.operand, ·)
  | .branch condition body alternatives otherwise =>
    (.operand, condition) :: body.map (.statement, ·) ++
      (alternatives.flatMap fun arm => (.operand, arm.1) :: arm.2.map (.statement, ·)) ++
      (otherwise.getD []).map (.statement, ·)
  | .whileLoop condition body => (.operand, condition) :: body.map (.statement, ·)
  | .forLoop init condition update body =>
    (.header, init) :: (.operand, condition) :: (.header, update) :: body.map (.statement, ·)
  | .binary left _ right => [(.operand, left), (.operand, right)]
  | .color _ components => (components.getD []).map (.operand, ·)

/-- The node stands in such a place somewhere in the tree. -/
inductive Part (tree : Node) : Place → Node → Prop
  | child {p : Place} {n : Node} : (p, n) ∈ tree.children → Part tree p n
  | deeper {p q : Place} {n m : Node} : Part tree p n → (q, m) ∈ n.children → Part tree q m

theorem sizeOf_child {n m : Node} {p : Place} (h : (p, m) ∈ n.children) : sizeOf m < sizeOf n := by
  have hlist {ns : List Node} {q : Place} (hm : (p, m) ∈ ns.map (q, ·)) : sizeOf m < sizeOf ns := by
    simp only [List.mem_map, Prod.mk.injEq] at hm
    obtain ⟨_, hn, -, rfl⟩ := hm
    exact List.sizeOf_lt_of_mem hn
  cases n with
  | program | cursorMethod | drawCommand =>
    have := hlist h
    simp only [program.sizeOf_spec, cursorMethod.sizeOf_spec, drawCommand.sizeOf_spec]
    omega
  | varDecl | assign | cursorCreation | binary =>
    simp only [children, List.mem_cons, Prod.mk.injEq, List.not_mem_nil, or_false] at h
    simp only [varDecl.sizeOf_spec, assign.sizeOf_spec, cursorCreation.sizeOf_spec,
      binary.sizeOf_spec]
    grind
  | branch condition body alternatives otherwise =>
    simp only [children, List.cons_append, List.mem_cons, List.mem_append, List.mem_flatMap,
      Prod.mk.injEq] at h
    simp only [branch.sizeOf_spec]
    obtain ⟨-, rfl⟩ | (h | ⟨⟨test, block⟩, harm, harms⟩) | h := h
    · omega
    · have := hlist h
      omega
    · have hsize := List.sizeOf_lt_of_mem harm
      simp only [Prod.mk.sizeOf_spec] at hsize harms
      rcases harms with ⟨-, rfl⟩ | hblock
      · omega
      · have := hlist hblock
        omega
    · cases otherwise with
      | none => simp at h
      | some block =>
        have := hlist h
        simp only [Option.some.sizeOf_spec, Option.getD_some] at *
        omega
  | whileLoop | forLoop =>
    simp only [children, List.mem_cons, Prod.mk.injEq] at h
    simp only [whileLoop.sizeOf_spec, forLoop.sizeOf_spec]
    grind
  | color name components =>
    cases components with
    | none => simp [children] at h
    | some parts =>
      have := hlist h
      simp only [color.sizeOf_spec, Option.some.sizeOf_spec, Option.getD_some] at *
      omega
  | _ => simp [children] at h

/-- What holds of a node when it holds of everything that the node holds, holds of all trees. -/
theorem induction_children {P : Node → Prop} (h : ∀ n, (∀ p m, (p, m) ∈ n.children → P m) → P n)
    (n : Node) : P n := by
  induction hsize : sizeOf n using Nat.strong_induction_on generalizing n with
  | _ size ih =>
    apply h
    intro p m hm
    exact ih (sizeOf m) (hsize ▸ sizeOf_child hm) m rfl

/-- The form that belongs in a place. -/
def FormIn (V : Vocabulary) : Place → Node → Prop
  | .statement => IsStatement V
  | .header => IsStart V
  | .operand => IsExpr V

section

variable {V : Vocabulary} {n : Node}

theorem IsExpr.formIn_children (h : IsExpr V n) : ∀ c ∈ n.children, FormIn V c.1 c.2 := by
  cases h with
  | number | truth | hue | name => simp [children]
  | mixed hr hg hb => simp [children, FormIn, hr, hg, hb]
  | binary hl _ hr => simp [children, FormIn, hl, hr]

theorem IsStart.formIn_children (h : IsStart V n) : ∀ c ∈ n.children, FormIn V c.1 c.2 := by
  cases h with
  | declaration h =>
    obtain ⟨-, -, -, he⟩ := h
    simp [children, FormIn, he]
  | assignment h =>
    obtain ⟨-, he⟩ := h
    simp [children, FormIn, he]

theorem IsStatement.formIn_children (hV : V.IsCoarse) (h : IsStatement V n) :
    ∀ c ∈ n.children, FormIn V c.1 c.2 := by
  cases h with
  | declaration h => exact IsStart.formIn_children (.declaration h)
  | assignment _ _ he => simp [children, FormIn, he]
  | creation _ ha hb => simp [children, FormIn, ha, hb]
  | change _ _ _ hns | draw _ _ _ hns => exact List.forall_mem_map.mpr hns
  | @branch _ _ _ otherwise ht hb hts hbs ho =>
    simp only [children, List.cons_append, List.forall_mem_cons, List.forall_mem_append,
      List.forall_mem_map, List.forall_mem_flatMap]
    refine ⟨ht.isExpr hV, ⟨hb, fun arm harm => ⟨(hts arm harm).isExpr hV, hbs arm harm⟩⟩, ?_⟩
    cases otherwise with
    | none => simp
    | some block => exact ho block rfl
  | whileLoop ht hb => exact List.forall_mem_cons.mpr ⟨ht.isExpr hV, List.forall_mem_map.mpr hb⟩
  | forLoop hi ht hu hb =>
    simp only [children, List.forall_mem_cons, List.forall_mem_map]
    exact ⟨hi, ht.isExpr hV, .assignment hu, hb⟩

/-- What stands in a form has forms in all its places. -/
theorem FormIn.forall_children (hV : V.IsCoarse) {p : Place} (h : FormIn V p n) :
    ∀ c ∈ n.children, FormIn V c.1 c.2 := by
  cases p with
  | statement => exact IsStatement.formIn_children hV h
  | header => exact IsStart.formIn_children h
  | operand => exact IsExpr.formIn_children h

end

/-- What the places of a tree hand down from node to node holds of all parts of the tree. -/
theorem Part.inherits {F : Place → Node → Prop} {tree m : Node} {p : Place} (h : Part tree p m)
    (hroot : ∀ c ∈ tree.children, F c.1 c.2)
    (hstep : ∀ {q n}, F q n → ∀ c ∈ n.children, F c.1 c.2) : F p m := by
  induction h with
  | child hm => exact hroot _ hm
  | deeper _ hm ih => exact hstep ih _ hm

theorem formIn_children_program {V : Vocabulary} {ns : List Node}
    (hns : ∀ n ∈ ns, IsStatement V n) : ∀ c ∈ (Node.program ns).children, FormIn V c.1 c.2 :=
  List.forall_mem_map.mpr hns

theorem Part.formIn {V : Vocabulary} (hV : V.IsCoarse) {ns : List Node}
    (hns : ∀ n ∈ ns, IsStatement V n) {p : Place} {m : Node} (h : Part (.program ns) p m) :
    FormIn V p m :=
  h.inherits (formIn_children_program hns) (FormIn.forall_children hV)

end Node

open Node

/-- A window dimension is assigned to in the headers of loops only. -/
theorem header_of_window_assign {source : String} {tree : Node} (h : Node.ofText source = .ok tree)
    {p : Place} {x : Value} {e : Node} (hp : tree.Part p (.assign x e))
    (hx : NameRule.IsWindow x) : p = .header := by
  obtain ⟨tokens, -, hn⟩ := exists_ofTokens_of_ofText h
  obtain ⟨ns, rfl, hns⟩ := isStatement_of_ofTokens hn
  have hform := hp.formIn Vocabulary.isCoarse_any hns
  cases p with
  | header => rfl
  | statement =>
    cases hform with
    | assignment _ hbegins _ => exact absurd hx hbegins
  | operand => cases hform

/-- The width is assigned to in the header of a loop inside a loop. -/
theorem header_of_window_assign_nested :
    let update : Node := .assign "windowWidth" (.binary (.variable "windowWidth") .plus
      (.number (.int 1)))
    let tree : Node := .program [.whileLoop (.truth "true") [.forLoop
      (.assign "i" (.number (.int 5))) (.truth "true") update []]]
    Node.ofText "while (true) \x7b for (i = 5; true; windowWidth += 1) \x7b\x7d; \x7d;" = .ok tree ∧
      tree.Part .header update ∧ ∀ p, tree.Part p update → p = .header := by
  intro update tree
  have ht : Token.ofText "while (true) \x7b for (i = 5; true; windowWidth += 1) \x7b\x7d; \x7d;" =
      .ok [⟨.whileWord, "while", 1, 1⟩, ⟨.leftParen, "(", 1, 7⟩, ⟨.boolValue, "true", 1, 8⟩,
        ⟨.rightParen, ")", 1, 12⟩, ⟨.leftBrace, "\x7b", 1, 14⟩, ⟨.forWord, "for", 1, 16⟩,
        ⟨.leftParen, "(", 1, 20⟩, ⟨.identifier, "i", 1, 21⟩, ⟨.assign, "=", 1, 23⟩,
        ⟨.number, .int 5, 1, 25⟩, ⟨.semicolon, ";", 1, 26⟩, ⟨.boolValue, "true", 1, 28⟩,
        ⟨.semicolon, ";", 1, 32⟩, ⟨.identifier, "windowWidth", 1, 34⟩, ⟨.plusEqual, "+=", 1, 46⟩,
        ⟨.number, .int 1, 1, 49⟩, ⟨.rightParen, ")", 1, 50⟩, ⟨.leftBrace, "\x7b", 1, 52⟩,
        ⟨.rightBrace, "\x7d", 1, 53⟩, ⟨.semicolon, ";", 1, 54⟩, ⟨.rightBrace, "\x7d", 1, 56⟩,
        ⟨.semicolon, ";", 1, 57⟩, ⟨.endOfInput, .absent, 1, 57⟩] := by
    decide +kernel
  have h := @ofText_of_ofTokens _ _ tree ht rfl
  refine ⟨h, ?_, fun p hp => header_of_window_assign h hp (.inl rfl)⟩
  have hloop : tree.Part .statement (.whileLoop (.truth "true") _) := .child (.head _)
  have hrange : tree.Part .statement
      (.forLoop (.assign "i" (.number (.int 5))) (.truth "true") update
      []) := hloop.deeper (by simp [children])
  exact hrange.deeper (by simp [children])

/-- The header of a loop assigns to the width of the window, and its text is read. -/
theorem header_window_assign : ∃ tree,
    Node.ofText "for (windowWidth = 5; true; windowWidth += 1) \x7b\x7d;" = .ok tree ∧
      ∃ p x e, tree.Part p (.assign x e) ∧ NameRule.IsWindow x := by
  have ht : Token.ofText "for (windowWidth = 5; true; windowWidth += 1) \x7b\x7d;" =
      .ok [⟨.forWord, "for", 1, 1⟩, ⟨.leftParen, "(", 1, 5⟩, ⟨.identifier, "windowWidth", 1, 6⟩,
        ⟨.assign, "=", 1, 18⟩, ⟨.number, .int 5, 1, 20⟩, ⟨.semicolon, ";", 1, 21⟩,
        ⟨.boolValue, "true", 1, 23⟩, ⟨.semicolon, ";", 1, 27⟩,
        ⟨.identifier, "windowWidth", 1, 29⟩, ⟨.plusEqual, "+=", 1, 41⟩, ⟨.number, .int 1, 1, 44⟩,
        ⟨.rightParen, ")", 1, 45⟩, ⟨.leftBrace, "\x7b", 1, 47⟩, ⟨.rightBrace, "\x7d", 1, 48⟩,
        ⟨.semicolon, ";", 1, 49⟩, ⟨.endOfInput, .absent, 1, 49⟩] := by
    decide +kernel
  refine ⟨.program [.forLoop (.assign "windowWidth" (.number (.int 5))) (.truth "true")
    (.assign "windowWidth" (.binary (.variable "windowWidth") .plus (.number (.int 1)))) []],
    ofText_of_ofTokens ht rfl, .header, "windowWidth", .number (.int 5), ?_, .inl rfl⟩
  exact .deeper (.child (.head _)) (.head _)

end DrawPlus
