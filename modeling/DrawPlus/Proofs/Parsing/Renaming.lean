import DrawPlus.Proofs.Scope.Renaming
import DrawPlus.Proofs.Parsing.Forms

/-!
# Reading programs and the choice of names

The tokens of a program with their names replaced are read exactly when the tokens themselves are,
and what is read is the tree with its names replaced, as long as the two names that size the window
stay what they are and no other name is replaced by them.

The argument goes through the grammar, whose rules look at the kinds of tokens and not at their
names, but for what `NameRule.window` says of the window. It needs no more of a replacement than
that it respects those two names, so it also applies to the way back from a replacement that keeps
names apart.
-/

namespace DrawPlus

/-! ## Replacing names -/

/-- Whether a word can name a variable or a cursor. -/
def isNameWord (w : String) : Bool :=
  match w.toList with
  | [] => false
  | c :: rest => isWordStart c && rest.all isWordChar && (keywords.lookup w).isNone

theorem isNameWord_iff {w : String} : isNameWord w = true ↔ IsName w := by
  unfold isNameWord
  constructor
  · intro h
    cases hw : w.toList with
    | nil => simp [hw] at h
    | cons c rest =>
      simp only [hw, Bool.and_eq_true, List.all_eq_true, Option.isNone_iff_eq_none] at h
      exact ⟨⟨c, rest, hw, h.1.1, h.1.2⟩, h.2⟩
  · rintro ⟨⟨c, rest, hw, hc, hrest⟩, hfree⟩
    simp only [hw, hc, Bool.true_and, Bool.and_eq_true, List.all_eq_true, hfree, Option.isNone_none,
      and_true]
    exact hrest

instance : DecidablePred IsName := fun _ => decidable_of_iff _ isNameWord_iff

/-- The words that can name a variable or a cursor. -/
abbrev Identifier := {w : String // IsName w}

/-- A replacement of names, as one of words. A word that is no name stays. -/
def replaceWord (r : Identifier → Identifier) (w : String) : String :=
  if h : IsName w then r ⟨w, h⟩ else w

/-- A replacement of names, as one of values. -/
def replaceText (r : Identifier → Identifier) : Value → Value
  | .text w => .text (replaceWord r w)
  | v => v

section

variable {r : Identifier → Identifier}

theorem isName_replaceWord {w : String} (h : IsName w) : IsName (replaceWord r w) := by
  rw [replaceWord, dif_pos h]
  exact (r ⟨w, h⟩).2

/-- As names are replaced by names, none is mistaken for a word that is no name. -/
theorem replaceWord_injective (hr : Function.Injective r) : Function.Injective (replaceWord r) := by
  intro w w' heq
  unfold replaceWord at heq
  split_ifs at heq with h h' h'
  · exact congrArg Subtype.val (hr (Subtype.ext heq))
  · rw [← heq] at h'
    exact absurd (r ⟨w, h⟩).2 h'
  · rw [heq] at h
    exact absurd (r ⟨w', h'⟩).2 h
  · exact heq

theorem replaceText_injective (hr : Function.Injective r) : Function.Injective (replaceText r) := by
  intro v v' heq
  cases v with
  | text w =>
    cases v' with
    | text w' => exact congrArg Value.text (replaceWord_injective hr (Value.text.inj heq))
    | _ => cases heq
  | _ =>
    cases v' with
    | text w' => cases heq
    | _ => exact heq

/-- Names that stay as names stay as values. -/
theorem replaceText_of_isWindow (hfix : ∀ x : Identifier, NameRule.IsWindow x.1 → r x = x)
    {v : Value} (hv : NameRule.IsWindow v) : replaceText r v = v := by
  have hword {w : String} (hw : NameRule.IsWindow w) : replaceText r w = w := by
    apply congrArg Value.text
    unfold replaceWord
    split_ifs with h
    · rw [hfix ⟨w, h⟩ hw]
    · rfl
  rcases hv with rfl | rfl
  · exact hword (.inl rfl)
  · exact hword (.inr rfl)

end

/-- The names that size the window are replaced by such names, and no other name is. -/
def RespectsWindow (ρ : Value → Value) : Prop :=
  ∀ x, NameRule.IsWindow (ρ x) ↔ NameRule.IsWindow x

def Token.rename (ρ : Value → Value) (t : Token) : Token :=
  if t.kind = .identifier then { t with value := ρ t.value } else t

namespace Token

variable (ρ : Value → Value) {t : Token}

@[simp] theorem kind_rename (t : Token) : (t.rename ρ).kind = t.kind := by
  unfold rename
  split_ifs <;> rfl

theorem kind_rename_of_eq {k : Kind} (h : t.kind = k) : (t.rename ρ).kind = k :=
  (kind_rename ρ t).trans h

theorem value_rename (h : t.kind = .identifier) : (t.rename ρ).value = ρ t.value := by
  rw [rename, if_pos h]

theorem value_rename_of_ne (h : t.kind ≠ .identifier) : (t.rename ρ).value = t.value := by
  rw [rename, if_neg h]

end Token

/-! ## Derivations -/

namespace Grammar

open Node Token

variable {ρ : Value → Value}

mutual

theorem Sum.rename {ts : List Token} {n : Node} :
    Sum ts n → Sum (ts.map (Token.rename ρ)) (n.rename ρ)
  | .product h => .product h.rename
  | @Sum.more _ _ op _ _ hl hop hr => by
    rw [← kind_rename ρ op] at hop ⊢
    simp only [List.map_append, List.map_cons, rename_binary]
    exact .more hl.rename hop hr.rename

theorem Product.rename {ts : List Token} {n : Node} :
    Product ts n → Product (ts.map (Token.rename ρ)) (n.rename ρ)
  | .factor h => .factor h.rename
  | @Product.more _ _ op _ _ hl hop hr => by
    rw [← kind_rename ρ op] at hop ⊢
    simp only [List.map_append, List.map_cons, rename_binary]
    exact .more hl.rename hop hr.rename

theorem Factor.rename {ts : List Token} {n : Node} :
    Factor ts n → Factor (ts.map (Token.rename ρ)) (n.rename ρ)
  | .number hk => by
    rw [← value_rename_of_ne ρ (by simp [hk])]
    exact .number (kind_rename_of_eq ρ hk)
  | .truth hk => by
    rw [← value_rename_of_ne ρ (by simp [hk])]
    exact .truth (kind_rename_of_eq ρ hk)
  | .hue hk => by
    rw [← value_rename_of_ne ρ (by simp [hk])]
    exact .hue (kind_rename_of_eq ρ hk)
  | .mixed hw ha hr hc hg hd hb hz => by
    simp only [List.map_append, List.map_cons, List.map_nil, rename_color, Option.map_some,
      renameAll_cons, renameAll_nil]
    exact .mixed (kind_rename_of_eq ρ hw) (kind_rename_of_eq ρ ha) hr.rename
      (kind_rename_of_eq ρ hc) hg.rename (kind_rename_of_eq ρ hd) hb.rename
      (kind_rename_of_eq ρ hz)
  | .variable hk => by
    rw [rename_variable, ← value_rename ρ hk]
    exact .variable (kind_rename_of_eq ρ hk)
  | .group ha hn hz => by
    simp only [List.map_append, List.map_cons, List.map_nil]
    exact .group (kind_rename_of_eq ρ ha) hn.rename (kind_rename_of_eq ρ hz)

end

variable {ts : List Token} {n : Node}

theorem Condition.rename (h : Condition ts n) :
    Condition (ts.map (Token.rename ρ)) (n.rename ρ) := by
  cases h with
  | sum hn => exact .sum hn.rename
  | @comparison _ _ op _ _ hl hop hr =>
    rw [← kind_rename ρ op] at hop ⊢
    simp only [List.map_append, List.map_cons, rename_binary]
    exact .comparison hl.rename hop hr.rename

theorem Guarded.rename (h : Guarded ts n) : Guarded (ts.map (Token.rename ρ)) (n.rename ρ) := by
  cases h with
  | intro ha hn hz =>
    simp only [List.map_append, List.map_cons, List.map_nil]
    exact .intro (kind_rename_of_eq ρ ha) hn.rename (kind_rename_of_eq ρ hz)

theorem Assignment.rename (h : Assignment ts n) :
    Assignment (ts.map (Token.rename ρ)) (n.rename ρ) := by
  cases h with
  | plain hx ha hn =>
    simp only [List.map_cons, rename_assign, ← value_rename ρ hx]
    exact .plain (kind_rename_of_eq ρ hx) (kind_rename_of_eq ρ ha) hn.rename
  | @compound _ a _ _ _ hx ha hn =>
    rw [← kind_rename ρ a] at ha
    simp only [List.map_cons, rename_assign, rename_binary, rename_variable,
      ← value_rename ρ hx]
    exact .compound (kind_rename_of_eq ρ hx) ha hn.rename

theorem Creation.rename (h : Creation ts n) : Creation (ts.map (Token.rename ρ)) (n.rename ρ) := by
  cases h with
  | intro hw hx ha hk hp hm hc hn hq hz =>
    simp only [List.map_append, List.map_cons, List.map_nil, rename_cursorCreation,
      ← value_rename ρ hx]
    exact .intro (kind_rename_of_eq ρ hw) (kind_rename_of_eq ρ hx) (kind_rename_of_eq ρ ha)
      (kind_rename_of_eq ρ hk) (kind_rename_of_eq ρ hp) hm.rename (kind_rename_of_eq ρ hc)
      hn.rename (kind_rename_of_eq ρ hq) (kind_rename_of_eq ρ hz)

theorem Listed.rename {ns : List Node} (h : Listed ts ns) :
    Listed (ts.map (Token.rename ρ)) (renameAll ρ ns) := by
  induction h with
  | one hn => exact .one hn.rename
  | more hn hc _ ih =>
    simp only [List.map_append, List.map_cons, renameAll_cons]
    exact .more hn.rename (kind_rename_of_eq ρ hc) ih

theorem Arguments.rename {ns : List Node} (h : Arguments ts ns) :
    Arguments (ts.map (Token.rename ρ)) (renameAll ρ ns) := by
  cases h with
  | none => exact .none
  | some hl => exact .some hl.rename

theorem Call.rename (h : Call ts n) : Call (ts.map (Token.rename ρ)) (n.rename ρ) := by
  cases h with
  | @draw _ _ m _ _ _ _ _ hx hd hm hp hns hq hz =>
    have hne : m.kind ≠ .identifier := fun h => absurd (h ▸ hm) (by decide)
    rw [← kind_rename ρ m] at hm
    simp only [List.map_append, List.map_cons, List.map_nil, rename_drawCommand,
      ← value_rename ρ hx, ← value_rename_of_ne ρ hne]
    exact .draw (kind_rename_of_eq ρ hx) (kind_rename_of_eq ρ hd) hm (kind_rename_of_eq ρ hp)
      hns.rename (kind_rename_of_eq ρ hq) (kind_rename_of_eq ρ hz)
  | @change _ _ m _ _ _ _ _ hx hd hm hp hns hq hz =>
    have hne : m.kind ≠ .identifier := fun h => absurd (h ▸ hm) (by decide)
    rw [← kind_rename ρ m] at hm
    simp only [List.map_append, List.map_cons, List.map_nil, rename_cursorMethod,
      ← value_rename ρ hx, ← value_rename_of_ne ρ hne]
    exact .change (kind_rename_of_eq ρ hx) (kind_rename_of_eq ρ hd) hm (kind_rename_of_eq ρ hp)
      hns.rename (kind_rename_of_eq ρ hq) (kind_rename_of_eq ρ hz)

theorem Assignment.kind_head {x : Token} (h : Assignment (x :: ts) n) : x.kind = .identifier := by
  cases h <;> assumption

theorem Call.kind_head {x : Token} (h : Call (x :: ts) n) : x.kind = .identifier := by
  cases h <;> assumption

/-! ### The rule for the window -/

section

variable (hwindow : RespectsWindow ρ)

include hwindow

theorem begins_rename {x : Token} (hx : x.kind = .identifier)
    (h : NameRule.window.begins x.value) : NameRule.window.begins (x.rename ρ).value := by
  rw [value_rename ρ hx]
  exact fun hw => h ((hwindow _).mp hw)

/-- A tree that is a literal after replacing names was that literal before. -/
theorem declares_rename {type : Kind} {name : Value} {init : Node}
    (h : NameRule.window.declares type name init) :
    NameRule.window.declares type (ρ name) (init.rename ρ) := by
  intro hw
  obtain ⟨htype, hrange⟩ := h ((hwindow _).mp hw)
  refine ⟨htype, fun v hv => hrange v ?_⟩
  cases init with
  | number => exact hv
  | branch => rw [rename_branch] at hv; cases hv
  | color => rw [rename_color] at hv; cases hv
  | _ => cases hv

theorem Declaration.rename (h : Declaration .window ts n) :
    Declaration .window (ts.map (Token.rename ρ)) (n.rename ρ) := by
  cases h with
  | @intro _ t _ _ _ _ _ hv ht hx ha hn hd hz =>
    have hd := declares_rename hwindow hd
    rw [← kind_rename ρ t] at ht hd ⊢
    simp only [List.map_append, List.map_cons, List.map_nil, rename_varDecl,
      ← value_rename ρ hx] at hd ⊢
    exact .intro (kind_rename_of_eq ρ hv) ht (kind_rename_of_eq ρ hx) (kind_rename_of_eq ρ ha)
      hn.rename hd (kind_rename_of_eq ρ hz)

theorem Start.rename (h : Start .window ts n) :
    Start .window (ts.map (Token.rename ρ)) (n.rename ρ) := by
  cases h with
  | declaration hd => exact .declaration (hd.rename hwindow)
  | assignment ha hz =>
    rw [List.map_append]
    exact .assignment ha.rename (kind_rename_of_eq ρ hz)

end

mutual

theorem Statement.rename (hwindow : RespectsWindow ρ) {ts : List Token} {n : Node} :
    Statement .window ts n → Statement .window (ts.map (Token.rename ρ)) (n.rename ρ)
  | .declaration h => .declaration (h.rename hwindow)
  | .creation h => .creation h.rename
  | .assignment h hb hz => by
    simp only [List.map_append, List.map_cons, List.map_nil]
    exact .assignment h.rename (begins_rename hwindow h.kind_head hb) (kind_rename_of_eq ρ hz)
  | .call h hb => .call h.rename (begins_rename hwindow h.kind_head hb)
  | .branch hw hc hb ha ho hz => by
    simp only [List.map_append, List.map_cons, List.map_nil, rename_branch]
    exact .branch (kind_rename_of_eq ρ hw) hc.rename (hb.rename hwindow) (ha.rename hwindow)
      (ho.rename hwindow) (kind_rename_of_eq ρ hz)
  | .forLoop hw hp hi hc hs hu hq hb hz => by
    simp only [List.map_append, List.map_cons, List.map_nil, rename_forLoop]
    exact .forLoop (kind_rename_of_eq ρ hw) (kind_rename_of_eq ρ hp) (hi.rename hwindow) hc.rename
      (kind_rename_of_eq ρ hs) hu.rename (kind_rename_of_eq ρ hq) (hb.rename hwindow)
      (kind_rename_of_eq ρ hz)
  | .whileLoop hw hc hb hz => by
    simp only [List.map_append, List.map_cons, List.map_nil, rename_whileLoop]
    exact .whileLoop (kind_rename_of_eq ρ hw) hc.rename (hb.rename hwindow)
      (kind_rename_of_eq ρ hz)

theorem Statements.rename (hwindow : RespectsWindow ρ) {ts : List Token} {ns : List Node} :
    Statements .window ts ns → Statements .window (ts.map (Token.rename ρ)) (renameAll ρ ns)
  | .nil => .nil
  | .cons hn hns => by
    rw [List.map_append, renameAll_cons]
    exact .cons (hn.rename hwindow) (hns.rename hwindow)

theorem Block.rename (hwindow : RespectsWindow ρ) {ts : List Token} {ns : List Node} :
    Block .window ts ns → Block .window (ts.map (Token.rename ρ)) (renameAll ρ ns)
  | .intro ha hns hz => by
    simp only [List.map_append, List.map_cons, List.map_nil]
    exact .intro (kind_rename_of_eq ρ ha) (hns.rename hwindow) (kind_rename_of_eq ρ hz)

theorem Arms.rename (hwindow : RespectsWindow ρ) {ts : List Token} {as : List (Node × List Node)} :
    Arms .window ts as → Arms .window (ts.map (Token.rename ρ)) (renameArms ρ as)
  | .nil => .nil
  | .cons hw hc hb ha => by
    simp only [List.map_append, List.map_cons, renameArms_cons]
    exact .cons (kind_rename_of_eq ρ hw) hc.rename (hb.rename hwindow) (ha.rename hwindow)

theorem Otherwise.rename (hwindow : RespectsWindow ρ) {ts : List Token} {o : Option (List Node)} :
    Otherwise .window ts o → Otherwise .window (ts.map (Token.rename ρ)) (o.map (renameAll ρ))
  | .none => .none
  | .some hw hb => .some (kind_rename_of_eq ρ hw) (hb.rename hwindow)

end

end Grammar

/-! ## Reading -/

namespace Token

variable {t : Token} {ts : List Token}

theorem rename_rename {ρ σ : Value → Value} (h : ∀ x, σ (ρ x) = x) (t : Token) :
    (t.rename ρ).rename σ = t := by
  unfold rename
  split_ifs with hk
  · simp [h]
  · rfl

theorem Faithful.rename {r : Identifier → Identifier} (h : t.Faithful) :
    (t.rename (replaceText r)).Faithful := by
  unfold Token.rename
  split_ifs with hk
  · obtain ⟨w, hw, hname⟩ := h.value_of_identifier hk
    rw [hw, hk]
    exact .name (isName_replaceWord hname)
  · exact h

theorem Lexed.rename {r : Identifier → Identifier} (h : Lexed ts) :
    Lexed (ts.map (Token.rename (replaceText r))) := by
  obtain ⟨body, last, rfl, hk, hf⟩ := h
  refine ⟨body.map (Token.rename (replaceText r)), last.rename (replaceText r), List.map_append,
    kind_rename_of_eq _ hk, ?_⟩
  intro t ht
  obtain ⟨u, hu, rfl⟩ := List.mem_map.mp ht
  exact (hf u hu).rename

end Token

section

variable {tokens : List Token} {tree : Node}

/-- A replacement that respects the names of the window carries a reading along, provided the tokens
are such as can be read from a text before and after it. -/
theorem ofTokens_rename {ρ : Value → Value} (hwindow : RespectsWindow ρ) (hl : Token.Lexed tokens)
    (hl' : Token.Lexed (tokens.map (Token.rename ρ))) (h : Node.ofTokens tokens = .ok tree) :
    Node.ofTokens (tokens.map (Token.rename ρ)) = .ok (tree.rename ρ) := by
  obtain ⟨ns, rfl, hns⟩ := derived_of_ofTokens hl h
  apply ofTokens_of_derived hl'
  rw [← List.map_dropLast]
  exact hns.rename hwindow

/-- A replacement that keeps values apart and respects the names of the window has a way back that
respects them too. -/
theorem exists_leftInverse_of_window {ρ : Value → Value} (hρ : Function.Injective ρ)
    (hwindow : RespectsWindow ρ) : ∃ σ : Value → Value, (∀ x, σ (ρ x) = x) ∧ RespectsWindow σ := by
  have hback : ∀ x, Function.extend ρ id id (ρ x) = x := hρ.extend_apply id id
  refine ⟨Function.extend ρ id id, hback, fun y => ?_⟩
  by_cases hy : ∃ x, ρ x = y
  · obtain ⟨x, rfl⟩ := hy
    rw [hback, hwindow x]
  · rw [Function.extend_apply' _ _ _ hy, id]

end

section

variable {r : Identifier → Identifier}

theorem respectsWindow_replaceText (hr : Function.Injective r)
    (hfix : ∀ x : Identifier, NameRule.IsWindow x.1 → r x = x) :
    RespectsWindow (replaceText r) := by
  intro v
  constructor
  · intro hv
    rwa [replaceText_injective hr (replaceText_of_isWindow hfix hv)] at hv
  · intro hv
    rwa [replaceText_of_isWindow hfix hv]

/-- The choice of names makes no difference. With the names replaced one for one, but for the two
that size the window, the tokens of a text are read if and only if they were before, the tree that
is read has its names replaced, and a tree with its names replaced is accepted if and only if the
tree is. -/
theorem ofTokens_check_replaceText {tokens : List Token} (hl : Token.Lexed tokens)
    (hr : Function.Injective r) (hfix : ∀ x : Identifier, NameRule.IsWindow x.1 → r x = x) :
    (Node.ofTokens (tokens.map (Token.rename (replaceText r)))).toOption =
        (Node.ofTokens tokens).toOption.map (Node.rename (replaceText r)) ∧
      ∀ tree : Node, (tree.rename (replaceText r)).check = .ok () ↔ tree.check = .ok () := by
  have hwindow := respectsWindow_replaceText hr hfix
  have hl' : Token.Lexed (tokens.map (Token.rename (replaceText r))) := hl.rename
  constructor
  · cases h : Node.ofTokens tokens with
    | ok tree => rw [ofTokens_rename hwindow hl hl' h]; rfl
    | error e =>
      cases h' : Node.ofTokens (tokens.map (Token.rename (replaceText r))) with
      | error e' => rfl
      | ok tree' =>
        -- a reading of the replaced names would be carried back to the tokens themselves
        obtain ⟨σ, hσ, hσwindow⟩ := exists_leftInverse_of_window (replaceText_injective hr) hwindow
        have hback : (tokens.map (Token.rename (replaceText r))).map (Token.rename σ) = tokens := by
          rw [List.map_map]
          exact List.map_id'' (Token.rename_rename hσ) tokens
        have := ofTokens_rename hσwindow hl' (hback.symm ▸ hl) h'
        rw [hback, h] at this
        cases this
  · intro tree
    rw [check_rename (replaceText_injective hr) (fun _ => replaceText_of_isWindow hfix)]
    cases tree.check with
    | ok => rfl
    | error e => exact iff_of_false nofun nofun

end

/-- A program in which a variable `a` sizes a cursor `b`, and the same program with the two names
exchanged. -/
theorem ofTokens_check_replaceText_swap :
    let words : List (Kind × Value) := [(.var, "var"), (.int, "int"), (.identifier, "windowWidth"),
      (.assign, "="), (.number, .int 400), (.semicolon, ";"), (.var, "var"), (.int, "int"),
      (.identifier, "windowHeight"), (.assign, "="), (.number, .int 400), (.semicolon, ";"),
      (.var, "var"), (.int, "int"), (.identifier, "a"), (.assign, "="), (.number, .int 5),
      (.semicolon, ";"), (.cursor, "cursor"), (.identifier, "b"), (.assign, "="),
      (.createCursor, "create_cursor"), (.leftParen, "("), (.identifier, "a"), (.comma, ","),
      (.identifier, "a"), (.rightParen, ")"), (.semicolon, ";"), (.endOfInput, .absent)]
    let tokens : List Token := words.map fun e => ⟨e.1, e.2, 1, 1⟩
    let body (x y : String) : Node := .program [
      .varDecl (some .int) "windowWidth" (.number (.int 400)),
      .varDecl (some .int) "windowHeight" (.number (.int 400)),
      .varDecl (some .int) x (.number (.int 5)), .cursorCreation y (.variable x) (.variable x)]
    ∃ r : Identifier → Identifier, Token.Lexed tokens ∧ Function.Injective r ∧
      (∀ x : Identifier, NameRule.IsWindow x.1 → r x = x) ∧
      Node.ofTokens tokens = .ok (body "a" "b") ∧
      (Node.ofTokens (tokens.map (Token.rename (replaceText r)))).toOption = some (body "b" "a") ∧
      (body "b" "a").check = .ok () := by
  intro words tokens body
  have ha : IsName "a" := by decide
  have hb : IsName "b" := by decide
  let r : Identifier → Identifier := Equiv.swap ⟨"a", ha⟩ ⟨"b", hb⟩
  have hl : Token.Lexed tokens := by
    refine ⟨tokens.dropLast, ⟨.endOfInput, .absent, 1, 1⟩, rfl, rfl, ?_⟩
    simp only [tokens, words, List.map, List.dropLast, List.forall_mem_cons, List.not_mem_nil,
      false_implies, implies_true, and_true]
    exact ⟨.keyword (by decide), .keyword (by decide), .name (by decide), .sign rfl, .integer 400,
      .sign rfl, .keyword (by decide), .keyword (by decide), .name (by decide), .sign rfl,
      .integer 400, .sign rfl, .keyword (by decide), .keyword (by decide), .name ha, .sign rfl,
      .integer 5, .sign rfl, .keyword (by decide), .name hb, .sign rfl, .keyword (by decide),
      .sign rfl, .name ha, .sign rfl, .name ha, .sign rfl, .sign rfl⟩
  have hr : Function.Injective r := (Equiv.swap _ _).injective
  have hfix : ∀ x : Identifier, NameRule.IsWindow x.1 → r x = x := by
    intro x hx
    refine Equiv.swap_apply_of_ne_of_ne ?_ ?_ <;>
    · rintro rfl
      revert hx
      simp [NameRule.IsWindow]
  have hread : Node.ofTokens tokens = .ok (body "a" "b") := rfl
  have hbody : (body "a" "b").rename (replaceText r) = body "b" "a" := rfl
  obtain ⟨hrenamed, hcheck⟩ := ofTokens_check_replaceText hl hr hfix
  refine ⟨r, hl, hr, hfix, hread, ?_, ?_⟩
  · rw [hrenamed, hread, ← hbody]
    rfl
  · rw [← hbody, hcheck]
    decide

end DrawPlus
