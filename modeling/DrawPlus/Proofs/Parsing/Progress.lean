import DrawPlus.Proofs.Lexemes
import DrawPlus.Proofs.Actions
import DrawPlus.Tree.Parse

/-!
# Reading comes to an end

On tokens that end in a closing token every rule of the grammar comes to an end: it succeeds or it
complains at a token, and the bound on the depth of calls is never reached. The reason is that no
rule takes a closing token, so that every token taken leaves fewer of them, and that between two
calls of the same rule at least one token is taken.

`Ends Q least n x` says this of one rule and is closed under sequencing. The feed after a rule is
the feed before it moved on by some tokens, of which at least `least` if the rule succeeds.
-/

namespace DrawPlus

def Value.IsNumber : Value → Prop
  | .int _ | .double _ | .bool _ => True
  | .absent | .text _ => False

/-- The token carries a text if it is the name of a method, and a number if it is one. -/
structure Token.Proper (t : Token) : Prop where
  method : Parse.isMethod t.kind = true → ∃ w : String, t.value = .text w
  number : t.kind = .number → t.value.IsNumber

namespace Feed

variable {f g h : Feed} {i j : ℕ}

/-- The tokens of the feed carry what they should, and the last one is a closing token. -/
structure Closed (f : Feed) : Prop where
  proper : ∀ t ∈ f.current :: f.rest, t.Proper
  last : ((f.current :: f.rest).getLast (by simp)).kind = .endOfInput

/-- The second feed is the first one moved on by at least `least` tokens. -/
def Leads (f : Feed) (least : ℕ) (g : Feed) : Prop :=
  ∃ k, least ≤ k ∧ k ≤ f.rest.length ∧ g = next^[k] f

theorem tokens_next {t : Token} {rest : List Token} (h : f.rest = t :: rest) :
    f.next.current = t ∧ f.next.rest = rest := by
  rw [next, h]
  exact ⟨rfl, rfl⟩

theorem closed_next {t : Token} {rest : List Token} (hf : f.Closed) (h : f.rest = t :: rest) :
    f.next.Closed := by
  obtain ⟨hcurrent, hrest⟩ := tokens_next h
  constructor
  · rw [hcurrent, hrest, ← h]
    exact fun t ht => hf.proper t (List.mem_cons_of_mem _ ht)
  · have hlast := hf.last
    rw [List.getLast_cons (by simp [h])] at hlast
    simpa only [hcurrent, hrest, h] using hlast

theorem closed_iterate (hf : f.Closed) (k : ℕ) (hk : k ≤ f.rest.length) :
    (next^[k] f).Closed ∧ (next^[k] f).rest.length + k = f.rest.length := by
  induction k with
  | zero => exact ⟨hf, rfl⟩
  | succ k ih =>
    obtain ⟨hclosed, hlength⟩ := ih (by omega)
    rw [Function.iterate_succ_apply']
    cases hrest : (next^[k] f).rest with
    | nil =>
      rw [hrest] at hlength
      simp only [List.length_nil] at hlength
      omega
    | cons t rest =>
      refine ⟨closed_next hclosed hrest, ?_⟩
      rw [(tokens_next hrest).2]
      rw [hrest, List.length_cons] at hlength
      omega

theorem leads_refl (f : Feed) : f.Leads 0 f := ⟨0, le_rfl, Nat.zero_le _, rfl⟩

theorem Leads.mono (h : f.Leads i g) (hj : j ≤ i) : f.Leads j g :=
  h.imp fun _ hk => ⟨hj.trans hk.1, hk.2⟩

theorem Leads.closed (h : f.Leads i g) (hf : f.Closed) : g.Closed := by
  obtain ⟨k, -, hk, rfl⟩ := h
  exact (closed_iterate hf k hk).1

theorem Leads.length (h : f.Leads i g) (hf : f.Closed) : g.rest.length + i ≤ f.rest.length := by
  obtain ⟨k, hi, hk, rfl⟩ := h
  have hlength := (closed_iterate hf k hk).2
  omega

theorem Leads.trans (hg : f.Leads i g) (hf : f.Closed) (hh : g.Leads j h) : f.Leads (i + j) h := by
  obtain ⟨k, hi, hk, rfl⟩ := hg
  obtain ⟨l, hj, hl, rfl⟩ := hh
  have hlength := (closed_iterate hf k hk).2
  refine ⟨l + k, by omega, by omega, ?_⟩
  rw [Function.iterate_add_apply]

theorem leads_next (hf : f.Closed) (hk : f.current.kind ≠ .endOfInput) : f.Leads 1 f.next := by
  refine ⟨1, le_rfl, ?_, rfl⟩
  cases hrest : f.rest with
  | nil =>
    have hlast := hf.last
    simp only [hrest, List.getLast_singleton] at hlast
    exact absurd hlast hk
  | cons t rest => simp

end Feed

namespace Parse

/-- From a closed feed with at most `n` tokens after the current one, the rule ends: it gives a
result with the property and takes at least `least` tokens, or it complains at a token. -/
def Ends {α : Type} (Q : α → Prop) (least n : ℕ) (x : Parse α) : Prop :=
  ∀ f : Feed, f.Closed → f.rest.length ≤ n →
    (∃ a g, x f = .ok a g ∧ Q a ∧ f.Leads least g) ∨
    ∃ c g, x f = .error (.found g.current c) g ∧ f.Leads 0 g

section

variable {α β : Type} {Q : α → Prop} {R : β → Prop} {i j n : ℕ} {x y : Parse α}

theorem Ends.bind {f : α → Parse β} (hx : Ends Q i n x)
    (hf : ∀ a, Q a → i ≤ n → Ends R 0 (n - i) (f a)) : Ends R i n (x >>= f) := by
  intro s hs hn
  rcases hx s hs hn with ⟨a, g, ha, hQ, hg⟩ | ⟨c, g, hc, hg⟩
  · have hlength := hg.length hs
    rw [bind_of_ok ha]
    rcases hf a hQ (by omega) g (hg.closed hs) (by omega) with ⟨b, h, hb, hR, hh⟩ | ⟨c, h, hc, hh⟩
    · exact .inl ⟨b, h, hb, hR, hg.trans hs hh⟩
    · exact .inr ⟨c, h, hc, (hg.trans hs hh).mono (Nat.zero_le _)⟩
  · exact .inr ⟨c, g, bind_eq_error.mpr (.inl hc), hg⟩

theorem Ends.mono {P : α → Prop} (hx : Ends Q i n x) (hj : j ≤ i) (hQ : ∀ a, Q a → P a) :
    Ends P j n x := by
  intro s hs hn
  rcases hx s hs hn with ⟨a, g, ha, h, hg⟩ | herror
  · exact .inl ⟨a, g, ha, hQ a h, hg.mono hj⟩
  · exact .inr herror

theorem Ends.zero (hx : Ends Q i n x) : Ends Q 0 n x := hx.mono (Nat.zero_le i) fun _ h => h

theorem Ends.andThen {f : α → Parse β} (hx : Ends Q i n x)
    (hf : ∀ a, Q a → i ≤ n → Ends R 0 (n - i) (f a)) : Ends R 0 n (x >>= f) := (hx.bind hf).zero

theorem ends_pure {a : α} (h : Q a) : Ends Q 0 n (pure a) :=
  fun s _ _ => .inl ⟨a, s, rfl, h, Feed.leads_refl s⟩

theorem ends_complain (c : Complaint) : Ends Q i n (complain c : Parse α) :=
  fun s _ _ => .inr ⟨c, s, rfl, Feed.leads_refl s⟩

theorem ends_complain_bind (c : Complaint) (f : α → Parse β) :
    Ends R i n ((complain c : Parse α) >>= f) :=
  fun s _ _ => .inr ⟨c, s, rfl, Feed.leads_refl s⟩

theorem ends_eat {k : Kind} (hk : k ≠ .endOfInput) : Ends (fun _ => True) 1 n (eat k) := by
  intro s hs _
  unfold eat
  split_ifs with h
  · exact .inl ⟨(), _, rfl, trivial, Feed.leads_next hs (h ▸ hk)⟩
  · exact .inr ⟨_, s, rfl, Feed.leads_refl s⟩

theorem ends_current {F : Token → Parse α} (h : ∀ t, t.Proper → Ends Q i n (F t)) :
    Ends Q i n (current >>= F) :=
  fun s hs hn => h s.current (hs.proper _ List.mem_cons_self) s hs hn

theorem ends_ite {p : Prop} [Decidable p] (hx : p → Ends Q i n x) (hy : ¬p → Ends Q i n y) :
    Ends Q i n (if p then x else y) := by
  split_ifs with hp
  · exact hx hp
  · exact hy hp

/-- A rule that sets its bound by the feed ends if it ends within every bound that is large
enough. -/
theorem ends_within {rule : ℕ → Parse α}
    (h : ∀ n depth, 4 * n + 3 ≤ depth → Ends Q i n (rule depth)) :
    Ends Q i n fun f => rule (depthBound f) f :=
  fun s hs _ => h s.rest.length (depthBound s) (by unfold depthBound; omega) s hs le_rfl

end

/-! ## Expressions -/

/-- If the tree is a literal number, it can be compared with numbers. -/
def Readable (n : Node) : Prop := ∀ v, n = .number v → v.IsNumber

theorem readable_of_ne {n : Node} (h : ∀ v, n ≠ .number v) : Readable n :=
  fun v hv => absurd hv (h v)

theorem readable_binary (l : Node) (op : Kind) (r : Node) : Readable (.binary l op r) :=
  readable_of_ne fun _ => by simp

/-- The rules of expressions end within the depth, as far as it is large enough for the tokens. -/
structure ExpressionsEnd (depth : ℕ) : Prop where
  sum : ∀ n, 4 * n + 3 ≤ depth → Ends Readable 1 n (sumWithin depth)
  sumTail : ∀ n left, Readable left → 4 * n + 1 ≤ depth →
    Ends Readable 0 n (sumTailWithin depth left)
  product : ∀ n, 4 * n + 2 ≤ depth → Ends Readable 1 n (productWithin depth)
  productTail : ∀ n left, Readable left → 4 * n + 1 ≤ depth →
    Ends Readable 0 n (productTailWithin depth left)
  factor : ∀ n, 4 * n + 1 ≤ depth → Ends Readable 1 n (factorWithin depth)

theorem ends_factor {depth n : ℕ} (hdepth : 4 * n ≤ depth) (ih : ExpressionsEnd depth) :
    Ends Readable 1 n (factorWithin (depth + 1)) := by
  refine ends_current fun token htoken => ?_
  cases hkind : token.kind with
  | number =>
    refine (ends_eat (by simp)).bind fun _ _ _ => ends_pure fun v hv => ?_
    cases hv
    exact htoken.number hkind
  | boolValue | hue h | identifier =>
    exact (ends_eat (by simp)).bind fun _ _ _ => ends_pure (readable_of_ne (by simp))
  | rgb =>
    refine (ends_eat (by simp)).bind fun _ _ _ => (ends_eat (by simp)).andThen fun _ _ _ => ?_
    refine (ih.sum _ (by omega)).andThen fun _ _ _ => (ends_eat (by simp)).andThen fun _ _ _ => ?_
    refine (ih.sum _ (by omega)).andThen fun _ _ _ => (ends_eat (by simp)).andThen fun _ _ _ => ?_
    refine (ih.sum _ (by omega)).andThen fun _ _ _ => (ends_eat (by simp)).andThen fun _ _ _ => ?_
    exact ends_pure (readable_of_ne (by simp))
  | leftParen =>
    refine (ends_eat (by simp)).bind fun _ _ _ => (ih.sum _ (by omega)).andThen fun _ hinner _ => ?_
    exact (ends_eat (by simp)).andThen fun _ _ _ => ends_pure hinner
  | _ => exact ends_complain _

theorem expressionsEnd (depth : ℕ) : ExpressionsEnd depth := by
  induction depth with
  | zero => constructor <;> intros <;> omega
  | succ depth ih =>
    constructor
    · intro n hn
      exact (ih.product n (by omega)).bind fun left hleft _ => ih.sumTail _ left hleft (by omega)
    · intro n left hleft hn
      refine ends_current fun token _ => ends_ite (fun hop => ?_) fun _ => ends_pure hleft
      have hne : token.kind ≠ .endOfInput := by
        intro heq
        simp [heq] at hop
      exact (ends_eat hne).andThen fun _ _ _ => (ih.product _ (by omega)).andThen fun right _ _ =>
        ih.sumTail _ _ (readable_binary _ _ _) (by omega)
    · intro n hn
      exact (ih.factor n (by omega)).bind fun left hleft _ => ih.productTail _ left hleft (by omega)
    · intro n left hleft hn
      refine ends_current fun token _ => ends_ite (fun hop => ?_) fun _ => ends_pure hleft
      have hne : token.kind ≠ .endOfInput := by
        intro heq
        simp [heq] at hop
      exact (ends_eat hne).andThen fun _ _ _ => (ih.factor _ (by omega)).andThen fun right _ _ =>
        ih.productTail _ _ (readable_binary _ _ _) (by omega)
    · intro n hn
      exact ends_factor (by omega) ih

theorem ends_sum (n : ℕ) : Ends Readable 1 n sum :=
  ends_within fun n depth hn => (expressionsEnd depth).sum n hn

/-! ## Statements without a body -/

section

variable {n : ℕ}

theorem ne_endOfInput_of_isComparison {k : Kind} (h : k.isComparison = true) : k ≠ .endOfInput := by
  rintro rfl
  cases h

theorem ends_condition : Ends (fun _ => True) 1 n condition := by
  refine (ends_sum n).bind fun left _ _ => ends_current fun token _ => ends_ite (fun hop => ?_) ?_
  · refine (ends_eat (ne_endOfInput_of_isComparison hop)).andThen fun _ _ _ => ?_
    exact (ends_sum _).andThen fun _ _ _ => ends_pure trivial
  · exact fun _ => ends_pure trivial

theorem ends_guarded : Ends (fun _ => True) 1 n guarded := by
  refine (ends_eat (by simp)).bind fun _ _ _ => ends_condition.andThen fun _ _ _ => ?_
  exact (ends_eat (by simp)).andThen fun _ _ _ => ends_pure trivial

theorem ends_assignment (name : Value) (withSemicolon : Bool) :
    Ends (fun _ => True) 1 n (assignment name withSemicolon) := by
  have hclosing (m : ℕ) (value : Node) : Ends (fun _ => True) 0 m
      (if withSemicolon = true then do
        eat .semicolon
        pure (Node.assign name value)
      else pure (Node.assign name value)) :=
    ends_ite (fun _ => (ends_eat (by simp)).andThen fun _ _ _ => ends_pure trivial)
      fun _ => ends_pure trivial
  refine ends_current fun token _ => ?_
  dsimp only
  cases hcompound : compoundOperator? token.kind with
  | some arithmetic =>
    have hne : token.kind ≠ .endOfInput := by
      intro heq
      rw [heq] at hcompound
      cases hcompound
    refine (ends_eat hne).bind fun _ _ _ => (ends_sum _).andThen fun right _ _ => ?_
    exact (ends_pure (readable_binary _ _ _)).andThen fun _ _ _ => hclosing _ _
  | none =>
    exact (ends_eat (by simp)).bind fun _ _ _ => (ends_sum _).andThen fun _ _ _ => hclosing _ _

theorem ends_argumentTail (depth : ℕ) (h : n + 1 ≤ depth) :
    Ends (fun _ => True) 0 n (argumentTail depth) := by
  induction depth generalizing n with
  | zero => omega
  | succ depth ih =>
    refine ends_current fun token _ => ends_ite (fun _ => ?_) fun _ => ends_pure trivial
    refine (ends_eat (by simp)).andThen fun _ _ _ => (ends_sum _).andThen fun _ _ _ => ?_
    exact (ih (by omega)).andThen fun _ _ _ => ends_pure trivial

theorem ends_furtherArguments : Ends (fun _ => True) 0 n furtherArguments :=
  ends_within fun _ depth h => ends_argumentTail depth (by omega)

theorem ends_arguments : Ends (fun _ => True) 0 n arguments := by
  refine ends_current fun token _ => ends_ite (fun _ => ends_pure trivial) fun _ => ?_
  refine (ends_sum _).andThen fun _ _ _ => ends_furtherArguments.andThen fun _ _ _ => ?_
  exact ends_pure trivial

theorem ends_methodCall (cursor : Value) (method : String) :
    Ends (fun _ => True) 1 n (methodCall cursor (.text method)) := by
  refine (ends_eat (by simp)).bind fun _ _ _ => ends_arguments.andThen fun _ _ _ => ?_
  refine (ends_eat (by simp)).andThen fun _ _ _ => (ends_eat (by simp)).andThen fun _ _ _ => ?_
  exact ends_ite (fun _ => ends_pure trivial) fun _ => ends_pure trivial

theorem ne_endOfInput_of_isMethod {k : Kind} (h : isMethod k = true) : k ≠ .endOfInput := by
  rintro rfl
  cases h

theorem ends_named : Ends (fun _ => True) 1 n named := by
  refine ends_current fun token _ => ends_ite (fun _ => ends_complain_bind _ _) fun _ => ?_
  refine (ends_eat (by simp)).bind fun _ _ _ => ends_current fun next _ => ends_ite (fun _ => ?_) ?_
  · refine (ends_eat (by simp)).andThen fun _ _ _ => ends_current fun method hmethod => ?_
    refine ends_ite (fun hkind => ?_) fun _ => ends_complain _
    refine (ends_eat (ne_endOfInput_of_isMethod hkind)).andThen fun _ _ _ => ?_
    obtain ⟨w, hw⟩ := hmethod.method hkind
    rw [hw]
    exact (ends_methodCall _ w).zero
  · exact fun _ => ends_ite (fun _ => (ends_assignment _ _).zero) fun _ => ends_complain _

theorem ends_cursorCreation : Ends (fun _ => True) 1 n cursorCreation := by
  refine (ends_eat (by simp)).bind fun _ _ _ => ends_current fun token _ => ?_
  refine (ends_eat (by simp)).andThen fun _ _ _ => (ends_eat (by simp)).andThen fun _ _ _ => ?_
  refine (ends_eat (by simp)).andThen fun _ _ _ => (ends_eat (by simp)).andThen fun _ _ _ => ?_
  refine (ends_sum _).andThen fun _ _ _ => (ends_eat (by simp)).andThen fun _ _ _ => ?_
  refine (ends_sum _).andThen fun _ _ _ => (ends_eat (by simp)).andThen fun _ _ _ => ?_
  exact (ends_eat (by simp)).andThen fun _ _ _ => ends_pure trivial

theorem ends_checkWindow (type : Kind) {init : Node} (h : Readable init) :
    Ends (fun _ => True) 0 n (checkWindow type init) := by
  refine ends_ite (fun _ => ends_complain_bind _ _) fun _ => ?_
  cases init with
  | number value =>
    have hvalue := h value rfl
    cases value with
    | absent | text => cases hvalue
    | bool | int | double => exact ends_ite (fun _ => ends_complain _) fun _ => ends_pure trivial
  | _ => exact ends_pure trivial

theorem ends_declaration : Ends (fun _ => True) 1 n declaration := by
  refine (ends_eat (by simp)).bind fun _ _ _ => ends_current fun token _ => ?_
  refine ends_ite (fun _ => ends_complain_bind _ _) fun htype => ?_
  have hne : token.kind ≠ .endOfInput := by
    intro heq
    simp [heq] at htype
  refine (ends_eat hne).andThen fun _ _ _ => ends_current fun name _ => ?_
  refine (ends_eat (by simp)).andThen fun _ _ _ => (ends_eat (by simp)).andThen fun _ _ _ => ?_
  refine (ends_sum _).andThen fun init hinit _ => ends_ite (fun _ => ?_) fun _ => ?_
  · refine (ends_checkWindow _ hinit).andThen fun _ _ _ => ?_
    exact (ends_eat (by simp)).andThen fun _ _ _ => ends_pure trivial
  · exact (ends_eat (by simp)).andThen fun _ _ _ => ends_pure trivial

theorem ends_loopStart : Ends (fun _ => True) 1 n loopStart := by
  refine ends_current fun token _ => ends_ite (fun _ => ends_declaration) fun _ => ?_
  exact ends_current fun token _ => (ends_eat (by simp)).bind fun _ _ _ =>
    (ends_assignment token.value true).zero

theorem ends_loopStep : Ends (fun _ => True) 1 n loopStep :=
  ends_current fun token _ => (ends_eat (by simp)).bind fun _ _ _ =>
    (ends_assignment token.value false).zero

end

/-! ## Statements with a body -/

/-- The rules of statements end within the depth, as far as it is large enough for the tokens. -/
structure StatementsEnd (depth : ℕ) : Prop where
  statement : ∀ n, 4 * n + 2 ≤ depth → Ends (fun _ => True) 1 n (statementWithin depth)
  statements : ∀ n, 4 * n + 3 ≤ depth → Ends (fun _ => True) 0 n (statementsWithin depth)
  block : ∀ n, 4 * n + 1 ≤ depth → Ends (fun _ => True) 1 n (blockWithin depth)
  arms : ∀ n, 4 * n + 1 ≤ depth → Ends (fun _ => True) 0 n (armsWithin depth)
  branch : ∀ n, 4 * n + 1 ≤ depth → Ends (fun _ => True) 1 n (branchWithin depth)
  forLoop : ∀ n, 4 * n + 1 ≤ depth → Ends (fun _ => True) 1 n (forLoopWithin depth)
  whileLoop : ∀ n, 4 * n + 1 ≤ depth → Ends (fun _ => True) 1 n (whileLoopWithin depth)

section

variable {depth n : ℕ}

theorem ends_statementWithin (hn : 4 * n + 1 ≤ depth) (ih : StatementsEnd depth) :
    Ends (fun _ => True) 1 n (statementWithin (depth + 1)) := by
  refine ends_current fun token _ => ?_
  split
  · exact ends_declaration
  · exact ends_cursorCreation
  · exact ih.branch n hn
  · exact ih.forLoop n hn
  · exact ih.whileLoop n hn
  · exact ends_named
  · exact ends_complain _

theorem ends_branchWithin (hn : 4 * n ≤ depth) (ih : StatementsEnd depth) :
    Ends (fun _ => True) 1 n (branchWithin (depth + 1)) := by
  refine (ends_eat (by simp)).bind fun _ _ _ => ends_guarded.andThen fun _ _ _ => ?_
  refine (ih.block _ (by omega)).andThen fun _ _ _ => (ih.arms _ (by omega)).andThen fun _ _ _ => ?_
  refine @Ends.andThen _ _ (fun _ => True) _ 0 _ _ _ ?_ fun _ _ _ => ?_
  · refine ends_current fun token _ => ends_ite (fun _ => ?_) fun _ => ends_pure trivial
    refine (ends_eat (by simp)).andThen fun _ _ _ => (ih.block _ (by omega)).andThen fun _ _ _ => ?_
    exact ends_pure trivial
  · exact (ends_eat (by simp)).andThen fun _ _ _ => ends_pure trivial

theorem ends_forLoopWithin (hn : 4 * n ≤ depth) (ih : StatementsEnd depth) :
    Ends (fun _ => True) 1 n (forLoopWithin (depth + 1)) := by
  refine (ends_eat (by simp)).bind fun _ _ _ => (ends_eat (by simp)).andThen fun _ _ _ => ?_
  refine ends_loopStart.andThen fun _ _ _ => ends_condition.andThen fun _ _ _ => ?_
  refine (ends_eat (by simp)).andThen fun _ _ _ => ends_loopStep.andThen fun _ _ _ => ?_
  refine (ends_eat (by simp)).andThen fun _ _ _ => (ih.block _ (by omega)).andThen fun _ _ _ => ?_
  exact (ends_eat (by simp)).andThen fun _ _ _ => ends_pure trivial

theorem ends_whileLoopWithin (hn : 4 * n ≤ depth) (ih : StatementsEnd depth) :
    Ends (fun _ => True) 1 n (whileLoopWithin (depth + 1)) := by
  refine (ends_eat (by simp)).bind fun _ _ _ => ends_guarded.andThen fun _ _ _ => ?_
  refine (ih.block _ (by omega)).andThen fun _ _ _ => ?_
  exact (ends_eat (by simp)).andThen fun _ _ _ => ends_pure trivial

end

theorem statementsEnd (depth : ℕ) : StatementsEnd depth := by
  induction depth with
  | zero => constructor <;> intros <;> omega
  | succ depth ih =>
    constructor
    · intro n hn
      exact ends_statementWithin (by omega) ih
    · intro n hn
      refine ends_current fun token _ => ends_ite (fun _ => ends_pure trivial) fun _ => ?_
      refine (ih.statement n (by omega)).andThen fun _ _ _ => ?_
      exact (ih.statements _ (by omega)).andThen fun _ _ _ => ends_pure trivial
    · intro n hn
      refine (ends_eat (by simp)).bind fun _ _ _ =>
        (ih.statements _ (by omega)).andThen fun _ _ _ => ?_
      exact (ends_eat (by simp)).andThen fun _ _ _ => ends_pure trivial
    · intro n hn
      refine ends_current fun token _ => ends_ite (fun _ => ?_) fun _ => ends_pure trivial
      refine (ends_eat (by simp)).andThen fun _ _ _ => ends_guarded.andThen fun _ _ _ => ?_
      refine (ih.block _ (by omega)).andThen fun _ _ _ => ?_
      exact (ih.arms _ (by omega)).andThen fun _ _ _ => ends_pure trivial
    · intro n hn
      exact ends_branchWithin (by omega) ih
    · intro n hn
      exact ends_forLoopWithin (by omega) ih
    · intro n hn
      exact ends_whileLoopWithin (by omega) ih

theorem ends_statement {n : ℕ} : Ends (fun _ => True) 1 n statement :=
  ends_within fun n depth hn => (statementsEnd depth).statement n (by omega)

theorem ends_programWithin {n : ℕ} (depth : ℕ) (h : n + 1 ≤ depth) :
    Ends (fun _ => True) 0 n (programWithin depth) := by
  induction depth generalizing n with
  | zero => omega
  | succ depth ih =>
    refine ends_current fun token _ => ends_ite (fun _ => ends_pure trivial) fun _ => ?_
    refine ends_statement.andThen fun _ _ _ => ?_
    exact (ih (by omega)).andThen fun _ _ _ => ends_pure trivial

theorem ends_program {n : ℕ} : Ends (fun _ => True) 0 n program :=
  (ends_within fun _ depth h => ends_programWithin depth (by omega)).andThen fun _ _ _ =>
    ends_pure trivial

end Parse

/-! ## Tokens of a text -/

theorem proper_of_faithful {t : Token} (h : t.Faithful) : t.Proper := by
  cases h with
  | @name w l c hw => exact ⟨fun _ => ⟨w, rfl⟩, fun h => absurd h (by simp)⟩
  | @keyword w k l c hw =>
    refine ⟨fun _ => ⟨w, rfl⟩, fun h => ?_⟩
    have hall : ∀ entry ∈ keywords, entry.2 ≠ .number := by decide
    exact absurd h (hall _ hw)
  | @sign w k l c hw =>
    refine ⟨fun _ => ⟨w, rfl⟩, fun h => ?_⟩
    obtain rfl : k = .number := h
    cases hw
  | integer | decimal => exact ⟨fun h => absurd h (by simp [Parse.isMethod]), fun _ => trivial⟩

theorem closed_of_lexed {f : Feed} (h : Token.Lexed (f.current :: f.rest)) : f.Closed := by
  obtain ⟨body, last, heq, hlast, hbody⟩ := h
  have hproper : last.Proper := by
    refine ⟨fun h => ?_, fun h => ?_⟩
    · rw [hlast] at h
      cases h
    · rw [hlast] at h
      cases h
  constructor
  · intro t ht
    rw [heq, List.mem_append, List.mem_singleton] at ht
    rcases ht with ht | rfl
    · exact proper_of_faithful (hbody t ht)
    · exact hproper
  · simpa [heq] using hlast

/-- Tokens that were read from a text make a tree, or else the grammar complains at one of them. -/
theorem found_of_ofTokens {tokens : List Token} (h : Token.Lexed tokens) {e : SyntaxError}
    (he : Node.ofTokens tokens = .error e) : ∃ t c, e = .found t c := by
  cases tokens with
  | nil =>
    obtain ⟨body, last, heq, -⟩ := h
    simp at heq
  | cons first rest =>
    have hclosed : (Feed.mk first rest 0).Closed := closed_of_lexed h
    rcases Parse.ends_program _ hclosed le_rfl with ⟨tree, g, hok, -⟩ | ⟨c, g, hfound, -⟩
    · simp only [Node.ofTokens, Feed.ofTokens?, hok] at he
      cases he
    · simp only [Node.ofTokens, Feed.ofTokens?, hfound] at he
      cases he
      exact ⟨_, c, rfl⟩

end DrawPlus
