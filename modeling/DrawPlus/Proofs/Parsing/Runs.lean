import DrawPlus.Proofs.Parsing.Congruence
import DrawPlus.Proofs.Parsing.Programs
import DrawPlus.Proofs.Parsing.Progress

/-!
# The course of a run

A run of a rule goes from feed to feed, by taking one token at a time. `Run` lists the feeds that
an action comes by, and every rule has a run, since what it is made of has one (`Congruence`). A run
has no choice: its feeds are the feed at the beginning, moved on by one token, by two tokens and so
on.

On tokens that end in a closing token, whatever stands before it, no run leaves the list. The bound
comes from `Ends`, which says how many tokens a rule can take at most.
-/

namespace DrawPlus

namespace Feed

variable {f g : Feed}

@[simp] theorem position_next (f : Feed) : f.next.position = f.position + 1 := by
  unfold next
  split <;> rfl

@[simp] theorem position_iterate (f : Feed) (k : ℕ) :
    (next^[k] f).position = f.position + k := by
  induction k with
  | zero => rfl
  | succ k ih =>
    rw [Function.iterate_succ_apply', position_next, ih]
    omega

theorem Passes.position {ts : List Token} (h : f.Passes ts g) :
    g.position = f.position + ts.length := by
  induction ts generalizing f with
  | nil =>
    obtain rfl := h
    rfl
  | cons t ts ih =>
    rw [ih h.2, position_next, List.length_cons]
    omega

/-- A feed that has moved on over `k` of the tokens has come to the token number `k`. -/
theorem iterate_next_of_ofTokens? {tokens : List Token} {start : Feed}
    (h : ofTokens? tokens = some start) (k : ℕ) (hk : k < tokens.length) :
    next^[k] start = ⟨tokens[k], tokens.drop (k + 1), k⟩ := by
  induction k with
  | zero =>
    cases tokens with
    | nil => cases h
    | cons first rest =>
      cases h
      rfl
  | succ k ih =>
    rw [Function.iterate_succ_apply', ih (by omega), next, List.drop_eq_getElem_cons hk]

theorem exists_closed {tokens : List Token} {last : Token} (hlast : tokens.getLast? = some last)
    (hclosing : last.kind = .endOfInput) (hproper : ∀ t ∈ tokens, t.Proper) :
    ∃ start, ofTokens? tokens = some start ∧ start.Closed := by
  cases tokens with
  | nil => cases hlast
  | cons first rest =>
    refine ⟨⟨first, rest, 0⟩, rfl, hproper, ?_⟩
    rw [List.getLast?_eq_some_getLast (by simp), Option.some.injEq] at hlast
    rw [hlast]
    exact hclosing

theorem isChain_iterate (f : Feed) (k : ℕ) :
    (List.iterate next f k).IsChain fun g h => h.position = g.position + 1 := by
  induction k generalizing f with
  | zero => exact .nil
  | succ k ih =>
    cases k with
    | zero => exact .singleton f
    | succ k => exact .cons_cons f.position_next (ih f.next)

end Feed

namespace Parse

/-! ## Runs -/

/-- The feed at which an action has ended. -/
def feedAfter {α : Type} : EStateM.Result SyntaxError Feed α → Feed
  | .ok _ g => g
  | .error _ g => g

/-- Begun at the feed, the action takes tokens, comes by the listed feeds, one for each token that
it takes, and ends with the result. -/
inductive Run : {α : Type} → Parse α → Feed → List Feed → EStateM.Result SyntaxError Feed α → Prop
  | pure {α : Type} (a : α) (f : Feed) : Run (pure a) f [] (.ok a f)
  | look (f : Feed) : Run current f [] (.ok f.current f)
  | take {k : Kind} {f : Feed} : f.current.kind = k → Run (eat k) f [f.next] (.ok () f.next)
  | refuse {k : Kind} {f : Feed} : f.current.kind ≠ k →
      Run (eat k) f [] (.error (.found f.current (.expected k f.current.kind)) f)
  | complain {α : Type} (c : Complaint) (f : Feed) :
      Run (complain c : Parse α) f [] (.error (.found f.current c) f)
  | fail {α : Type} (e : SyntaxError) (f : Feed) : Run (throw e : Parse α) f [] (.error e f)
  | andThen {α β : Type} {x : Parse α} {F : α → Parse β} {f g : Feed} {a : α} {fs gs : List Feed}
      {r : EStateM.Result SyntaxError Feed β} : Run x f fs (.ok a g) → Run (F a) g gs r →
      Run (x >>= F) f (fs ++ gs) r
  | stop {α β : Type} {x : Parse α} {F : α → Parse β} {f g : Feed} {e : SyntaxError}
      {fs : List Feed} : Run x f fs (.error e g) → Run (x >>= F) f fs (.error e g)
  | within {α : Type} {rule : ℕ → Parse α} {f : Feed} {fs : List Feed}
      {r : EStateM.Result SyntaxError Feed α} : Run (rule (depthBound f)) f fs r →
      Run (fun f => rule (depthBound f) f) f fs r

theorem Run.result {α : Type} {x : Parse α} {f : Feed} {fs : List Feed}
    {r : EStateM.Result SyntaxError Feed α} (h : Run x f fs r) : x f = r := by
  induction h with
  | pure | look | complain | fail => rfl
  | take hk => rw [eat, if_pos hk]
  | refuse hk => rw [eat, if_neg hk]
  | andThen _ _ hx hF => rw [bind_of_ok hx, hF]
  | stop _ hx => exact bind_eq_error.mpr (.inl hx)
  | within _ hx => exact hx

/-- A run comes by the feed at the beginning, moved on by one token after the other. -/
theorem Run.path {α : Type} {x : Parse α} {f : Feed} {fs : List Feed}
    {r : EStateM.Result SyntaxError Feed α} (h : Run x f fs r) :
    fs = List.iterate Feed.next f.next fs.length ∧
      feedAfter r = Feed.next^[fs.length] f := by
  induction h with
  | pure | look | take | refuse | complain | fail => exact ⟨rfl, rfl⟩
  | @andThen _ _ _ _ f g _ fs gs _ _ _ hx hF =>
    obtain rfl : g = Feed.next^[fs.length] f := hx.2
    constructor
    · conv_lhs => rw [hx.1, hF.1]
      rw [List.length_append, List.iterate_add, ← Function.iterate_succ_apply,
        Function.iterate_succ_apply']
    · rw [hF.2, List.length_append, Nat.add_comm, Function.iterate_add_apply]
  | stop _ hx => exact hx
  | within _ hx => exact hx

theorem Run.visited {α : Type} {x : Parse α} {f : Feed} {fs : List Feed}
    {r : EStateM.Result SyntaxError Feed α} (h : Run x f fs r) :
    f :: fs = List.iterate Feed.next f (fs.length + 1) := by
  conv_lhs => rw [h.path.1]
  rfl

/-- Whatever feed it is begun at, the action has a run. -/
def Runs {α : Type} (x : Parse α) : Prop := ∀ f, ∃ fs, Run x f fs (x f)

theorem runs_bind {α β : Type} {x : Parse α} {F : α → Parse β} (hx : Runs x)
    (hF : ∀ a, Runs (F a)) : Runs (x >>= F) := by
  intro f
  obtain ⟨fs, hfs⟩ := hx f
  cases hr : x f with
  | ok a g =>
    obtain ⟨gs, hgs⟩ := hF a g
    rw [hr] at hfs
    rw [bind_of_ok hr]
    exact ⟨fs ++ gs, hfs.andThen hgs⟩
  | error e g =>
    rw [hr] at hfs
    rw [bind_eq_error.mpr (.inl hr)]
    exact ⟨fs, hfs.stop⟩

theorem runs_eat (k : Kind) : Runs (eat k) := by
  intro f
  by_cases hk : f.current.kind = k
  · rw [(Run.take hk).result]
    exact ⟨_, .take hk⟩
  · rw [(Run.refuse hk).result]
    exact ⟨_, .refuse hk⟩

theorem runs_current : Runs current := fun f => ⟨[], .look f⟩

theorem congruence_runs : Congruence (fun _ => True) fun x y => Runs x ∧ Runs y where
  native _ := trivial
  pure a := and_self_iff.mpr fun f => ⟨[], .pure a f⟩
  bind hx hF := ⟨runs_bind hx.1 fun a => (hF a).1, runs_bind hx.2 fun a => (hF a).2⟩
  look h := ⟨runs_bind runs_current fun t => (h t trivial).1,
    runs_bind runs_current fun t => (h t trivial).2⟩
  eat _ := and_self_iff.mpr (runs_eat _)
  complain _ := and_self_iff.mpr fun f => ⟨[], .complain _ f⟩
  fail _ := and_self_iff.mpr fun f => ⟨[], .fail _ f⟩
  within h := and_self_iff.mpr fun f => ((h (depthBound f) 0).1 f).imp fun _ => .within
  giveUpLeft h := ⟨fun f => ⟨[], .fail _ f⟩, h.2⟩
  giveUpRight h := ⟨h.1, fun f => ⟨[], .fail _ f⟩⟩

theorem runs_program : Runs program := congruence_runs.program.1

/-! ## Every completed rule has taken a token -/

/-- Whenever the action succeeds, it has taken a token. -/
def Advances {α : Type} (x : Parse α) : Prop := ∀ f a g, x f = .ok a g → f.position < g.position

theorem position_lt {f g : Feed} {ts : List Token} (hp : f.Passes ts g) (hts : 0 < ts.length) :
    f.position < g.position := by
  rw [hp.position]
  omega

theorem Derives.position_le {f g : Feed} {rule : List Token → Prop} (h : Derives f g rule) :
    f.position ≤ g.position := by
  obtain ⟨ts, hp, -⟩ := h
  rw [hp.position]
  omega

theorem advances_sumWithin (d : ℕ) : Advances (sumWithin d) := by
  intro f n g h
  obtain ⟨ts, hts, hp⟩ := sumWithin_sound d h
  exact position_lt hp hts.length_pos

theorem advances_productWithin (d : ℕ) : Advances (productWithin d) := by
  intro f n g h
  obtain ⟨ts, hts, hp⟩ := productWithin_sound d h
  exact position_lt hp hts.length_pos

theorem advances_factorWithin (d : ℕ) : Advances (factorWithin d) := by
  intro f n g h
  obtain ⟨ts, hts, hp⟩ := factorWithin_sound d h
  exact position_lt hp hts.length_pos

theorem advances_sum : Advances sum := fun f => advances_sumWithin _ f

theorem advances_condition : Advances condition := by
  intro f n g h
  obtain ⟨l, f₁, hl, ⟨-, r, hr, -⟩ | ⟨-, -, rfl⟩⟩ := condition_eq_ok.mp h
  · have h₁ := advances_sum _ _ _ hl
    have h₂ := advances_sum _ _ _ hr
    rw [Feed.position_next] at h₂
    omega
  · exact advances_sum _ _ _ hl

theorem advances_guarded : Advances guarded := by
  intro f n h hn
  obtain ⟨-, g, hc, -, rfl⟩ := guarded_eq_ok.mp hn
  have h₁ := advances_condition _ _ _ hc
  rw [Feed.position_next] at h₁ ⊢
  omega

theorem advances_named : Advances named := by
  intro f n h hn
  obtain ⟨-, hx, ⟨-, -, hm⟩ | ⟨-, -, ha⟩⟩ := named_eq_ok.mp hn
  · obtain ⟨-, ns, g, hns, -, -, rfl, -⟩ := methodCall_eq_ok.mp hm
    obtain ⟨ts, -, hp⟩ := arguments_sound hns
    have h₁ := hp.position
    simp only [Feed.position_next] at h₁ ⊢
    omega
  · obtain ⟨ts, g, -, hp, -, rfl⟩ := assignment_sound hx ha
    have h₁ := hp.position
    simp only [Feed.position_next] at h₁ ⊢
    omega

theorem advances_branchWithin (d : ℕ) : Advances (branchWithin d) := by
  intro f n h hn
  cases d with
  | zero => simp [branchWithin] at hn
  | succ d =>
    obtain ⟨-, _, g₁, h₁, _, g₂, h₂, _, g₃, h₃, o, g₄, h₄, -, rfl, -⟩ := branchWithin_eq_ok.mp hn
    have hp₁ := advances_guarded _ _ _ h₁
    have hp₂ := (blockWithin_sound d h₂).position_le
    have hp₃ := (armsWithin_sound d h₃).position_le
    have hp₄ : g₃.position ≤ g₄.position := by
      obtain ⟨-, b, hb, -⟩ | ⟨-, -, rfl⟩ := otherwiseWithin_eq_ok.mp h₄
      · have hp := (blockWithin_sound d hb).position_le
        rw [Feed.position_next] at hp
        omega
      · exact le_rfl
    simp only [Feed.position_next] at hp₁ ⊢
    omega

theorem advances_forLoopWithin (d : ℕ) : Advances (forLoopWithin d) := by
  intro f n h hn
  cases d with
  | zero => simp [forLoopWithin] at hn
  | succ d =>
    obtain ⟨-, -, _, g₁, h₁, _, g₂, h₂, -, _, g₃, h₃, -, _, g₄, h₄, -, rfl, -⟩ :=
      forLoopWithin_eq_ok.mp hn
    obtain ⟨is, -, hp₁⟩ := loopStart_sound h₁
    have hp₂ := advances_condition _ _ _ h₂
    obtain ⟨us, -, hp₃⟩ := loopStep_sound h₃
    have hp₄ := (blockWithin_sound d h₄).position_le
    have hq₁ := hp₁.position
    have hq₃ := hp₃.position
    simp only [Feed.position_next] at hq₁ hq₃ hp₄ ⊢
    omega

theorem advances_whileLoopWithin (d : ℕ) : Advances (whileLoopWithin d) := by
  intro f n h hn
  cases d with
  | zero => simp [whileLoopWithin] at hn
  | succ d =>
    obtain ⟨-, _, g₁, h₁, _, g₂, h₂, -, rfl, -⟩ := whileLoopWithin_eq_ok.mp hn
    have hp₁ := advances_guarded _ _ _ h₁
    have hp₂ := (blockWithin_sound d h₂).position_le
    simp only [Feed.position_next] at hp₁ ⊢
    omega

theorem advances_statementWithin (d : ℕ) : Advances (statementWithin d) := by
  intro f n h hn
  cases d with
  | zero => simp [statementWithin] at hn
  | succ d =>
    obtain ⟨-, hs⟩ | ⟨-, hs⟩ | ⟨-, hs⟩ | ⟨-, hs⟩ | ⟨-, hs⟩ | ⟨-, hs⟩ := statementWithin_eq_ok.mp hn
    · obtain ⟨ts, hts, hp⟩ := declaration_sound hs
      exact position_lt hp (by cases hts; simp)
    · obtain ⟨ts, hts, hp⟩ := cursorCreation_sound hs
      exact position_lt hp (by cases hts; simp)
    · exact advances_named _ _ _ hs
    · exact advances_branchWithin d _ _ _ hs
    · exact advances_forLoopWithin d _ _ _ hs
    · exact advances_whileLoopWithin d _ _ _ hs

/-! ## Runs over tokens that end in a closing token -/

/-- A run over such tokens takes fewer of them than there are. -/
theorem Run.length_le {f : Feed} (hf : f.Closed) {fs : List Feed}
    {r : EStateM.Result SyntaxError Feed Node} (h : Run program f fs r) :
    fs.length ≤ f.rest.length := by
  have hend : f.Leads 0 (feedAfter r) := by
    rcases ends_program f hf le_rfl with ⟨n, g, hn, -, hg⟩ | ⟨c, g, hc, hg⟩
    · rw [h.result] at hn
      exact hn ▸ hg
    · rw [h.result] at hc
      exact hc ▸ hg
  obtain ⟨k, -, hk, heq⟩ := hend
  have hposition := congrArg Feed.position (h.path.2.symm.trans heq)
  simp only [Feed.position_iterate] at hposition
  omega

/-- Every feed of a run over such tokens shows the token at its position. -/
theorem Run.inside {tokens : List Token} {start : Feed}
    (hstart : Feed.ofTokens? tokens = some start) (hclosed : start.Closed) {fs : List Feed}
    {r : EStateM.Result SyntaxError Feed Node} (h : Run program start fs r) :
    ∀ f ∈ start :: fs, ∃ hf : f.position < tokens.length, f.current = tokens[f.position] := by
  have hlength : fs.length < tokens.length := by
    have hle := h.length_le hclosed
    cases tokens with
    | nil => cases hstart
    | cons first rest =>
      cases hstart
      exact Nat.lt_succ_of_le hle
  intro f hf
  rw [h.visited, List.mem_iterate] at hf
  obtain ⟨k, hk, rfl⟩ := hf
  rw [Feed.iterate_next_of_ofTokens? hstart k (by omega)]
  exact ⟨by simp only; omega, rfl⟩

end Parse

open Parse in
/-- On tokens that end in a closing token reading comes to an end, with a program or with a
complaint at a token. On the way it never goes back and never leaves the tokens: every feed shows
the token at its position. Whatever the tokens are, a rule that is completed has taken one. -/
theorem program_runs_inside {tokens : List Token} {last : Token}
    (hlast : tokens.getLast? = some last) (hclosing : last.kind = .endOfInput)
    (hproper : ∀ t ∈ tokens, t.Proper) :
    ((∃ ns, Node.ofTokens tokens = .ok (.program ns)) ∨
      ∃ t c, Node.ofTokens tokens = .error (.found t c)) ∧
    (∃ start, Feed.ofTokens? tokens = some start ∧
      (∃ fs r, Run program start fs r) ∧
      ∀ fs r, Run program start fs r →
        ((start :: fs).IsChain fun f g => g.position = f.position + 1) ∧
        ∀ f ∈ start :: fs, ∃ h : f.position < tokens.length, f.current = tokens[f.position]) ∧
    (∀ d, Advances (statementWithin d)) ∧ (∀ d, Advances (sumWithin d)) ∧
    (∀ d, Advances (productWithin d)) ∧ (∀ d, Advances (factorWithin d)) ∧
    Advances condition := by
  obtain ⟨start, hstart, hclosed⟩ := Feed.exists_closed hlast hclosing hproper
  refine ⟨?_, ?_, advances_statementWithin, advances_sumWithin, advances_productWithin,
    advances_factorWithin, advances_condition⟩
  · rcases ends_program start hclosed le_rfl with ⟨tree, g, hok, -⟩ | ⟨c, g, hfound, -⟩
    · obtain ⟨ns, -, hns⟩ := program_eq_ok.mp hok
      left
      exact ⟨ns, by simp [Node.ofTokens, hstart, hok, hns]⟩
    · right
      exact ⟨g.current, c, by simp [Node.ofTokens, hstart, hfound]⟩
  · refine ⟨start, hstart, (runs_program start).imp fun _ h => ⟨_, h⟩, fun fs r h => ⟨?_, ?_⟩⟩
    · rw [h.visited]
      exact Feed.isChain_iterate start _
    · exact h.inside hstart hclosed

open Parse in
/-- A closing token inside a statement, with a method and a number after it. -/
theorem program_runs_inside_of_inner_closing :
    let tokens : List Token := [⟨.identifier, "x", 1, 1⟩, ⟨.endOfInput, .absent, 1, 2⟩,
      ⟨.move, "move", 2, 1⟩, ⟨.number, .int 5, 2, 6⟩, ⟨.endOfInput, .absent, 2, 7⟩]
    (∀ t ∈ tokens, t.Proper) ∧
      ((∃ ns, Node.ofTokens tokens = .ok (.program ns)) ∨
        ∃ t c, Node.ofTokens tokens = .error (.found t c)) ∧
      ∃ start fs r, Feed.ofTokens? tokens = some start ∧ Run program start fs r ∧
        ∀ f ∈ start :: fs, ∃ h : f.position < tokens.length, f.current = tokens[f.position] := by
  intro tokens
  have hproper : ∀ t ∈ tokens, t.Proper := by
    intro t ht
    simp only [tokens, List.mem_cons, List.not_mem_nil, or_false] at ht
    rcases ht with rfl | rfl | rfl | rfl | rfl <;>
      exact ⟨by simp [Parse.isMethod], by simp [Value.IsNumber]⟩
  obtain ⟨hends, ⟨start, hstart, ⟨fs, r, hrun⟩, hinside⟩, -⟩ :=
    @program_runs_inside tokens _ rfl rfl hproper
  exact ⟨hproper, hends, start, fs, r, hstart, hrun, (hinside fs r hrun).2⟩

end DrawPlus
