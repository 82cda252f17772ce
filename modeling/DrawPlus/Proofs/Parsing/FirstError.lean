import DrawPlus.Proofs.Parsing.Completion
import DrawPlus.Proofs.Parsing.Runs

/-!
# Errors are reported at the first impossible token

Reading looks at the current token and at nothing behind it. So what it does up to some position is
settled by the tokens up to that position (`Follows`): if it fails there, it fails on all tokens
that begin in the same way. With the completion of what has been read, this makes the token at which
reading fails the first one that cannot stand in any program that begins so.

The bounds on the depth of calls come in again. A list that begins in the same way can be shorter,
so that its bound is smaller, and `Follows` lets the second action run out of depth.
-/

namespace DrawPlus

namespace Feed

variable {f g : Feed} {k : ℕ}

/-- The two feeds are at the same position and show the same token, and they still do after each of
`k` tokens. -/
def Alike (k : ℕ) (f g : Feed) : Prop :=
  f.position = g.position ∧ ∀ j ≤ k, (next^[j] f).current = (next^[j] g).current

theorem alike_refl (f : Feed) (k : ℕ) : f.Alike k f := ⟨rfl, fun _ _ => rfl⟩

theorem Alike.current (h : Alike k f g) : f.current = g.current := h.2 0 (Nat.zero_le k)

theorem Alike.next (h : Alike (k + 1) f g) : Alike k f.next g.next := by
  constructor
  · rw [position_next, position_next, h.1]
  · intro j hj
    rw [← Function.iterate_succ_apply, ← Function.iterate_succ_apply]
    exact h.2 (j + 1) (by omega)

theorem tokens_of_ofTokens? {tokens : List Token} (h : ofTokens? tokens = some f) :
    tokens = f.current :: f.rest ∧ f.position = 0 := by
  cases tokens with
  | nil => cases h
  | cons t ts =>
    cases h
    exact ⟨rfl, rfl⟩

/-- Taken tokens are the ones that the feed shows first. -/
theorem Passes.eq_take {ts : List Token} (h : f.Passes ts g) (hl : ts.length ≤ f.rest.length + 1) :
    ts = (f.current :: f.rest).take ts.length := by
  induction ts generalizing f with
  | nil => rfl
  | cons t ts ih =>
    obtain ⟨rfl, hp⟩ := h
    rw [List.length_cons, List.take_succ_cons]
    congr 1
    cases hrest : f.rest with
    | nil =>
      rw [hrest, List.length_cons, List.length_nil] at hl
      rw [List.eq_nil_of_length_eq_zero (by omega : ts.length = 0)]
      rfl
    | cons u rest =>
      obtain ⟨hcurrent, hnext⟩ := tokens_next hrest
      rw [hrest, List.length_cons, List.length_cons] at hl
      have hts := ih hp (by rw [hnext]; omega)
      rwa [hcurrent, hnext] at hts

end Feed

namespace Parse

/-! ## Reading does not look ahead -/

/-- As far as two feeds are alike, the second action ends on one of them as the first action does on
the other, or it runs out of depth. The first action never goes back. -/
structure Follows {α : Type} (x y : Parse α) : Prop where
  ok : ∀ {k f g}, f.Alike k g → ∀ {a f'}, x f = .ok a f' → f.position ≤ f'.position ∧
    ∀ j, f'.position + j = f.position + k →
      (∃ g', y g = .ok a g' ∧ f'.Alike j g') ∨ ∃ g', y g = .error .endlessNesting g'
  error : ∀ {k f g}, f.Alike k g → ∀ {e f'}, x f = .error e f' → f.position ≤ f'.position ∧
    (e ≠ .endlessNesting → f'.position ≤ f.position + k → ∃ e' g', y g = .error e' g')

theorem Follows.bind {α β : Type} {x y : Parse α} {F G : α → Parse β} (hx : Follows x y)
    (hF : ∀ a, Follows (F a) (G a)) : Follows (x >>= F) (y >>= G) := by
  constructor
  · intro k f g hfg b f'' hb
    obtain ⟨a, f', ha, hb⟩ := bind_eq_ok.mp hb
    obtain ⟨hle, hthen⟩ := hx.ok hfg ha
    have hle' := ((hF a).ok (f'.alike_refl 0) hb).1
    refine ⟨hle.trans hle', fun j hj => ?_⟩
    obtain ⟨i, hi⟩ : ∃ i, f'.position + i = f.position + k :=
      ⟨f.position + k - f'.position, by omega⟩
    rcases hthen i hi with ⟨g', hg', halike⟩ | ⟨g', hg'⟩
    · rw [bind_of_ok hg']
      exact ((hF a).ok halike hb).2 j (by omega)
    · exact .inr ⟨g', bind_eq_error.mpr (.inl hg')⟩
  · intro k f g hfg e f'' he
    obtain he | ⟨a, f', ha, he⟩ := bind_eq_error.mp he
    · obtain ⟨hle, hthen⟩ := hx.error hfg he
      refine ⟨hle, fun hne hk => ?_⟩
      obtain ⟨e', g', hg'⟩ := hthen hne hk
      exact ⟨e', g', bind_eq_error.mpr (.inl hg')⟩
    · obtain ⟨hle, hthen⟩ := hx.ok hfg ha
      have hle' := ((hF a).error (f'.alike_refl 0) he).1
      refine ⟨hle.trans hle', fun hne hk => ?_⟩
      obtain ⟨i, hi⟩ : ∃ i, f'.position + i = f.position + k :=
        ⟨f.position + k - f'.position, by omega⟩
      rcases hthen i hi with ⟨g', hg', halike⟩ | ⟨g', hg'⟩
      · obtain ⟨e', h', hh'⟩ := ((hF a).error halike he).2 hne (by omega)
        exact ⟨e', h', bind_eq_error.mpr (.inr ⟨a, g', hg', hh'⟩)⟩
      · exact ⟨_, g', bind_eq_error.mpr (.inl hg')⟩

theorem follows_pure {α : Type} (a : α) : Follows (pure a) (pure a) := by
  constructor
  · intro k f g hfg b f' hb
    obtain ⟨rfl, rfl⟩ := pure_eq_ok.mp hb
    refine ⟨le_rfl, fun j hj => .inl ⟨g, rfl, ?_⟩⟩
    rwa [Nat.add_left_cancel hj]
  · intro k f g hfg e f' he
    cases he

theorem follows_current : Follows current current := by
  constructor
  · intro k f g hfg t f' ht
    obtain ⟨rfl, rfl⟩ := current_eq_ok.mp ht
    refine ⟨le_rfl, fun j hj => .inl ⟨g, current_eq_ok.mpr ⟨hfg.current, rfl⟩, ?_⟩⟩
    rwa [Nat.add_left_cancel hj]
  · intro k f g hfg e f' he
    cases he

theorem follows_eat (k : Kind) : Follows (eat k) (eat k) := by
  constructor
  · intro n f g hfg a f' ha
    obtain ⟨hk, rfl⟩ := eat_eq_ok.mp ha
    rw [Feed.position_next]
    refine ⟨by omega, fun j hj => .inl ?_⟩
    obtain rfl : n = j + 1 := by omega
    exact ⟨g.next, eat_eq_ok.mpr ⟨hfg.current ▸ hk, rfl⟩, hfg.next⟩
  · intro n f g hfg e f' he
    by_cases hk : f.current.kind = k
    · rw [eat, if_pos hk] at he
      cases he
    · rw [eat, if_neg hk] at he
      cases he
      exact ⟨le_rfl, fun _ _ => ⟨_, g, by rw [eat, if_neg (hfg.current ▸ hk)]⟩⟩

/-- Two actions that fail wherever they are begun, the first one without taking a token. -/
theorem follows_of_error {α : Type} {x y : Parse α} (hx : ∀ f, ∃ e, x f = .error e f)
    (hy : ∀ g, ∃ e g', y g = .error e g') : Follows x y := by
  constructor
  · intro k f g hfg a f' ha
    obtain ⟨e, he⟩ := hx f
    rw [he] at ha
    cases ha
  · intro k f g hfg e f' he
    obtain ⟨e', he'⟩ := hx f
    rw [he'] at he
    cases he
    exact ⟨le_rfl, fun _ _ => hy g⟩

theorem congruence_follows : Congruence (fun _ => True) fun x y => Follows x y where
  native _ := trivial
  pure := follows_pure
  bind := Follows.bind
  look h := follows_current.bind fun t => h t trivial
  eat _ := follows_eat _
  complain _ := follows_of_error (fun f => ⟨_, rfl⟩) fun g => ⟨_, g, rfl⟩
  fail _ := follows_of_error (fun f => ⟨_, rfl⟩) fun g => ⟨_, g, rfl⟩
  within h := ⟨fun hfg _ _ hx => (h _ _).ok hfg hx, fun hfg _ _ hx => (h _ _).error hfg hx⟩
  giveUpLeft _ := ⟨fun _ _ _ hx => absurd hx throw_ne_ok, fun _ _ _ hx => by
    cases hx
    exact ⟨le_rfl, fun hne => absurd rfl hne⟩⟩
  giveUpRight h := ⟨fun hfg _ _ hx => ⟨(h.ok hfg hx).1, fun _ _ => .inr ⟨_, rfl⟩⟩,
    fun hfg _ _ hx => ⟨(h.error hfg hx).1, fun _ _ => ⟨_, _, rfl⟩⟩⟩

end Parse

/-! ## The first impossible token -/

theorem Feed.alike_of_take {tokens us : List Token} {f g : Feed} {k : ℕ}
    (hf : ofTokens? tokens = some f) (hg : ofTokens? us = some g) (hk : k < tokens.length)
    (hpre : tokens.take (k + 1) <+: us) : f.Alike k g := by
  refine ⟨(tokens_of_ofTokens? hf).2.trans (tokens_of_ofTokens? hg).2.symm, fun j hj => ?_⟩
  have hlength : (tokens.take (k + 1)).length = k + 1 := by
    rw [List.length_take]
    omega
  have hle := hpre.length_le
  rw [iterate_next_of_ofTokens? hf j (by omega), iterate_next_of_ofTokens? hg j (by omega)]
  have hget := hpre.getElem (i := j) (by omega)
  rw [List.getElem_take] at hget
  exact hget

/-- The tokens that have been taken without a failure can be completed to a program. -/
theorem exists_completion {tokens : List Token} {start g : Feed} {e : SyntaxError}
    (hl : Token.Lexed tokens) (hplain : ∀ t ∈ tokens, ¬NameRule.IsWindow t.value)
    (hstart : Feed.ofTokens? tokens = some start) (herror : Parse.program start = .error e g)
    (hg : g.position < tokens.length) :
    ∃ us tree, tokens.take g.position <+: us ∧ Token.Lexed us ∧ Node.ofTokens us = .ok tree := by
  obtain ⟨rfl, hzero⟩ := Feed.tokens_of_ofTokens? hstart
  obtain ⟨ts, us, ⟨ns, hns⟩, hp, hu⟩ := (Parse.reads_program.reads start hplain).error e g herror
  have hlength : ts.length = g.position := by
    rw [hp.position, hzero, Nat.zero_add]
  have hts : ts = (start.current :: start.rest).take g.position := by
    rw [← hlength]
    refine hp.eq_take ?_
    rw [hlength]
    exact hg.le
  obtain ⟨body, last, heq, hlast, hbody⟩ := hl
  have hfaithful : ∀ t ∈ ts, t.Faithful := by
    intro t ht
    rw [hts, heq, List.take_append_of_le_length] at ht
    · exact hbody t (List.mem_of_mem_take ht)
    · rw [heq, List.length_append, List.length_singleton] at hg
      omega
  have hlexed : Token.Lexed (ts ++ us ++ [⟨.endOfInput, .absent, 0, 0⟩]) :=
    ⟨ts ++ us, _, rfl, rfl, List.forall_mem_append.mpr ⟨hfaithful, hu⟩⟩
  refine ⟨_, .program ns, ?_, hlexed, ofTokens_of_derived hlexed ?_⟩
  · rw [← hts, List.append_assoc]
    exact List.prefix_append ts _
  · rwa [List.dropLast_concat]

/-- Where reading fails, the tokens before can be completed to a program, and together with the
token at which the error is reported they begin no program at all. -/
theorem error_at_first_impossible {tokens : List Token} {start g : Feed} {e : SyntaxError}
    (hl : Token.Lexed tokens) (hplain : ∀ t ∈ tokens, ¬NameRule.IsWindow t.value)
    (hstart : Feed.ofTokens? tokens = some start) (herror : Parse.program start = .error e g) :
    ∃ (h : g.position < tokens.length) (c : Complaint),
      g.current = tokens[g.position] ∧ e = .found tokens[g.position] c ∧
      (∃ us tree, tokens.take g.position <+: us ∧ Token.Lexed us ∧ Node.ofTokens us = .ok tree) ∧
      ∀ us tree, tokens.take (g.position + 1) <+: us → Node.ofTokens us ≠ .ok tree := by
  obtain ⟨htokens, -⟩ := Feed.tokens_of_ofTokens? hstart
  have hclosed : start.Closed := closed_of_lexed (htokens ▸ hl)
  obtain ⟨c, rfl, k, -, hk, hg⟩ : ∃ c, e = .found g.current c ∧ start.Leads 0 g := by
    rcases Parse.ends_program start hclosed le_rfl with ⟨n, g', hn, -⟩ | ⟨c, g', hc, hg⟩
    · rw [hn] at herror
      cases herror
    · rw [hc] at herror
      cases herror
      exact ⟨c, rfl, hg⟩
  have hlt : k < tokens.length := by
    rw [htokens, List.length_cons]
    omega
  rw [Feed.iterate_next_of_ofTokens? hstart k hlt] at hg
  obtain rfl : k = g.position := by rw [hg]
  have hcurrent : g.current = tokens[g.position] := congrArg Feed.current hg
  refine ⟨hlt, c, hcurrent, by rw [hcurrent],
    exists_completion hl hplain hstart herror hlt, fun us tree hus htree => ?_⟩
  cases hstart' : Feed.ofTokens? us with
  | none =>
    simp [Node.ofTokens, hstart'] at htree
  | some start' =>
    have halike := Feed.alike_of_take hstart hstart' hlt hus
    obtain ⟨e', g', hg'⟩ := (Parse.congruence_follows.program.error halike herror).2 (by simp)
      (Nat.le_add_left _ _)
    simp [Node.ofTokens, hstart', hg'] at htree

/-- A parenthesis that closes nothing. -/
theorem error_at_first_impossible_of_parenthesis :
    let tokens : List Token := [⟨.identifier, "x", 1, 1⟩, ⟨.assign, "=", 1, 3⟩,
      ⟨.number, .int 1, 1, 5⟩, ⟨.rightParen, ")", 1, 7⟩, ⟨.endOfInput, .absent, 1, 8⟩]
    (∃ us tree, tokens.take 3 <+: us ∧ Token.Lexed us ∧ Node.ofTokens us = .ok tree) ∧
      ∀ us tree, tokens.take 4 <+: us → Node.ofTokens us ≠ .ok tree := by
  intro tokens
  have hl : Token.Lexed tokens := by
    refine ⟨tokens.dropLast, ⟨.endOfInput, .absent, 1, 8⟩, rfl, rfl, ?_⟩
    intro t ht
    simp only [tokens, List.dropLast, List.mem_cons, List.not_mem_nil, or_false] at ht
    rcases ht with rfl | rfl | rfl | rfl
    · exact .name Grammar.isName_x
    · exact .sign rfl
    · exact .integer 1
    · exact .sign rfl
  have hplain : ∀ t ∈ tokens, ¬NameRule.IsWindow t.value := by
    simp [tokens, NameRule.IsWindow]
  obtain ⟨-, -, -, -, h⟩ := error_at_first_impossible hl hplain rfl
    (g := ⟨⟨.rightParen, ")", 1, 7⟩, [⟨.endOfInput, .absent, 1, 8⟩], 3⟩) rfl
  exact h

end DrawPlus
