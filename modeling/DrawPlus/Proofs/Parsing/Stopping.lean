import DrawPlus.Proofs.Parsing.Complaints
import DrawPlus.Proofs.Parsing.FirstError

/-!
# Where reading stops

If the tokens of a text are no program, reading stops at one of them and complains there
(`exists_stop`). A semicolon is missed at the end of a statement only, so that a token stands before
the one at which it is missed (`Parse.program_position_lt_of_semicolon`).

That a rule takes a token before it fails can be seen without following the rule: if it ends in the
same way on two feeds that differ in the current token only, it has moved on from both of them
(`Runs.position_lt`).
-/

namespace DrawPlus

namespace Feed

/-- The feed with the current token written one line further down. -/
def lowered (f : Feed) : Feed :=
  { f with current := { f.current with line := f.current.line + 1 } }

theorem lowered_ne (f : Feed) : f.lowered ≠ f := by
  intro h
  have hline := congrArg (fun g : Feed => g.current.line) h
  simp [lowered] at hline

/-- The place of a token is forgotten once the token is taken. -/
theorem next_lowered {f : Feed} (h : f.rest ≠ []) : f.lowered.next = f.next := by
  cases hrest : f.rest with
  | nil => exact absurd hrest h
  | cons t rest => simp [next, lowered, hrest]

end Feed

namespace Parse

/-- A rule moves on from a feed if it ends alike on another feed at the same position. -/
theorem Runs.position_lt {α : Type} {x : Parse α} (hx : Runs x) {f g : Feed} (hne : g ≠ f)
    (hposition : g.position = f.position) (h : x g = x f) :
    f.position < (feedAfter (x f)).position := by
  obtain ⟨fs, hfs⟩ := hx f
  obtain ⟨gs, hgs⟩ := hx g
  have hf := hfs.path.2
  have hg := hgs.path.2
  rw [h] at hg
  have hlength : gs.length = fs.length := by
    have heq := congrArg Feed.position (hg.symm.trans hf)
    simp only [Feed.position_iterate] at heq
    omega
  rw [hlength] at hg
  rw [hf, Feed.position_iterate]
  -- without a token taken, both feeds would be the one at which the rule ends
  suffices fs.length ≠ 0 by omega
  intro hzero
  rw [hzero, Function.iterate_zero, id] at hf hg
  exact hne (hg.symm.trans hf)

theorem Runs.position_le {α : Type} {x : Parse α} (hx : Runs x) (f : Feed) :
    f.position ≤ (feedAfter (x f)).position := by
  obtain ⟨fs, hfs⟩ := hx f
  rw [hfs.path.2, Feed.position_iterate]
  omega

/-- A token with which a statement can begin. -/
def Opens (t : Token) : Prop :=
  t.kind ∈ [Kind.var, .cursor, .ifWord, .forWord, .whileWord] ∨
    t.kind = .identifier ∧ isWindowDimension t.value = false

/-- A rule that takes the current token first does so without regard to the place of the token. -/
theorem eat_bind_lowered {α : Type} {k : Kind} {f : Feed} (hrest : f.rest ≠ [])
    (h : f.current.kind = k) (F : Unit → Parse α) : (eat k >>= F) f.lowered = (eat k >>= F) f := by
  have hlowered : eat k f.lowered = .ok () f.lowered.next := if_pos h
  rw [bind_of_ok hlowered, Feed.next_lowered hrest, bind_of_ok (eat_eq_ok.mpr ⟨h, rfl⟩)]

theorem named_lowered {f : Feed} (hrest : f.rest ≠ []) (h : f.current.kind = .identifier)
    (hname : isWindowDimension f.current.value = false) : named f.lowered = named f := by
  unfold named
  rw [bind_of_ok (current_eq_ok.mpr ⟨rfl, rfl⟩), bind_of_ok (current_eq_ok.mpr ⟨rfl, rfl⟩)]
  have hvalue : f.lowered.current.value = f.current.value := rfl
  rw [hvalue, if_neg (by simp [hname])]
  exact eat_bind_lowered hrest h _

theorem statement_lowered {f : Feed} (hrest : f.rest ≠ []) (h : Opens f.current) :
    statement f.lowered = statement f := by
  change statementWithin (4 * f.rest.length + 6 + 2) f.lowered =
    statementWithin (4 * f.rest.length + 6 + 2) f
  unfold statementWithin
  rw [bind_of_ok (current_eq_ok.mpr ⟨rfl, rfl⟩), bind_of_ok (current_eq_ok.mpr ⟨rfl, rfl⟩)]
  have hkind : f.lowered.current.kind = f.current.kind := rfl
  rw [hkind]
  rcases h with h | ⟨h, hname⟩
  · simp only [List.mem_cons, List.not_mem_nil, or_false] at h
    rcases h with h | h | h | h | h
    · simp only [h]
      exact eat_bind_lowered hrest h _
    · simp only [h]
      exact eat_bind_lowered hrest h _
    · simp only [h]
      unfold branchWithin
      exact eat_bind_lowered hrest h _
    · simp only [h]
      unfold forLoopWithin
      exact eat_bind_lowered hrest h _
    · simp only [h]
      unfold whileLoopWithin
      exact eat_bind_lowered hrest h _
  · simp only [h]
    exact named_lowered hrest h hname

/-- On any other token a statement complains at once. -/
theorem statement_of_not_opens {f : Feed} (h : ¬Opens f.current) :
    ∃ c, statement f = .error (.found f.current c) f ∧ ∀ got, c ≠ .expected .semicolon got := by
  change ∃ c, statementWithin (4 * f.rest.length + 7 + 1) f = .error (.found f.current c) f ∧ _
  unfold statementWithin
  rw [bind_of_ok (current_eq_ok.mpr ⟨rfl, rfl⟩)]
  simp only [Opens, List.mem_cons, List.not_mem_nil, or_false, not_or, not_and,
    Bool.not_eq_false] at h
  obtain ⟨⟨h₁, h₂, h₃, h₄, h₅⟩, hname⟩ := h
  by_cases hk : f.current.kind = .identifier
  · refine ⟨.windowReassigned, ?_, by simp⟩
    simp only [hk]
    unfold named
    rw [bind_of_ok (current_eq_ok.mpr ⟨rfl, rfl⟩), if_pos (hname hk)]
    rfl
  · refine ⟨.noStatement f.current.kind, ?_, by simp⟩
    refine congrFun (g := complain (.noStatement f.current.kind)) ?_ f
    split <;> first | contradiction | rfl

theorem runs_statement : Runs statement :=
  (congruence_runs.within fun d e => (congruence_runs.statements d e).statement).1

theorem statement_position_lt_of_semicolon {f g : Feed} {t : Token} {got : Kind}
    (hrest : f.rest ≠ []) (h : statement f = .error (.found t (.expected .semicolon got)) g) :
    f.position < g.position := by
  by_cases hopens : Opens f.current
  · have hlt := runs_statement.position_lt f.lowered_ne rfl (statement_lowered hrest hopens)
    rwa [h] at hlt
  · obtain ⟨c, hc, hother⟩ := statement_of_not_opens hopens
    rw [hc] at h
    cases h
    exact absurd rfl (hother got)

/-- If a semicolon is missed, a token has been taken before. -/
theorem program_position_lt_of_semicolon {f g : Feed} {t : Token} {got : Kind} (hf : f.Closed)
    (h : program f = .error (.found t (.expected .semicolon got)) g) : f.position < g.position := by
  obtain h | ⟨ns, g', -, hpure⟩ := bind_eq_error.mp h
  swap
  · cases hpure
  change programWithin (4 * f.rest.length + 7 + 1) f = _ at h
  unfold programWithin at h
  rw [bind_of_ok (current_eq_ok.mpr ⟨rfl, rfl⟩)] at h
  split_ifs at h with hend
  · cases h
  obtain hfirst | ⟨n, g', hn, hrest⟩ := bind_eq_error.mp h
  · refine statement_position_lt_of_semicolon ?_ hfirst
    obtain ⟨k, hk, hle, -⟩ := Feed.leads_next hf hend
    exact List.ne_nil_of_length_pos (hk.trans hle)
  · obtain hrest | ⟨ns, g'', -, hpure⟩ := bind_eq_error.mp hrest
    · have hle := (congruence_runs.programWithin (4 * f.rest.length + 7) 0).1.position_le g'
      rw [hrest] at hle
      exact (advances_statementWithin _ f n g' hn).trans_le hle
    · cases hpure

end Parse

/-- Reading that fails has come to one of the tokens, and complains there. -/
theorem exists_stop {tokens : List Token} {start g : Feed} {e : SyntaxError}
    (hl : Token.Lexed tokens) (hstart : Feed.ofTokens? tokens = some start)
    (herror : Parse.program start = .error e g) :
    ∃ (h : g.position < tokens.length) (c : Complaint),
      tokens[g.position] = g.current ∧ e = .found g.current c ∧ c.SpeaksOf Kind.IsNative := by
  obtain ⟨htokens, -⟩ := Feed.tokens_of_ofTokens? hstart
  have hclosed : start.Closed := closed_of_lexed (htokens ▸ hl)
  obtain ⟨c, rfl⟩ : ∃ c, e = .found g.current c := by
    rcases Parse.ends_program start hclosed le_rfl with ⟨n, g', hn, -⟩ | ⟨c, g', hc, -⟩
    · rw [hn] at herror
      cases herror
    · rw [hc] at herror
      cases herror
      exact ⟨c, rfl⟩
  have hnative : ∀ t ∈ start.ahead, t.kind.IsNative := by
    rw [Feed.ahead, ← htokens]
    exact hl.isNative
  obtain ⟨fs, hrun⟩ := Parse.runs_program start
  rw [herror] at hrun
  have hmem : g ∈ start :: fs := by
    rw [hrun.visited, List.mem_iterate]
    exact ⟨fs.length, Nat.lt_succ_self _, hrun.path.2⟩
  obtain ⟨hlt, hcurrent⟩ := hrun.inside hstart hclosed g hmem
  exact ⟨hlt, c, hcurrent.symm, rfl,
    ((Parse.congruence_speaks.program.1 start hnative).2 _ _ _ herror).2⟩

end DrawPlus
