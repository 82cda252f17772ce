import DrawPlus.Proofs.Parsing.Statements

/-!
# Reading programs by the grammar

What the grammar derives as a statement is read as that statement, whatever follows it, since every
statement ends in a semicolon. With the other direction, from `Statements`, reading a whole list of
tokens succeeds on exactly the lists that the grammar derives, and gives the derived tree.

The depth of calls is bounded by four for each token: a block opens with a token of its own, and
from a statement to the statements of its block there are three calls.
-/

namespace DrawPlus

namespace Feed

/-- Taking the tokens `ts` one after the other leads from one feed to another, and each of them is
followed by another token. -/
def Takes : Feed → List Token → Feed → Prop
  | f, [], g => g = f
  | f, t :: ts, g => f.current = t ∧ f.rest ≠ [] ∧ f.next.Takes ts g

theorem takes_append {f h : Feed} {ts us : List Token} :
    f.Takes (ts ++ us) h ↔ ∃ g, f.Takes ts g ∧ g.Takes us h := by
  induction ts generalizing f with
  | nil => simp [Takes]
  | cons t ts ih =>
    simp only [List.cons_append, Takes, ih]
    constructor
    · rintro ⟨ht, hr, g, hts, hus⟩
      exact ⟨g, ⟨ht, hr, hts⟩, hus⟩
    · rintro ⟨g, ⟨ht, hr, hts⟩, hus⟩
      exact ⟨ht, hr, g, hts, hus⟩

theorem Takes.passes {f g : Feed} {ts : List Token} (h : f.Takes ts g) : f.Passes ts g := by
  induction ts generalizing f with
  | nil => exact h
  | cons t ts ih => exact ⟨h.1, ih h.2.2⟩

theorem Takes.length {f g : Feed} {ts : List Token} (h : f.Takes ts g) :
    g.rest.length + ts.length = f.rest.length := by
  induction ts generalizing f with
  | nil =>
    obtain rfl := h
    simp
  | cons t ts ih =>
    have hpos := List.length_pos_of_ne_nil h.2.1
    have hn : f.next.rest.length = f.rest.length - 1 := by simp [rest_next]
    have := ih h.2.2
    rw [List.length_cons]
    omega

end Feed

namespace Parse

open Grammar

variable {f g h : Feed} {ts : List Token} {n : Node}

/-! ## From the grammar to rules without a body -/

theorem sum_of_takes (hn : Sum ts n) (hp : f.Takes ts g)
    (hg : g.current.kind.isArithmetic = false) : sum f = .ok n g := by
  have hl := hp.length
  exact sum_complete hn hp.passes (by omega) hg

theorem isArithmetic_of_isComparison {k : Kind} (h : k.isComparison = true) :
    k.isArithmetic = false := by
  simp only [Kind.isComparison, decide_eq_true_eq, List.mem_cons, List.not_mem_nil, or_false] at h
  rcases h with rfl | rfl | rfl | rfl | rfl | rfl <;> rfl

theorem condition_complete (hn : Condition ts n) (hp : f.Takes ts g)
    (ha : g.current.kind.isArithmetic = false) (hc : g.current.kind.isComparison = false) :
    condition f = .ok n g := by
  cases hn with
  | sum hn => exact condition_eq_ok.mpr ⟨n, g, sum_of_takes hn hp ha, .inr ⟨hc, rfl, rfl⟩⟩
  | comparison hl hop hr =>
    obtain ⟨f₁, hp₁, rfl, -, hp₂⟩ := Feed.takes_append.mp hp
    refine condition_eq_ok.mpr ⟨_, f₁, sum_of_takes hl hp₁ (isArithmetic_of_isComparison hop), ?_⟩
    exact .inl ⟨hop, _, sum_of_takes hr hp₂ ha, rfl⟩

theorem guarded_complete (hn : Guarded ts n) (hp : f.Takes ts g) : guarded f = .ok n g := by
  obtain ⟨ha, hc, hz⟩ := hn
  obtain ⟨rfl, -, hq⟩ := hp
  obtain ⟨f₁, hp₁, rfl, -, rfl⟩ := Feed.takes_append.mp hq
  have hr := condition_complete hc hp₁ (by simp [hz, Kind.isArithmetic])
    (by simp [hz, Kind.isComparison])
  exact guarded_eq_ok.mpr ⟨ha, f₁, hr, hz, rfl⟩

theorem assignment_complete {x : Token} {b : Bool} (hn : Assignment (x :: ts) n)
    (hp : f.Takes ts g) (hg : g.current.kind.isArithmetic = false) (hz : Closes b g h) :
    assignment x.value b f = .ok n h := by
  cases hn with
  | plain hx ha hn =>
    obtain ⟨rfl, -, hq⟩ := hp
    exact assignment_eq_ok.mpr ⟨_, g, sum_of_takes hn hq hg, hz, .inr ⟨ha, rfl⟩⟩
  | compound hx ha hn =>
    obtain ⟨rfl, -, hq⟩ := hp
    exact assignment_eq_ok.mpr ⟨_, g, sum_of_takes hn hq hg, hz, .inl ⟨_, ha, rfl⟩⟩

theorem kind_of_sum (hr : sum f = .ok n g) : f.current.kind ≠ .rightParen := by
  obtain ⟨d, hd⟩ : ∃ d, depthBound f = d + 3 := ⟨4 * f.rest.length + 5, by unfold depthBound; omega⟩
  rw [sum, hd] at hr
  obtain ⟨l, f₁, hr, -⟩ := sumWithin_eq_ok.mp hr
  obtain ⟨m, f₂, hr, -⟩ := productWithin_eq_ok.mp hr
  intro hk
  simp [factorWithin_eq_ok, hk] at hr

/-- The first of the listed arguments is read as an expression, and the others after it. -/
theorem listed_complete {ns : List Node} (hn : Listed ts ns) (hp : f.Takes ts g)
    (hg : g.current.kind = .rightParen) : ∃ a as f₁, ns = a :: as ∧ sum f = .ok a f₁ ∧
      f₁.rest.length ≤ f.rest.length ∧ ∀ d, f₁.rest.length < d → argumentTail d f₁ = .ok as g := by
  induction hn generalizing f with
  | one hn =>
    have hl := hp.length
    refine ⟨_, [], g, rfl, sum_of_takes hn hp (by simp [hg, Kind.isArithmetic]), by omega, ?_⟩
    intro d hd
    obtain ⟨d, rfl⟩ : ∃ d', d = d' + 1 := ⟨d - 1, by omega⟩
    exact argumentTail_eq_ok.mpr (.inr ⟨by simp [hg], rfl, rfl⟩)
  | more hn hc _ ih =>
    obtain ⟨f₁, hp₁, rfl, hne, hp₂⟩ := Feed.takes_append.mp hp
    obtain ⟨a, as, f₂, rfl, ha, hle, has⟩ := ih hp₂
    have hl := hp₁.length
    have hpos := List.length_pos_of_ne_nil hne
    have hnext : f₁.next.rest.length = f₁.rest.length - 1 := by simp [Feed.rest_next]
    refine ⟨_, a :: as, f₁, rfl, sum_of_takes hn hp₁ (by simp [hc, Kind.isArithmetic]),
      by omega, ?_⟩
    intro d hd
    obtain ⟨d, rfl⟩ : ∃ d', d = d' + 1 := ⟨d - 1, by omega⟩
    exact argumentTail_eq_ok.mpr (.inl ⟨hc, a, f₂, ha, as, has d (by omega), rfl⟩)

theorem arguments_complete {ns : List Node} (hn : Arguments ts ns) (hp : f.Takes ts g)
    (hg : g.current.kind = .rightParen) : arguments f = .ok ns g := by
  cases hn with
  | none =>
    obtain rfl := hp
    exact arguments_eq_ok.mpr (.inl ⟨hg, rfl, rfl⟩)
  | some hl =>
    obtain ⟨a, as, f₁, rfl, ha, -, has⟩ := listed_complete hl hp hg
    have hd : f₁.rest.length < depthBound f₁ := by
      unfold depthBound
      omega
    exact arguments_eq_ok.mpr (.inr ⟨kind_of_sum ha, a, f₁, ha, as, has _ hd, rfl⟩)

theorem declaration_complete (hn : Declaration .window ts n) (hp : f.Takes ts g) :
    declaration f = .ok n g := by
  obtain ⟨hv, ht, hx, ha, hn, hd, hz⟩ := hn
  obtain ⟨rfl, -, rfl, -, rfl, -, rfl, -, hq⟩ := hp
  obtain ⟨f₁, hp₁, rfl, -, rfl⟩ := Feed.takes_append.mp hq
  have hr := sum_of_takes hn hp₁ (by simp [hz, Kind.isArithmetic])
  exact declaration_eq_ok.mpr ⟨hv, ht, hx, ha, _, f₁, hr, hd, hz, rfl, rfl⟩

theorem cursorCreation_complete (hn : Creation ts n) (hp : f.Takes ts g) :
    cursorCreation f = .ok n g := by
  obtain ⟨hw, hx, ha, hk, hl, hm, hc, hn, hq, hz⟩ := hn
  obtain ⟨rfl, -, rfl, -, rfl, -, rfl, -, rfl, -, hq₁⟩ := hp
  obtain ⟨f₁, hp₁, rfl, -, hq₂⟩ := Feed.takes_append.mp hq₁
  obtain ⟨f₂, hp₂, rfl, -, rfl, -, rfl⟩ := Feed.takes_append.mp hq₂
  have hr₁ := sum_of_takes hm hp₁ (by simp [hc, Kind.isArithmetic])
  have hr₂ := sum_of_takes hn hp₂ (by simp [hq, Kind.isArithmetic])
  exact cursorCreation_eq_ok.mpr
    ⟨hw, hx, ha, hk, hl, _, f₁, hr₁, hc, _, f₂, hr₂, hq, hz, rfl, rfl⟩

theorem begins_of_assignment (hn : Assignment ts n) :
    ∃ x us, ts = x :: us ∧ x.kind = .identifier := by
  cases hn with
  | plain hx | compound hx => exact ⟨_, _, rfl, hx⟩

theorem isAssignment_of_assignment {x a : Token} (hn : Assignment (x :: a :: ts) n) :
    a.kind ≠ .dot ∧ isAssignment a.kind = true := by
  cases hn with
  | plain _ ha _ => simp [ha, isAssignment]
  | compound _ ha _ =>
    refine ⟨fun hk => ?_, by simp [isAssignment, compoundOperator?_eq_some.mpr ha]⟩
    rw [hk] at ha
    cases ha

theorem named_of_assignment {x z : Token} (hn : Assignment (x :: ts) n)
    (hw : NameRule.window.begins x.value) (hz : z.kind = .semicolon)
    (hp : f.Takes (x :: (ts ++ [z])) g) : f.current.kind = .identifier ∧ named f = .ok n g := by
  obtain ⟨rfl, -, hq⟩ := hp
  obtain ⟨f₁, hp₁, rfl, -, rfl⟩ := Feed.takes_append.mp hq
  have hr := assignment_complete hn hp₁ (by simp [hz, Kind.isArithmetic])
    (show Closes true f₁ f₁.next from ⟨hz, rfl⟩)
  have hx : f.current.kind = .identifier := by cases hn <;> assumption
  have hk : f.next.current.kind ≠ .dot ∧ isAssignment f.next.current.kind = true := by
    cases ts with
    | nil => cases hn
    | cons a ts =>
      obtain ⟨rfl, -⟩ := hp₁
      exact isAssignment_of_assignment hn
  exact ⟨hx, named_eq_ok.mpr ⟨hw, hx, .inr ⟨hk.1, hk.2, hr⟩⟩⟩

theorem named_of_call {x : Token} (hn : Call (x :: ts) n) (hw : NameRule.window.begins x.value)
    (hf : ∀ t ∈ x :: ts, t.Faithful) (hp : f.Takes (x :: ts) g) :
    f.current.kind = .identifier ∧ named f = .ok n g := by
  cases hn with
  | draw hx hd hm hl hn hq hz =>
    obtain ⟨rfl, -, rfl, -, rfl, -, rfl, -, hq₁⟩ := hp
    obtain ⟨f₁, hp₁, rfl, -, rfl, -, rfl⟩ := Feed.takes_append.mp hq₁
    obtain ⟨w, hv, hcall⟩ := callNode_of_drawing (hf _ (by simp)) hm
    have hr := methodCall_eq_ok.mpr
      ⟨hl, _, f₁, arguments_complete hn hp₁ hq, hq, hz, rfl, w, hv, (hcall f.current.value _).symm⟩
    exact ⟨hx, named_eq_ok.mpr ⟨hw, hx, .inl ⟨hd, isMethod_eq_true.mpr (.inl hm), hr⟩⟩⟩
  | change hx hd hm hl hn hq hz =>
    obtain ⟨rfl, -, rfl, -, rfl, -, rfl, -, hq₁⟩ := hp
    obtain ⟨f₁, hp₁, rfl, -, rfl, -, rfl⟩ := Feed.takes_append.mp hq₁
    obtain ⟨w, hv, hcall⟩ := callNode_of_changing (hf _ (by simp)) hm
    have hr := methodCall_eq_ok.mpr
      ⟨hl, _, f₁, arguments_complete hn hp₁ hq, hq, hz, rfl, w, hv, (hcall f.current.value _).symm⟩
    exact ⟨hx, named_eq_ok.mpr ⟨hw, hx, .inl ⟨hd, isMethod_eq_true.mpr (.inr hm), hr⟩⟩⟩

theorem loopStart_complete (hn : Start .window ts n) (hp : f.Takes ts g) :
    loopStart f = .ok n g := by
  cases hn with
  | declaration hd =>
    have hr := declaration_complete hd hp
    exact loopStart_eq_ok.mpr (.inl ⟨(declaration_eq_ok.mp hr).1, hr⟩)
  | assignment ha hz =>
    obtain ⟨f₁, hp₁, rfl, -, rfl⟩ := Feed.takes_append.mp hp
    obtain ⟨x, us, rfl, hx⟩ := begins_of_assignment ha
    obtain ⟨rfl, -, hq⟩ := hp₁
    have hr := assignment_complete ha hq (by simp [hz, Kind.isArithmetic])
      (show Closes true f₁ f₁.next from ⟨hz, rfl⟩)
    exact loopStart_eq_ok.mpr (.inr ⟨hx, hr⟩)

theorem loopStep_complete (hn : Assignment ts n) (hp : f.Takes ts g)
    (hg : g.current.kind.isArithmetic = false) : loopStep f = .ok n g := by
  obtain ⟨x, us, rfl, hx⟩ := begins_of_assignment hn
  obtain ⟨rfl, -, hq⟩ := hp
  exact loopStep_eq_ok.mpr ⟨hx, assignment_complete hn hq hg (show Closes false g g from rfl)⟩

/-! ## From the grammar to rules with a body -/

theorem kind_of_statementWithin {d : ℕ} (hr : statementWithin d f = .ok n g) :
    f.current.kind ∉ [Kind.rightBrace, .endOfInput] := by
  cases d with
  | zero => simp [statementWithin] at hr
  | succ d =>
    obtain ⟨hk, -⟩ | ⟨hk, -⟩ | ⟨hk, -⟩ | ⟨hk, -⟩ | ⟨hk, -⟩ | ⟨hk, -⟩ :=
      statementWithin_eq_ok.mp hr <;> simp [hk]

theorem kind_of_otherwise {o : Option (List Node)} (ho : Otherwise .window ts o)
    (hp : f.Takes ts g) (hg : g.current.kind ≠ .elifWord) : f.current.kind ≠ .elifWord := by
  cases ho with
  | none =>
    obtain rfl := hp
    exact hg
  | some hw _ => simp [hp.1, hw]

theorem statement_length_pos (hn : Statement .window ts n) : 0 < ts.length := by
  cases hn with
  | declaration h => cases h; simp
  | creation h => cases h; simp
  | _ => simp

mutual

theorem statementWithin_complete {ts : List Token} {n : Node} : Statement .window ts n →
    ∀ {f g : Feed} {d : ℕ}, f.Takes ts g → (∀ t ∈ ts, t.Faithful) → 4 * ts.length ≤ d →
    statementWithin d f = .ok n g
  | .declaration hn, f, g, d, hp, _, hd => by
    have hl := statement_length_pos (.declaration hn)
    obtain ⟨d, rfl⟩ : ∃ d', d = d' + 1 := ⟨d - 1, by omega⟩
    have hr := declaration_complete hn hp
    exact statementWithin_eq_ok.mpr (.inl ⟨(declaration_eq_ok.mp hr).1, hr⟩)
  | .creation hn, f, g, d, hp, _, hd => by
    have hl := statement_length_pos (.creation hn)
    obtain ⟨d, rfl⟩ : ∃ d', d = d' + 1 := ⟨d - 1, by omega⟩
    have hr := cursorCreation_complete hn hp
    exact statementWithin_eq_ok.mpr (.inr (.inl ⟨(cursorCreation_eq_ok.mp hr).1, hr⟩))
  | .assignment hn hw hz, f, g, d, hp, _, hd => by
    simp only [List.length_cons] at hd
    obtain ⟨d, rfl⟩ : ∃ d', d = d' + 1 := ⟨d - 1, by omega⟩
    have hr := named_of_assignment hn hw hz hp
    exact statementWithin_eq_ok.mpr (.inr (.inr (.inl hr)))
  | .call hn hw, f, g, d, hp, hf, hd => by
    simp only [List.length_cons] at hd
    obtain ⟨d, rfl⟩ : ∃ d', d = d' + 1 := ⟨d - 1, by omega⟩
    have hr := named_of_call hn hw hf hp
    exact statementWithin_eq_ok.mpr (.inr (.inr (.inl hr)))
  | .branch hw hc hb ha ho hz, f, g, d, hp, hf, hd => by
    simp only [List.length_cons, List.length_append, List.length_nil] at hd
    obtain ⟨d, rfl⟩ : ∃ d', d = d' + 2 := ⟨d - 2, by omega⟩
    obtain ⟨rfl, -, hq₁⟩ := hp
    obtain ⟨f₁, hp₁, hq₂⟩ := Feed.takes_append.mp hq₁
    obtain ⟨f₂, hp₂, hq₃⟩ := Feed.takes_append.mp hq₂
    obtain ⟨f₃, hp₃, hq₄⟩ := Feed.takes_append.mp hq₃
    obtain ⟨f₄, hp₄, rfl, -, rfl⟩ := Feed.takes_append.mp hq₄
    have hr₄ := otherwiseWithin_complete ho hp₄ (d := d) (by simp [hz])
      (fun t ht => hf t (by simp [ht])) (by omega)
    have hr₃ := armsWithin_complete ha hp₃ (d := d) (kind_of_otherwise ho hp₄ (by simp [hz]))
      (fun t ht => hf t (by simp [ht])) (by omega)
    have hr₂ := blockWithin_complete hb hp₂ (d := d) (fun t ht => hf t (by simp [ht])) (by omega)
    have hr := branchWithin_eq_ok.mpr ⟨hw, _, f₁, guarded_complete hc hp₁, _, f₂, hr₂, _, f₃, hr₃,
      _, f₄, hr₄, hz, rfl, rfl⟩
    exact statementWithin_eq_ok.mpr (.inr (.inr (.inr (.inl ⟨hw, hr⟩))))
  | .forLoop hw hl hi hc hs hu hq hb hz, f, g, d, hp, hf, hd => by
    simp only [List.length_cons, List.length_append, List.length_nil] at hd
    obtain ⟨d, rfl⟩ : ∃ d', d = d' + 2 := ⟨d - 2, by omega⟩
    obtain ⟨rfl, -, rfl, -, hq₁⟩ := hp
    obtain ⟨f₁, hp₁, hq₂⟩ := Feed.takes_append.mp hq₁
    obtain ⟨f₂, hp₂, rfl, -, hq₃⟩ := Feed.takes_append.mp hq₂
    obtain ⟨f₃, hp₃, rfl, -, hq₄⟩ := Feed.takes_append.mp hq₃
    obtain ⟨f₄, hp₄, rfl, -, rfl⟩ := Feed.takes_append.mp hq₄
    have hr₁ := loopStart_complete hi hp₁
    have hr₂ := condition_complete hc hp₂ (by simp [hs, Kind.isArithmetic])
      (by simp [hs, Kind.isComparison])
    have hr₃ := loopStep_complete hu hp₃ (by simp [hq, Kind.isArithmetic])
    have hr₄ := blockWithin_complete hb hp₄ (d := d) (fun t ht => hf t (by simp [ht])) (by omega)
    have hr := forLoopWithin_eq_ok.mpr ⟨hw, hl, _, f₁, hr₁, _, f₂, hr₂, hs, _, f₃, hr₃, hq, _, f₄,
      hr₄, hz, rfl, rfl⟩
    exact statementWithin_eq_ok.mpr (.inr (.inr (.inr (.inr (.inl ⟨hw, hr⟩)))))
  | .whileLoop hw hc hb hz, f, g, d, hp, hf, hd => by
    simp only [List.length_cons, List.length_append, List.length_nil] at hd
    obtain ⟨d, rfl⟩ : ∃ d', d = d' + 2 := ⟨d - 2, by omega⟩
    obtain ⟨rfl, -, hq₁⟩ := hp
    obtain ⟨f₁, hp₁, hq₂⟩ := Feed.takes_append.mp hq₁
    obtain ⟨f₂, hp₂, rfl, -, rfl⟩ := Feed.takes_append.mp hq₂
    have hr₂ := blockWithin_complete hb hp₂ (d := d) (fun t ht => hf t (by simp [ht])) (by omega)
    have hr := whileLoopWithin_eq_ok.mpr
      ⟨hw, _, f₁, guarded_complete hc hp₁, _, f₂, hr₂, hz, rfl, rfl⟩
    exact statementWithin_eq_ok.mpr (.inr (.inr (.inr (.inr (.inr ⟨hw, hr⟩)))))

theorem statementsWithin_complete {ts : List Token} {ns : List Node} : Statements .window ts ns →
    ∀ {f g : Feed} {d : ℕ}, f.Takes ts g → g.current.kind = .rightBrace →
    (∀ t ∈ ts, t.Faithful) → 4 * ts.length + 1 ≤ d → statementsWithin d f = .ok ns g
  | .nil, f, g, d, hp, hg, _, hd => by
    obtain ⟨d, rfl⟩ : ∃ d', d = d' + 1 := ⟨d - 1, by omega⟩
    obtain rfl := hp
    exact statementsWithin_eq_ok.mpr (.inl ⟨hg, rfl, rfl⟩)
  | .cons hn hns, f, g, d, hp, hg, hf, hd => by
    have hl := statement_length_pos hn
    simp only [List.length_append] at hd
    obtain ⟨d, rfl⟩ : ∃ d', d = d' + 1 := ⟨d - 1, by omega⟩
    obtain ⟨f₁, hp₁, hp₂⟩ := Feed.takes_append.mp hp
    have hr₁ := statementWithin_complete hn hp₁ (d := d) (fun t ht => hf t (by simp [ht]))
      (by omega)
    have hr₂ := statementsWithin_complete hns hp₂ (d := d) hg (fun t ht => hf t (by simp [ht]))
      (by omega)
    have hk : f.current.kind ≠ .rightBrace := by
      have := kind_of_statementWithin hr₁
      simp_all
    exact statementsWithin_eq_ok.mpr (.inr ⟨hk, _, f₁, hr₁, _, hr₂, rfl⟩)

theorem blockWithin_complete {ts : List Token} {ns : List Node} : Block .window ts ns →
    ∀ {f g : Feed} {d : ℕ}, f.Takes ts g → (∀ t ∈ ts, t.Faithful) → 4 * ts.length ≤ d →
    blockWithin d f = .ok ns g
  | .intro ha hns hz, f, g, d, hp, hf, hd => by
    simp only [List.length_cons, List.length_append, List.length_nil] at hd
    obtain ⟨d, rfl⟩ : ∃ d', d = d' + 1 := ⟨d - 1, by omega⟩
    obtain ⟨rfl, -, hq⟩ := hp
    obtain ⟨f₁, hp₁, rfl, -, rfl⟩ := Feed.takes_append.mp hq
    have hr := statementsWithin_complete hns hp₁ (d := d) hz (fun t ht => hf t (by simp [ht]))
      (by omega)
    exact blockWithin_eq_ok.mpr ⟨ha, f₁, hr, hz, rfl⟩

theorem armsWithin_complete {ts : List Token} {as : List (Node × List Node)} :
    Arms .window ts as → ∀ {f g : Feed} {d : ℕ}, f.Takes ts g → g.current.kind ≠ .elifWord →
    (∀ t ∈ ts, t.Faithful) → 4 * ts.length + 1 ≤ d → armsWithin d f = .ok as g
  | .nil, f, g, d, hp, hg, _, hd => by
    obtain ⟨d, rfl⟩ : ∃ d', d = d' + 1 := ⟨d - 1, by omega⟩
    obtain rfl := hp
    exact armsWithin_eq_ok.mpr (.inr ⟨hg, rfl, rfl⟩)
  | .cons hw hc hb ha, f, g, d, hp, hg, hf, hd => by
    simp only [List.length_cons, List.length_append] at hd
    obtain ⟨d, rfl⟩ : ∃ d', d = d' + 1 := ⟨d - 1, by omega⟩
    obtain ⟨rfl, -, hq₁⟩ := hp
    obtain ⟨f₁, hp₁, hq₂⟩ := Feed.takes_append.mp hq₁
    obtain ⟨f₂, hp₂, hp₃⟩ := Feed.takes_append.mp hq₂
    have hr₂ := blockWithin_complete hb hp₂ (d := d) (fun t ht => hf t (by simp [ht])) (by omega)
    have hr₃ := armsWithin_complete ha hp₃ (d := d) hg (fun t ht => hf t (by simp [ht])) (by omega)
    exact armsWithin_eq_ok.mpr
      (.inl ⟨hw, _, f₁, guarded_complete hc hp₁, _, f₂, hr₂, _, hr₃, rfl⟩)

theorem otherwiseWithin_complete {ts : List Token} {o : Option (List Node)} :
    Otherwise .window ts o → ∀ {f g : Feed} {d : ℕ}, f.Takes ts g → g.current.kind ≠ .elseWord →
    (∀ t ∈ ts, t.Faithful) → 4 * ts.length ≤ d → otherwiseWithin d f = .ok o g
  | .none, f, g, d, hp, hg, _, _ => by
    obtain rfl := hp
    exact otherwiseWithin_eq_ok.mpr (.inr ⟨hg, rfl, rfl⟩)
  | .some hw hb, f, g, d, hp, _, hf, hd => by
    simp only [List.length_cons] at hd
    obtain ⟨rfl, -, hq⟩ := hp
    have hr := blockWithin_complete hb hq (d := d) (fun t ht => hf t (by simp [ht])) (by omega)
    exact otherwiseWithin_eq_ok.mpr (.inl ⟨hw, _, hr, rfl⟩)

end

/-! ## Programs -/

theorem programWithin_eq_ok {d : ℕ} {ns : List Node} : programWithin (d + 1) f = .ok ns h ↔
    (f.current.kind = .endOfInput ∧ ns = [] ∧ h = f) ∨
    (f.current.kind ≠ .endOfInput ∧ ∃ n g, statement f = .ok n g ∧
      ∃ ms, programWithin d g = .ok ms h ∧ ns = n :: ms) := by
  simp [programWithin]

theorem program_eq_ok : program f = .ok n h ↔
    ∃ ns, programWithin (depthBound f) f = .ok ns h ∧ n = .program ns := by
  simp [program, statementsToEnd]

theorem programWithin_sound {d : ℕ} {ns : List Node} (hr : programWithin d f = .ok ns h) :
    h.current.kind = .endOfInput ∧ Derives f h (Statements .window · ns) := by
  induction d generalizing f ns with
  | zero => simp [programWithin] at hr
  | succ d ih =>
    obtain ⟨hk, rfl, rfl⟩ | ⟨-, n, g, hn, ms, hms, rfl⟩ := programWithin_eq_ok.mp hr
    · exact ⟨hk, [], rfl, Token.inside_nil, fun _ => .nil⟩
    · obtain ⟨ts, hp, hi, hts⟩ := statementWithin_sound _ hn
      obtain ⟨hk, us, hq, hj, hus⟩ := ih hms
      refine ⟨hk, ts ++ us, hp.append hq, by simp [hi, hj], fun hf => .cons (hts ?_) (hus ?_)⟩
      · exact fun t ht => hf t (List.mem_append_left us ht)
      · exact fun t ht => hf t (List.mem_append_right ts ht)

theorem programWithin_complete {ts : List Token} {ns : List Node} : Statements .window ts ns →
    ∀ {f g : Feed} {d : ℕ}, f.Takes ts g → g.current.kind = .endOfInput →
    (∀ t ∈ ts, t.Faithful) → ts.length < d → programWithin d f = .ok ns g
  | .nil, f, g, d, hp, hg, _, hd => by
    obtain ⟨d, rfl⟩ : ∃ d', d = d' + 1 := ⟨d - 1, by omega⟩
    obtain rfl := hp
    exact programWithin_eq_ok.mpr (.inl ⟨hg, rfl, rfl⟩)
  | @Statements.cons _ ts us n ns hn hns, f, g, d, hp, hg, hf, hd => by
    have hl := statement_length_pos hn
    simp only [List.length_append] at hd
    obtain ⟨d, rfl⟩ : ∃ d', d = d' + 1 := ⟨d - 1, by omega⟩
    obtain ⟨f₁, hp₁, hp₂⟩ := Feed.takes_append.mp hp
    have hlen := hp₁.length
    have hr₁ : statement f = .ok n f₁ := by
      refine statementWithin_complete hn hp₁ (fun t ht => hf t (by simp [ht])) ?_
      unfold depthBound
      omega
    have hr₂ := programWithin_complete hns hp₂ (d := d) hg (fun t ht => hf t (by simp [ht]))
      (by omega)
    have hk : f.current.kind ≠ .endOfInput := by
      have := kind_of_statementWithin hr₁
      simp_all
    exact programWithin_eq_ok.mpr (.inr ⟨hk, _, f₁, hr₁, _, hr₂, rfl⟩)

end Parse

namespace Feed

theorem next_of_rest {f : Feed} {t : Token} {ts : List Token} (h : f.rest = t :: ts) :
    f.next = ⟨t, ts, f.position + 1⟩ := by
  unfold next
  rw [h]

/-- All tokens but the last of a feed can be taken. -/
theorem exists_takes {f : Feed} {body : List Token} {last : Token}
    (h : f.current :: f.rest = body ++ [last]) : ∃ g, f.Takes body g ∧ g.current = last := by
  induction body generalizing f with
  | nil => exact ⟨f, rfl, (List.cons.inj h).1⟩
  | cons t body ih =>
    obtain ⟨ht, hr⟩ := List.cons.inj h
    obtain ⟨u, us, hu⟩ := List.exists_cons_of_ne_nil (List.append_ne_nil_of_right_ne_nil body
      (List.cons_ne_nil last []))
    have hn : f.next.current :: f.next.rest = body ++ [last] := by
      rw [next_of_rest (hr.trans hu), hu]
    obtain ⟨g, hg, hl⟩ := ih hn
    exact ⟨g, ⟨ht, by simp [hr], hg⟩, hl⟩

/-- What is taken up to a closing token is all that stands before it. -/
theorem eq_of_passes {f h : Feed} {ts body : List Token} {last : Token}
    (hf : f.current :: f.rest = body ++ [last]) (hb : Token.Inside body)
    (hl : last.kind = .endOfInput) (hp : f.Passes ts h) (hi : Token.Inside ts)
    (hh : h.current.kind = .endOfInput) : ts = body := by
  induction ts generalizing f body with
  | nil =>
    obtain rfl := hp
    cases body with
    | nil => rfl
    | cons t body =>
      obtain ⟨rfl, -⟩ := List.cons.inj hf
      exact absurd hh (Token.inside_cons.mp hb).1
  | cons t ts ih =>
    obtain ⟨ht, hp⟩ := hp
    obtain ⟨hk, hi⟩ := Token.inside_cons.mp hi
    cases body with
    | nil =>
      obtain ⟨rfl, -⟩ := List.cons.inj hf
      exact absurd hl (ht ▸ hk)
    | cons u body =>
      obtain ⟨hu, hr⟩ := List.cons.inj hf
      obtain ⟨v, vs, hv⟩ := List.exists_cons_of_ne_nil (List.append_ne_nil_of_right_ne_nil body
        (List.cons_ne_nil last []))
      have hn : f.next.current :: f.next.rest = body ++ [last] := by
        rw [next_of_rest (hr.trans hv), hv]
      rw [← ht, hu, ih hn (Token.inside_cons.mp hb).2 hp hi]

end Feed

theorem Node.ofTokens_cons_eq_ok {first : Token} {rest : List Token} {tree : Node} :
    Node.ofTokens (first :: rest) = .ok tree ↔
      ∃ h, Parse.program ⟨first, rest, 0⟩ = .ok tree h := by
  simp only [Node.ofTokens, Feed.ofTokens?]
  cases Parse.program ⟨first, rest, 0⟩ <;> simp

theorem ofText_of_ofTokens {source : String} {tokens : List Token} {tree : Node}
    (ht : Token.ofText source = .ok tokens) (hn : Node.ofTokens tokens = .ok tree) :
    Node.ofText source = .ok tree := by
  unfold Node.ofText
  rw [ht]
  simp only [hn]

theorem exists_ofTokens_of_ofText {source : String} {tree : Node}
    (h : Node.ofText source = .ok tree) :
    ∃ tokens, Token.ofText source = .ok tokens ∧ Node.ofTokens tokens = .ok tree := by
  unfold Node.ofText at h
  cases ht : Token.ofText source with
  | error e => simp [ht] at h
  | ok tokens =>
    cases hn : Node.ofTokens tokens with
    | error e => simp [ht, hn] at h
    | ok node =>
      obtain rfl : node = tree := by simpa [ht, hn] using h
      exact ⟨tokens, rfl, hn⟩

open Grammar Parse

theorem derived_of_ofTokens {tokens : List Token} (hl : Token.Lexed tokens) {tree : Node}
    (hr : Node.ofTokens tokens = .ok tree) :
    ∃ ns, tree = .program ns ∧ Statements .window tokens.dropLast ns := by
  obtain ⟨body, last, rfl, hk, hf⟩ := hl
  have hin : Token.Inside body := fun t ht => (hf t ht).kind_ne_endOfInput
  obtain ⟨first, rest, hfr⟩ := List.exists_cons_of_ne_nil (List.append_ne_nil_of_right_ne_nil body
    (List.cons_ne_nil last []))
  rw [hfr, Node.ofTokens_cons_eq_ok] at hr
  obtain ⟨h, hr⟩ := hr
  obtain ⟨ns, hns, rfl⟩ := program_eq_ok.mp hr
  obtain ⟨hh, ts, hp, hi, hts⟩ := programWithin_sound hns
  obtain rfl := Feed.eq_of_passes hfr.symm hin hk hp hi hh
  exact ⟨ns, rfl, by simpa using hts hf⟩

theorem ofTokens_of_derived {tokens : List Token} (hl : Token.Lexed tokens) {ns : List Node}
    (hns : Statements .window tokens.dropLast ns) : Node.ofTokens tokens = .ok (.program ns) := by
  obtain ⟨body, last, rfl, hk, hf⟩ := hl
  obtain ⟨first, rest, hfr⟩ := List.exists_cons_of_ne_nil (List.append_ne_nil_of_right_ne_nil body
    (List.cons_ne_nil last []))
  rw [List.dropLast_concat] at hns
  rw [hfr, Node.ofTokens_cons_eq_ok]
  obtain ⟨g, hp, rfl⟩ := Feed.exists_takes (f := ⟨first, rest, 0⟩) hfr.symm
  have hlen := hp.length
  refine ⟨g, program_eq_ok.mpr ⟨ns, programWithin_complete hns hp hk hf ?_, rfl⟩⟩
  unfold depthBound
  omega

/-- Reading the tokens of a text gives a tree exactly when the grammar derives it from the tokens
before the closing one. -/
theorem ofTokens_eq_ok_iff_derived {tokens : List Token} (hl : Token.Lexed tokens) {tree : Node} :
    Node.ofTokens tokens = .ok tree ↔
      ∃ ns, tree = .program ns ∧ Statements .window tokens.dropLast ns := by
  constructor
  · exact derived_of_ofTokens hl
  · rintro ⟨ns, rfl, hns⟩
    exact ofTokens_of_derived hl hns

/-- A branch with two conditions, whose second block computes and assigns. -/
theorem ofTokens_branch_derived :
    let tokens : List Token := [⟨.ifWord, "if", 1, 1⟩, ⟨.leftParen, "(", 1, 4⟩,
      ⟨.identifier, "a", 1, 5⟩, ⟨.less, "<", 1, 7⟩, ⟨.number, .int 1, 1, 9⟩,
      ⟨.rightParen, ")", 1, 10⟩, ⟨.leftBrace, "\x7b", 1, 12⟩, ⟨.rightBrace, "\x7d", 1, 13⟩,
      ⟨.elifWord, "elif", 1, 15⟩, ⟨.leftParen, "(", 1, 20⟩, ⟨.boolValue, "true", 1, 21⟩,
      ⟨.rightParen, ")", 1, 25⟩, ⟨.leftBrace, "\x7b", 1, 27⟩, ⟨.identifier, "a", 1, 29⟩,
      ⟨.minusEqual, "-=", 1, 31⟩, ⟨.number, .int 1, 1, 34⟩, ⟨.minus, "-", 1, 36⟩,
      ⟨.number, .int 2, 1, 38⟩, ⟨.semicolon, ";", 1, 39⟩, ⟨.rightBrace, "\x7d", 1, 41⟩,
      ⟨.semicolon, ";", 1, 42⟩, ⟨.endOfInput, .absent, 1, 42⟩]
    let tree : Node := .program [.branch (.binary (.variable "a") .less (.number (.int 1))) []
      [(.truth "true", [.assign "a" (.binary (.variable "a") .minus
        (.binary (.number (.int 1)) .minus (.number (.int 2))))])] none]
    Token.Lexed tokens ∧ Node.ofTokens tokens = .ok tree ∧
      ∃ ns, tree = .program ns ∧ Statements .window tokens.dropLast ns := by
  intro tokens tree
  have hname : IsName "a" := ⟨⟨'a', [], rfl, by decide, by simp⟩, by decide⟩
  have hl : Token.Lexed tokens := by
    refine ⟨tokens.dropLast, ⟨.endOfInput, .absent, 1, 42⟩, rfl, rfl, ?_⟩
    simp only [tokens, List.dropLast, List.forall_mem_cons, List.not_mem_nil, false_implies,
      implies_true, and_true]
    exact ⟨.keyword (by decide), .sign rfl, .name hname, .sign rfl, .integer 1, .sign rfl,
      .sign rfl, .sign rfl, .keyword (by decide), .sign rfl, .keyword (by decide), .sign rfl,
      .sign rfl, .name hname, .sign rfl, .integer 1, .sign rfl, .integer 2, .sign rfl, .sign rfl,
      .sign rfl⟩
  have hr : Node.ofTokens tokens = .ok tree := rfl
  exact ⟨hl, hr, (ofTokens_eq_ok_iff_derived hl).mp hr⟩

/-- Where all names are alike, the grammar derives an assignment to the width of the window. It is
not read. -/
theorem ofTokens_window_assignment :
    let name : Token := ⟨.identifier, "windowWidth", 1, 1⟩
    let tokens : List Token := [name, ⟨.assign, "=", 1, 13⟩, ⟨.number, .int 5, 1, 15⟩,
      ⟨.semicolon, ";", 1, 16⟩, ⟨.endOfInput, .absent, 1, 16⟩]
    Token.Lexed tokens ∧
      Statements .free tokens.dropLast [.assign "windowWidth" (.number (.int 5))] ∧
      Node.ofTokens tokens = .error (.found name .windowReassigned) := by
  intro name tokens
  have hname : IsName "windowWidth" :=
    ⟨⟨'w', ['i', 'n', 'd', 'o', 'w', 'W', 'i', 'd', 't', 'h'], rfl, by decide,
      by simp [isWordChar, Text.isLetter]⟩, by decide⟩
  refine ⟨⟨tokens.dropLast, ⟨.endOfInput, .absent, 1, 16⟩, rfl, rfl, ?_⟩, ?_, rfl⟩
  · simp only [tokens, name, List.dropLast, List.forall_mem_cons, List.not_mem_nil, false_implies,
      implies_true, and_true]
    exact ⟨.name hname, .sign rfl, .integer 5, .sign rfl⟩
  · have hn : Sum [⟨.number, .int 5, 1, 15⟩] (.number (.int 5)) := .product (.factor (.number rfl))
    have ha : Assignment [name, ⟨.assign, "=", 1, 13⟩, ⟨.number, .int 5, 1, 15⟩]
        (.assign "windowWidth" (.number (.int 5))) := .plain rfl rfl hn
    exact .cons (.assignment ha trivial rfl) .nil

end DrawPlus
