import DrawPlus.Proofs.Parsing.Expressions

/-!
# Reading statements by the grammar

The rules for statements, from conditions to whole programs, in the same two directions as those
for expressions. Statements that call a method need tokens that carry what they were read from:
whether a call draws is decided by the spelling of the method, and the grammar goes by its kind.
-/

namespace DrawPlus

variable {n : Node} {d : ℕ} {ns : List Node}

/-! ## Derived tokens hold no closing token -/

namespace Grammar

theorem Condition.inside {ts : List Token} {n : Node} (h : Condition ts n) : Token.Inside ts := by
  cases h with
  | sum hn => exact hn.inside
  | comparison hl hop hr =>
    have hk : Kind.endOfInput.isComparison = false := rfl
    simp only [Token.inside_append, Token.inside_cons]
    exact ⟨hl.inside, fun heq => by simp [heq, hk] at hop, hr.inside⟩

theorem Guarded.inside {ts : List Token} {n : Node} (h : Guarded ts n) : Token.Inside ts := by
  obtain ⟨ha, hn, hz⟩ := h
  simp [ha, hn.inside, hz]

theorem Assignment.inside {ts : List Token} {n : Node} (h : Assignment ts n) : Token.Inside ts := by
  cases h with
  | plain hx ha hn => simp [hx, ha, hn.inside]
  | compound hx ha hn =>
    have hk : ∀ {op}, ¬Compound .endOfInput op := by
      rintro op ⟨⟩
    simp only [Token.inside_cons]
    exact ⟨by simp [hx], fun heq => hk (heq ▸ ha), hn.inside⟩

theorem Listed.inside {ts : List Token} {ns : List Node} (h : Listed ts ns) : Token.Inside ts := by
  induction h with
  | one hn => exact hn.inside
  | more hn hc _ ih => simp [hn.inside, hc, ih]

theorem Arguments.inside {ts : List Token} {ns : List Node} (h : Arguments ts ns) :
    Token.Inside ts := by
  cases h with
  | none => simp
  | some hl => exact hl.inside

theorem Declaration.inside {R : NameRule} {ts : List Token} {n : Node} (h : Declaration R ts n) :
    Token.Inside ts := by
  obtain ⟨hv, ht, hx, ha, hn, -, hz⟩ := h
  simp [hv, kind_ne_endOfInput ht, hx, ha, hn.inside, hz]

theorem Creation.inside {ts : List Token} {n : Node} (h : Creation ts n) : Token.Inside ts := by
  obtain ⟨hw, hx, ha, hk, hp, hm, hc, hn, hq, hz⟩ := h
  simp [hw, hx, ha, hk, hp, hm.inside, hc, hn.inside, hq, hz]

theorem Start.inside {R : NameRule} {ts : List Token} {n : Node} (h : Start R ts n) :
    Token.Inside ts := by
  cases h with
  | declaration hd => exact hd.inside
  | assignment ha hz => simp [ha.inside, hz]

end Grammar

namespace Parse

open Grammar

variable {f g h : Feed}

/-! ## Formulas for the rules without a body -/

theorem condition_eq_ok : condition f = .ok n h ↔ ∃ l g, sum f = .ok l g ∧
    ((g.current.kind.isComparison = true ∧
      ∃ r, sum g.next = .ok r h ∧ n = .binary l g.current.kind r) ∨
    (g.current.kind.isComparison = false ∧ n = l ∧ h = g)) := by
  simp [condition, and_assoc]

theorem guarded_eq_ok : guarded f = .ok n h ↔ f.current.kind = .leftParen ∧
    ∃ g, condition f.next = .ok n g ∧ g.current.kind = .rightParen ∧ h = g.next := by
  simp [guarded, and_assoc, and_comm]

theorem compoundOperator?_eq_some {k op : Kind} :
    compoundOperator? k = some op ↔ Compound k op := by
  constructor
  · intro h
    unfold compoundOperator? at h
    split at h <;> cases h <;> constructor
  · rintro (_ | _ | _ | _) <;> rfl

/-- An assignment ends in a semicolon where one is asked for. -/
def Closes (withSemicolon : Bool) (g h : Feed) : Prop :=
  if withSemicolon then g.current.kind = .semicolon ∧ h = g.next else h = g

theorem closing_eq_ok {b : Bool} {m : Node} : (if b = true then (do eat .semicolon; pure m)
    else pure m : Parse Node) g = .ok n h ↔ Closes b g h ∧ n = m := by
  cases b <;> simp [Closes, and_comm]

theorem assignment_eq_ok {name : Value} {b : Bool} :
    assignment name b f = .ok n h ↔ ∃ r g, sum f.next = .ok r g ∧ Closes b g h ∧
    ((∃ op, Compound f.current.kind op ∧
        n = .assign name (.binary (.variable name) op r)) ∨
      (f.current.kind = .assign ∧ n = .assign name r)) := by
  unfold assignment
  simp only [bind_eq_ok, current_eq_ok, and_assoc, exists_and_left, exists_eq_left]
  cases hop : compoundOperator? f.current.kind with
  | some op =>
    have hc := compoundOperator?_eq_some.mp hop
    simp only [bind_eq_ok, eat_eq_ok, pure_eq_ok, closing_eq_ok, and_assoc, exists_and_left,
      exists_eq_left, exists_const, true_and]
    constructor
    · rintro ⟨r, g, hr, hz, hn⟩
      exact ⟨r, g, hr, hz, .inl ⟨op, hc, hn⟩⟩
    · rintro ⟨r, g, hr, hz, ⟨op', hc', hn⟩ | ⟨hk, -⟩⟩
      · rw [compoundOperator?_eq_some.mpr hc'] at hop
        cases hop
        exact ⟨r, g, hr, hz, hn⟩
      · rw [hk] at hc
        cases hc
  | none =>
    simp only [bind_eq_ok, eat_eq_ok, closing_eq_ok, and_assoc, exists_and_left,
      exists_eq_left, exists_const]
    constructor
    · rintro ⟨hk, r, g, hr, hz, hn⟩
      exact ⟨r, g, hr, hz, .inr ⟨hk, hn⟩⟩
    · rintro ⟨r, g, hr, hz, ⟨op, hc, -⟩ | ⟨hk, hn⟩⟩
      · rw [compoundOperator?_eq_some.mpr hc] at hop
        cases hop
      · exact ⟨hk, r, g, hr, hz, hn⟩

theorem argumentTail_eq_ok : argumentTail (d + 1) f = .ok ns h ↔
    (f.current.kind = .comma ∧ ∃ a g, sum f.next = .ok a g ∧
      ∃ as, argumentTail d g = .ok as h ∧ ns = a :: as) ∨
    (f.current.kind ≠ .comma ∧ ns = [] ∧ h = f) := by
  simp [argumentTail]

theorem arguments_eq_ok {ns : List Node} : arguments f = .ok ns h ↔
    (f.current.kind = .rightParen ∧ ns = [] ∧ h = f) ∨
    (f.current.kind ≠ .rightParen ∧ ∃ a g, sum f = .ok a g ∧
      ∃ as, argumentTail (depthBound g) g = .ok as h ∧ ns = a :: as) := by
  simp [arguments, furtherArguments]

/-- The tree of a method call: methods whose name begins with `draw_` draw. -/
def callNode (cursor : Value) (method : String) (given : List Node) : Node :=
  if "draw_".toList.isPrefixOf method.toList then .drawCommand cursor method given
  else .cursorMethod cursor method given

theorem methodCall_eq_ok {c m : Value} : methodCall c m f = .ok n h ↔
    f.current.kind = .leftParen ∧ ∃ ns g, arguments f.next = .ok ns g ∧
      g.current.kind = .rightParen ∧ g.next.current.kind = .semicolon ∧
      h = g.next.next ∧ ∃ w, m = .text w ∧ n = callNode c w ns := by
  cases m with
  | text w =>
    have hcall (ns : List Node) : (if "draw_".toList.isPrefixOf w.toList then
        pure (.drawCommand c w ns) else pure (.cursorMethod c w ns) : Parse Node) =
          pure (callNode c w ns) := by
      unfold callNode
      split_ifs <;> rfl
    simp only [methodCall, hcall]
    simp [and_assoc]
  | _ => simp [methodCall]

theorem isWindowDimension_eq_true {name : Value} :
    isWindowDimension name = true ↔ NameRule.IsWindow name := by
  simp [isWindowDimension, NameRule.IsWindow]

theorem named_eq_ok : named f = .ok n h ↔
    ¬NameRule.IsWindow f.current.value ∧ f.current.kind = .identifier ∧
    ((f.next.current.kind = .dot ∧ isMethod f.next.next.current.kind = true ∧
      methodCall f.current.value f.next.next.current.value f.next.next.next = .ok n h) ∨
    (f.next.current.kind ≠ .dot ∧ isAssignment f.next.current.kind = true ∧
      assignment f.current.value true f.next = .ok n h)) := by
  simp [named, isWindowDimension_eq_true]

theorem cursorCreation_eq_ok : cursorCreation f = .ok n h ↔
    f.current.kind = .cursor ∧ f.next.current.kind = .identifier ∧
    f.next.next.current.kind = .assign ∧ f.next.next.next.current.kind = .createCursor ∧
    f.next.next.next.next.current.kind = .leftParen ∧
    ∃ x g₁, sum f.next.next.next.next.next = .ok x g₁ ∧ g₁.current.kind = .comma ∧
    ∃ y g₂, sum g₁.next = .ok y g₂ ∧ g₂.current.kind = .rightParen ∧
      g₂.next.current.kind = .semicolon ∧
      n = .cursorCreation f.next.current.value x y ∧ h = g₂.next.next := by
  simp [cursorCreation, and_assoc, and_comm]

theorem checkWindow_eq_ok {type : Kind} {init : Node} {u : Unit} :
    checkWindow type init f = .ok u g ↔ (type = .int ∧ ∀ v, init = .number v →
      v.below? 340 = some false ∧ v.above? 1000 = some false) ∧ g = f := by
  unfold checkWindow
  cases init with
  | number v =>
    cases hl : v.below? 340 with
    | none => simp [hl]
    | some low =>
      cases hh : v.above? 1000 with
      | none => simp [hl, hh]
      | some high => cases low <;> cases high <;> simp [hl, hh]
  | _ => simp

theorem declaration_eq_ok : declaration f = .ok n h ↔
    f.current.kind = .var ∧ f.next.current.kind ∈ [Kind.int, .float, .bool, .color] ∧
    f.next.next.current.kind = .identifier ∧ f.next.next.next.current.kind = .assign ∧
    ∃ e g, sum f.next.next.next.next = .ok e g ∧
      NameRule.window.declares f.next.current.kind f.next.next.current.value e ∧
      g.current.kind = .semicolon ∧
      n = .varDecl (some f.next.current.kind) f.next.next.current.value e ∧ h = g.next := by
  simp only [declaration, bind_eq_ok, eat_eq_ok, current_eq_ok, ite_eq_ok, complain_ne_ok,
    pure_eq_ok, not_not, false_and, and_false, false_or, exists_false, and_assoc, exists_and_left,
    exists_eq_left, exists_const, isWindowDimension_eq_true, checkWindow_eq_ok, true_and]
  constructor
  · rintro ⟨hv, ht, hx, ha, e, g, he, ⟨hw, hi, hr, hz, hn, hh⟩ | ⟨hw, hz, hn, hh⟩⟩
    · exact ⟨hv, ht, hx, ha, e, g, he, fun _ => ⟨hi, hr⟩, hz, hn, hh⟩
    · exact ⟨hv, ht, hx, ha, e, g, he, fun hw' => absurd hw' hw, hz, hn, hh⟩
  · rintro ⟨hv, ht, hx, ha, e, g, he, hd, hz, hn, hh⟩
    by_cases hw : NameRule.IsWindow f.next.next.current.value
    · exact ⟨hv, ht, hx, ha, e, g, he, .inl ⟨hw, (hd hw).1, (hd hw).2, hz, hn, hh⟩⟩
    · exact ⟨hv, ht, hx, ha, e, g, he, .inr ⟨hw, hz, hn, hh⟩⟩

theorem loopStart_eq_ok : loopStart f = .ok n h ↔
    (f.current.kind = .var ∧ declaration f = .ok n h) ∨
    (f.current.kind = .identifier ∧ assignment f.current.value true f.next = .ok n h) := by
  simp only [loopStart, bind_eq_ok, current_eq_ok, ite_eq_ok, eat_eq_ok, and_assoc,
    exists_and_left, exists_eq_left, exists_const]
  constructor
  · rintro (hd | ⟨-, hk, ha⟩)
    · exact .inl hd
    · exact .inr ⟨hk, ha⟩
  · rintro (hd | ⟨hk, ha⟩)
    · exact .inl hd
    · exact .inr ⟨by simp [hk], hk, ha⟩

theorem loopStep_eq_ok : loopStep f = .ok n h ↔
    f.current.kind = .identifier ∧ assignment f.current.value false f.next = .ok n h := by
  simp [loopStep]

/-! ## From rules without a body to the grammar -/

theorem condition_sound (hn : condition f = .ok n h) : ∃ ts, Condition ts n ∧ f.Passes ts h := by
  obtain ⟨l, g, hl, ⟨hk, r, hr, rfl⟩ | ⟨-, rfl, rfl⟩⟩ := condition_eq_ok.mp hn
  · obtain ⟨ts, hts, hp⟩ := sum_sound hl
    obtain ⟨us, hus, hq⟩ := sum_sound hr
    exact ⟨_, .comparison hts hk hus, hp.append ⟨rfl, hq⟩⟩
  · obtain ⟨ts, hts, hp⟩ := sum_sound hl
    exact ⟨ts, .sum hts, hp⟩

theorem guarded_sound (hr : guarded f = .ok n h) : ∃ ts, Guarded ts n ∧ f.Passes ts h := by
  obtain ⟨ha, g, hn, hz, rfl⟩ := guarded_eq_ok.mp hr
  obtain ⟨ts, hts, hp⟩ := condition_sound hn
  exact ⟨_, .intro ha hts hz, rfl, hp.append g.passes_current⟩

theorem assignment_sound {x : Token} {b : Bool} (hx : x.kind = .identifier)
    (hr : assignment x.value b f = .ok n h) :
    ∃ ts g, Assignment (x :: ts) n ∧ f.Passes ts g ∧ Closes b g h := by
  obtain ⟨r, g, hs, hz, ⟨op, hc, rfl⟩ | ⟨hk, rfl⟩⟩ := assignment_eq_ok.mp hr
  · obtain ⟨ts, hts, hp⟩ := sum_sound hs
    exact ⟨_, g, .compound hx hc hts, ⟨rfl, hp⟩, hz⟩
  · obtain ⟨ts, hts, hp⟩ := sum_sound hs
    exact ⟨_, g, .plain hx hk hts, ⟨rfl, hp⟩, hz⟩

theorem argumentTail_sound (hr : argumentTail d f = .ok ns h) {ts : List Token} (hn : Sum ts n) :
    ∃ us, Listed (ts ++ us) (n :: ns) ∧ f.Passes us h := by
  induction d generalizing f n ts ns with
  | zero => simp [argumentTail] at hr
  | succ d ih =>
    obtain ⟨hk, a, g, ha, as, has, rfl⟩ | ⟨-, rfl, rfl⟩ := argumentTail_eq_ok.mp hr
    · obtain ⟨us, hus, hp⟩ := sum_sound ha
      obtain ⟨vs, hvs, hq⟩ := ih has hus
      exact ⟨f.current :: (us ++ vs), .more hn hk hvs, rfl, hp.append hq⟩
    · exact ⟨[], by simpa using Listed.one hn, rfl⟩

theorem arguments_sound (hr : arguments f = .ok ns h) : ∃ ts, Arguments ts ns ∧ f.Passes ts h := by
  obtain ⟨-, rfl, rfl⟩ | ⟨-, a, g, ha, as, has, rfl⟩ := arguments_eq_ok.mp hr
  · exact ⟨[], .none, rfl⟩
  · obtain ⟨ts, hts, hp⟩ := sum_sound ha
    obtain ⟨us, hus, hq⟩ := argumentTail_sound has hts
    exact ⟨ts ++ us, .some hus, hp.append hq⟩

theorem isMethod_eq_true {k : Kind} : isMethod k = true ↔ k ∈ drawing ∨ k ∈ changing := by
  simp [isMethod, drawing, changing]
  tauto

theorem spelling_of_drawing : ∀ e ∈ keywords, e.2 ∈ drawing →
    "draw_".toList.isPrefixOf e.1.toList = true := by
  decide

theorem spelling_of_changing : ∀ e ∈ keywords, e.2 ∈ changing →
    "draw_".toList.isPrefixOf e.1.toList = false := by
  decide

/-- A token of a kind that names a method is a keyword. -/
theorem keyword_of_method {m : Token} (hm : m.Faithful) (hk : m.kind ∈ drawing ++ changing) :
    ∃ w, m.value = .text w ∧ (w, m.kind) ∈ keywords := by
  cases hm with
  | keyword hw => exact ⟨_, rfl, hw⟩
  | sign hs =>
    simp only [drawing, changing, List.cons_append, List.nil_append, List.mem_cons,
      List.not_mem_nil, or_false] at hk
    rcases hk with rfl | rfl | rfl | rfl | rfl | rfl | rfl | rfl | rfl | rfl <;> cases hs
  | name | integer | decimal => simp [drawing, changing] at hk

theorem callNode_of_drawing {m : Token} (hm : m.Faithful) (hk : m.kind ∈ drawing) :
    ∃ w, m.value = .text w ∧ ∀ c ns, callNode c w ns = .drawCommand c m.value ns := by
  obtain ⟨w, hw, hmem⟩ := keyword_of_method hm (List.mem_append_left _ hk)
  refine ⟨w, hw, fun c ns => ?_⟩
  rw [callNode, if_pos (spelling_of_drawing _ hmem hk), hw]

theorem callNode_of_changing {m : Token} (hm : m.Faithful) (hk : m.kind ∈ changing) :
    ∃ w, m.value = .text w ∧ ∀ c ns, callNode c w ns = .cursorMethod c m.value ns := by
  obtain ⟨w, hw, hmem⟩ := keyword_of_method hm (List.mem_append_right _ hk)
  refine ⟨w, hw, fun c ns => ?_⟩
  rw [callNode, if_neg (by rw [spelling_of_changing _ hmem hk]; simp), hw]

theorem declaration_sound (hr : declaration f = .ok n h) :
    ∃ ts, Declaration .window ts n ∧ f.Passes ts h := by
  obtain ⟨hv, ht, hx, ha, e, g, he, hd, hz, rfl, rfl⟩ := declaration_eq_ok.mp hr
  obtain ⟨ts, hts, hp⟩ := sum_sound he
  exact ⟨_, .intro hv ht hx ha hts hd hz, rfl, rfl, rfl, rfl, hp.append g.passes_current⟩

theorem cursorCreation_sound (hr : cursorCreation f = .ok n h) :
    ∃ ts, Creation ts n ∧ f.Passes ts h := by
  obtain ⟨hw, hx, ha, hk, hl, x, g₁, h₁, hc, y, g₂, h₂, hq, hz, rfl, rfl⟩ :=
    cursorCreation_eq_ok.mp hr
  obtain ⟨us, hus, hp₁⟩ := sum_sound h₁
  obtain ⟨vs, hvs, hp₂⟩ := sum_sound h₂
  refine ⟨_, .intro hw hx ha hk hl hus hc hvs hq hz, rfl, rfl, rfl, rfl, rfl, ?_⟩
  exact hp₁.append ⟨rfl, hp₂.append ⟨rfl, rfl, rfl⟩⟩

/-- What is taken between two feeds has no closing token, and it is derived if its tokens carry what
they were read from. -/
def Derives (f g : Feed) (rule : List Token → Prop) : Prop :=
  ∃ ts, f.Passes ts g ∧ Token.Inside ts ∧ ((∀ t ∈ ts, t.Faithful) → rule ts)

theorem named_sound (hr : named f = .ok n h) : Derives f h (Statement .window · n) := by
  obtain ⟨hw, hx, ⟨hd, hm, hc⟩ | ⟨-, -, ha⟩⟩ := named_eq_ok.mp hr
  · obtain ⟨hl, ns, g, hns, hq, hz, rfl, w, hv, rfl⟩ := methodCall_eq_ok.mp hc
    obtain ⟨ts, hts, hp⟩ := arguments_sound hns
    have hk := isMethod_eq_true.mp hm
    have hin : f.next.next.current.kind ≠ .endOfInput :=
      kind_ne_endOfInput (List.mem_append.mpr hk) (by decide)
    refine ⟨_ :: _ :: _ :: _ :: (ts ++ [_, _]), ⟨rfl, rfl, rfl, rfl, hp.append ⟨rfl, rfl, rfl⟩⟩,
      by simp [hx, hd, hin, hl, hts.inside, hq, hz], ?_⟩
    intro hts'
    have hfm : f.next.next.current.Faithful := hts' _ (by simp)
    rcases hk with hk | hk
    · obtain ⟨w', hw', hcall⟩ := callNode_of_drawing hfm hk
      obtain rfl : w = w' := by simpa [hv] using hw'
      rw [hcall]
      exact .call (.draw hx hd hk hl hts hq hz) hw
    · obtain ⟨w', hw', hcall⟩ := callNode_of_changing hfm hk
      obtain rfl : w = w' := by simpa [hv] using hw'
      rw [hcall]
      exact .call (.change hx hd hk hl hts hq hz) hw
  · obtain ⟨ts, g, hts, hp, hz, rfl⟩ := assignment_sound hx ha
    have hin := hts.inside
    exact ⟨f.current :: (ts ++ [g.current]), ⟨rfl, hp.append g.passes_current⟩,
      by simp_all, fun _ => .assignment hts hw hz⟩

theorem loopStart_sound (hr : loopStart f = .ok n h) :
    ∃ ts, Start .window ts n ∧ f.Passes ts h := by
  obtain ⟨-, hd⟩ | ⟨hx, ha⟩ := loopStart_eq_ok.mp hr
  · obtain ⟨ts, hts, hp⟩ := declaration_sound hd
    exact ⟨ts, .declaration hts, hp⟩
  · obtain ⟨ts, g, hts, hp, hz, rfl⟩ := assignment_sound hx ha
    exact ⟨_, .assignment hts hz, rfl, hp.append g.passes_current⟩

theorem loopStep_sound (hr : loopStep f = .ok n h) : ∃ ts, Assignment ts n ∧ f.Passes ts h := by
  obtain ⟨hx, ha⟩ := loopStep_eq_ok.mp hr
  obtain ⟨ts, g, hts, hp, rfl⟩ := assignment_sound hx ha
  exact ⟨_, hts, rfl, hp⟩

/-! ## Formulas for the rules with a body -/

theorem statementWithin_eq_ok : statementWithin (d + 1) f = .ok n h ↔
    (f.current.kind = .var ∧ declaration f = .ok n h) ∨
    (f.current.kind = .cursor ∧ cursorCreation f = .ok n h) ∨
    (f.current.kind = .identifier ∧ named f = .ok n h) ∨
    (f.current.kind = .ifWord ∧ branchWithin d f = .ok n h) ∨
    (f.current.kind = .forWord ∧ forLoopWithin d f = .ok n h) ∨
    (f.current.kind = .whileWord ∧ whileLoopWithin d f = .ok n h) := by
  constructor
  · intro hr
    rw [statementWithin, bind_eq_ok] at hr
    obtain ⟨t, f', hf, hr⟩ := hr
    obtain ⟨rfl, rfl⟩ := current_eq_ok.mp hf
    cases hk : f'.current.kind with
    | var | cursor | identifier | ifWord | forWord | whileWord =>
      rw [hk] at hr
      simpa [hk] using hr
    | _ =>
      rw [hk] at hr
      exact absurd hr complain_ne_ok
  · rintro (⟨hk, hr⟩ | ⟨hk, hr⟩ | ⟨hk, hr⟩ | ⟨hk, hr⟩ | ⟨hk, hr⟩ | ⟨hk, hr⟩) <;>
      simpa [statementWithin, hk] using hr

theorem statementsWithin_eq_ok : statementsWithin (d + 1) f = .ok ns h ↔
    (f.current.kind = .rightBrace ∧ ns = [] ∧ h = f) ∨
    (f.current.kind ≠ .rightBrace ∧ ∃ n g, statementWithin d f = .ok n g ∧
      ∃ ms, statementsWithin d g = .ok ms h ∧ ns = n :: ms) := by
  simp [statementsWithin]

theorem blockWithin_eq_ok : blockWithin (d + 1) f = .ok ns h ↔
    f.current.kind = .leftBrace ∧ ∃ g, statementsWithin d f.next = .ok ns g ∧
      g.current.kind = .rightBrace ∧ h = g.next := by
  simp [blockWithin, and_assoc, and_comm]

theorem armsWithin_eq_ok {as : List (Node × List Node)} : armsWithin (d + 1) f = .ok as h ↔
    (f.current.kind = .elifWord ∧ ∃ test g₁, guarded f.next = .ok test g₁ ∧
      ∃ body g₂, blockWithin d g₁ = .ok body g₂ ∧
      ∃ rest, armsWithin d g₂ = .ok rest h ∧ as = (test, body) :: rest) ∨
    (f.current.kind ≠ .elifWord ∧ as = [] ∧ h = f) := by
  simp [armsWithin]

/-- The part of a branch for when no condition holds. -/
def otherwiseWithin (d : ℕ) : Parse (Option (List Node)) := do
  if (← current).kind = .elseWord then
    eat .elseWord
    let block ← blockWithin d
    return some block
  else return none

theorem otherwiseWithin_eq_ok {o : Option (List Node)} : otherwiseWithin d f = .ok o h ↔
    (f.current.kind = .elseWord ∧ ∃ block, blockWithin d f.next = .ok block h ∧ o = some block) ∨
    (f.current.kind ≠ .elseWord ∧ o = none ∧ h = f) := by
  simp [otherwiseWithin]

theorem branchWithin_eq_ok : branchWithin (d + 1) f = .ok n h ↔
    f.current.kind = .ifWord ∧ ∃ test g₁, guarded f.next = .ok test g₁ ∧
      ∃ body g₂, blockWithin d g₁ = .ok body g₂ ∧
      ∃ arms g₃, armsWithin d g₂ = .ok arms g₃ ∧
      ∃ otherwise g₄, otherwiseWithin d g₃ = .ok otherwise g₄ ∧ g₄.current.kind = .semicolon ∧
      h = g₄.next ∧ n = .branch test body arms otherwise := by
  change (do
    eat .ifWord
    let test ← guarded
    let body ← blockWithin d
    let arms ← armsWithin d
    let otherwise ← otherwiseWithin d
    eat .semicolon
    return .branch test body arms otherwise : Parse Node) f = .ok n h ↔ _
  simp [and_assoc]

theorem forLoopWithin_eq_ok : forLoopWithin (d + 1) f = .ok n h ↔
    f.current.kind = .forWord ∧ f.next.current.kind = .leftParen ∧
      ∃ init g₁, loopStart f.next.next = .ok init g₁ ∧
      ∃ test g₂, condition g₁ = .ok test g₂ ∧ g₂.current.kind = .semicolon ∧
      ∃ update g₃, loopStep g₂.next = .ok update g₃ ∧ g₃.current.kind = .rightParen ∧
      ∃ body g₄, blockWithin d g₃.next = .ok body g₄ ∧ g₄.current.kind = .semicolon ∧
      h = g₄.next ∧ n = .forLoop init test update body := by
  simp [forLoopWithin, and_assoc]

theorem whileLoopWithin_eq_ok : whileLoopWithin (d + 1) f = .ok n h ↔
    f.current.kind = .whileWord ∧ ∃ test g₁, guarded f.next = .ok test g₁ ∧
      ∃ body g₂, blockWithin d g₁ = .ok body g₂ ∧ g₂.current.kind = .semicolon ∧
      h = g₂.next ∧ n = .whileLoop test body := by
  simp [whileLoopWithin, and_assoc]

/-! ## From rules with a body to the grammar -/

mutual

theorem statementWithin_sound : ∀ (d : ℕ) {f h : Feed} {n : Node},
    statementWithin d f = .ok n h → Derives f h (Statement .window · n)
  | 0, _, _, _, hr => by simp [statementWithin] at hr
  | d + 1, f, h, n, hr => by
    obtain ⟨-, hs⟩ | ⟨-, hs⟩ | ⟨-, hs⟩ | ⟨-, hs⟩ | ⟨-, hs⟩ | ⟨-, hs⟩ := statementWithin_eq_ok.mp hr
    · obtain ⟨ts, hts, hp⟩ := declaration_sound hs
      exact ⟨ts, hp, hts.inside, fun _ => .declaration hts⟩
    · obtain ⟨ts, hts, hp⟩ := cursorCreation_sound hs
      exact ⟨ts, hp, hts.inside, fun _ => .creation hts⟩
    · exact named_sound hs
    · exact branchWithin_sound d hs
    · exact forLoopWithin_sound d hs
    · exact whileLoopWithin_sound d hs

theorem statementsWithin_sound : ∀ (d : ℕ) {f h : Feed} {ns : List Node},
    statementsWithin d f = .ok ns h → Derives f h (Statements .window · ns)
  | 0, _, _, _, hr => by simp [statementsWithin] at hr
  | d + 1, f, h, ns, hr => by
    obtain ⟨-, rfl, rfl⟩ | ⟨-, n, g, hn, ms, hms, rfl⟩ := statementsWithin_eq_ok.mp hr
    · exact ⟨[], rfl, Token.inside_nil, fun _ => .nil⟩
    · obtain ⟨ts, hp, hi, hts⟩ := statementWithin_sound d hn
      obtain ⟨us, hq, hj, hus⟩ := statementsWithin_sound d hms
      refine ⟨ts ++ us, hp.append hq, by simp [hi, hj], fun hf => .cons (hts ?_) (hus ?_)⟩
      · exact fun t ht => hf t (List.mem_append_left us ht)
      · exact fun t ht => hf t (List.mem_append_right ts ht)

theorem blockWithin_sound : ∀ (d : ℕ) {f h : Feed} {ns : List Node},
    blockWithin d f = .ok ns h → Derives f h (Block .window · ns)
  | 0, _, _, _, hr => by simp [blockWithin] at hr
  | d + 1, f, h, ns, hr => by
    obtain ⟨ha, g, hns, hz, rfl⟩ := blockWithin_eq_ok.mp hr
    obtain ⟨ts, hp, hi, hts⟩ := statementsWithin_sound d hns
    refine ⟨f.current :: (ts ++ [g.current]), ⟨rfl, hp.append g.passes_current⟩,
      by simp [ha, hi, hz], fun hf => ?_⟩
    exact .intro ha (hts fun t ht => hf t (by simp [ht])) hz

theorem armsWithin_sound : ∀ (d : ℕ) {f h : Feed} {as : List (Node × List Node)},
    armsWithin d f = .ok as h → Derives f h (Arms .window · as)
  | 0, _, _, _, hr => by simp [armsWithin] at hr
  | d + 1, f, h, as, hr => by
    obtain ⟨hw, test, g₁, h₁, body, g₂, h₂, rest, h₃, rfl⟩ | ⟨-, rfl, rfl⟩ :=
      armsWithin_eq_ok.mp hr
    · obtain ⟨cs, hcs, hp₁⟩ := guarded_sound h₁
      obtain ⟨bs, hp₂, hi₂, hbs⟩ := blockWithin_sound d h₂
      obtain ⟨as, hp₃, hi₃, has⟩ := armsWithin_sound d h₃
      refine ⟨f.current :: (cs ++ (bs ++ as)), ⟨rfl, hp₁.append (hp₂.append hp₃)⟩,
        by simp [hw, hcs.inside, hi₂, hi₃], fun hf => ?_⟩
      exact .cons hw hcs (hbs fun t ht => hf t (by simp [ht])) (has fun t ht => hf t (by simp [ht]))
    · exact ⟨[], rfl, Token.inside_nil, fun _ => .nil⟩

theorem branchWithin_sound : ∀ (d : ℕ) {f h : Feed} {n : Node},
    branchWithin d f = .ok n h → Derives f h (Statement .window · n)
  | 0, _, _, _, hr => by simp [branchWithin] at hr
  | d + 1, f, h, n, hr => by
    obtain ⟨hw, test, g₁, h₁, body, g₂, h₂, arms, g₃, h₃, otherwise, g₄, h₄, hz, rfl, rfl⟩ :=
      branchWithin_eq_ok.mp hr
    obtain ⟨cs, hcs, hp₁⟩ := guarded_sound h₁
    obtain ⟨bs, hp₂, hi₂, hbs⟩ := blockWithin_sound d h₂
    obtain ⟨as, hp₃, hi₃, has⟩ := armsWithin_sound d h₃
    have ho : Derives g₃ g₄ (Otherwise .window · otherwise) := by
      obtain ⟨hk, block, hb, rfl⟩ | ⟨-, rfl, rfl⟩ := otherwiseWithin_eq_ok.mp h₄
      · obtain ⟨us, hq, hi, hus⟩ := blockWithin_sound d hb
        refine ⟨g₃.current :: us, ⟨rfl, hq⟩, by simp [hk, hi],
          fun hf => .some hk (hus fun t ht => ?_)⟩
        exact hf t (List.mem_cons_of_mem _ ht)
      · exact ⟨[], rfl, Token.inside_nil, fun _ => .none⟩
    obtain ⟨os, hp₄, hi₄, hos⟩ := ho
    refine ⟨f.current :: (cs ++ (bs ++ (as ++ (os ++ [g₄.current])))),
      ⟨rfl, hp₁.append (hp₂.append (hp₃.append (hp₄.append g₄.passes_current)))⟩,
      by simp [hw, hcs.inside, hi₂, hi₃, hi₄, hz], fun hf => ?_⟩
    exact .branch hw hcs (hbs fun t ht => hf t (by simp [ht])) (has fun t ht => hf t (by simp [ht]))
      (hos fun t ht => hf t (by simp [ht])) hz

theorem forLoopWithin_sound : ∀ (d : ℕ) {f h : Feed} {n : Node},
    forLoopWithin d f = .ok n h → Derives f h (Statement .window · n)
  | 0, _, _, _, hr => by simp [forLoopWithin] at hr
  | d + 1, f, h, n, hr => by
    obtain ⟨hw, hl, init, g₁, h₁, test, g₂, h₂, hs, update, g₃, h₃, hq, body, g₄, h₄, hz,
      rfl, rfl⟩ :=
      forLoopWithin_eq_ok.mp hr
    obtain ⟨is, his, hp₁⟩ := loopStart_sound h₁
    obtain ⟨cs, hcs, hp₂⟩ := condition_sound h₂
    obtain ⟨us, hus, hp₃⟩ := loopStep_sound h₃
    obtain ⟨bs, hp₄, hi, hbs⟩ := blockWithin_sound d h₄
    refine ⟨_ :: _ :: (is ++ (cs ++ _ :: (us ++ _ :: (bs ++ [_])))),
      ⟨rfl, rfl, hp₁.append (hp₂.append ⟨rfl, hp₃.append ⟨rfl, hp₄.append g₄.passes_current⟩⟩)⟩,
      by simp [hw, hl, his.inside, hcs.inside, hs, hus.inside, hq, hi, hz], fun hf => ?_⟩
    exact .forLoop hw hl his hcs hs hus hq (hbs fun t ht => hf t (by simp [ht])) hz

theorem whileLoopWithin_sound : ∀ (d : ℕ) {f h : Feed} {n : Node},
    whileLoopWithin d f = .ok n h → Derives f h (Statement .window · n)
  | 0, _, _, _, hr => by simp [whileLoopWithin] at hr
  | d + 1, f, h, n, hr => by
    obtain ⟨hw, test, g₁, h₁, body, g₂, h₂, hz, rfl, rfl⟩ := whileLoopWithin_eq_ok.mp hr
    obtain ⟨cs, hcs, hp₁⟩ := guarded_sound h₁
    obtain ⟨bs, hp₂, hi, hbs⟩ := blockWithin_sound d h₂
    refine ⟨f.current :: (cs ++ (bs ++ [g₂.current])),
      ⟨rfl, hp₁.append (hp₂.append g₂.passes_current)⟩, by simp [hw, hcs.inside, hi, hz],
      fun hf => ?_⟩
    exact .whileLoop hw hcs (hbs fun t ht => hf t (by simp [ht])) hz

end

end Parse

end DrawPlus
