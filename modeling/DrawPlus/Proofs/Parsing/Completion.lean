import DrawPlus.Proofs.Parsing.Programs

/-!
# What has been read can be completed

A rule that fails has not gone astray before: the tokens that it has taken can be followed by others
so that the grammar derives the whole. `Reads L x` says this of an action and a language. On success
the tokens taken are in the language, and on failure they are the beginning of something in it, with
an end that can be written down.

The languages forget the trees. That is enough, since among names that do not size the window the
grammar goes by the kinds of the tokens only. For an action that goes on after something has been
read, such as the rule for further summands, the language is a quotient: all that can stand there.
-/

namespace DrawPlus

namespace Grammar

/-- A token of such a kind, which does not name a window dimension. -/
def one (p : Kind → Prop) : Language Token :=
  {ts | ∃ t : Token, ts = [t] ∧ p t.kind ∧ ¬NameRule.IsWindow t.value}

/-- The lists of tokens from which the grammar derives something. -/
def derived {α : Type} (rule : List Token → α → Prop) : Language Token := {ts | ∃ a, rule ts a}

/-- What can stand after whatever is derived by one rule, so that another rule derives the whole. -/
def after {α β : Type} (first : List Token → α → Prop) (whole : List Token → β → Prop) :
    Language Token :=
  {us | ∀ ts a, first ts a → ∃ b, whole (ts ++ us) b}

/-- The name of a variable or a cursor, other than a window dimension. -/
def Name (ts : List Token) (_ : Unit) : Prop :=
  ∃ t : Token, ts = [t] ∧ t.kind = .identifier ∧ ¬NameRule.IsWindow t.value

/-- The language has a list of tokens that can be written down. -/
def Writable (L : Language Token) : Prop := ∃ us ∈ L, ∀ u ∈ us, u.Faithful

variable {L M : Language Token} {p : Kind → Prop} {ts : List Token}

theorem mem_one_mul : ts ∈ one p * L ↔
    ∃ t us, ts = t :: us ∧ p t.kind ∧ ¬NameRule.IsWindow t.value ∧ us ∈ L := by
  rw [Language.mem_mul]
  constructor
  · rintro ⟨_, ⟨t, rfl, hp, hw⟩, us, hus, rfl⟩
    exact ⟨t, us, rfl, hp, hw, hus⟩
  · rintro ⟨t, us, rfl, hp, hw, hus⟩
    exact ⟨[t], ⟨t, rfl, hp, hw⟩, us, hus, rfl⟩

theorem mem_derived_mul {α : Type} {rule : List Token → α → Prop} : ts ∈ derived rule * L ↔
    ∃ us vs a, ts = us ++ vs ∧ rule us a ∧ vs ∈ L := by
  rw [Language.mem_mul]
  constructor
  · rintro ⟨us, ⟨a, ha⟩, vs, hvs, rfl⟩
    exact ⟨us, vs, a, rfl, ha, hvs⟩
  · rintro ⟨us, vs, a, rfl, ha, hvs⟩
    exact ⟨us, ⟨a, ha⟩, vs, hvs, rfl⟩

theorem mem_one_self {t : Token} (hp : p t.kind) (hw : ¬NameRule.IsWindow t.value) : [t] ∈ one p :=
  ⟨t, rfl, hp, hw⟩

theorem Writable.mul (hL : Writable L) (hM : Writable M) : Writable (L * M) := by
  obtain ⟨us, hus, hu⟩ := hL
  obtain ⟨vs, hvs, hv⟩ := hM
  exact ⟨us ++ vs, Language.append_mem_mul hus hvs, List.forall_mem_append.mpr ⟨hu, hv⟩⟩

theorem Writable.mono (hL : Writable L) (h : L ≤ M) : Writable M := by
  obtain ⟨us, hus, hu⟩ := hL
  exact ⟨us, h hus, hu⟩

theorem writable_of_nil_mem (h : [] ∈ L) : Writable L := ⟨[], h, by simp⟩

theorem writable_sign {k : Kind} {w : String} (h : k.sign? = some w) (hp : p k) :
    Writable (one p) := by
  have hw : ¬NameRule.IsWindow (.text w) := by
    rintro (heq | heq) <;> cases heq <;> cases k <;> simp [Kind.sign?] at h
  exact ⟨[⟨k, w, 0, 0⟩], mem_one_self hp hw, by simpa using .sign h⟩

theorem writable_keyword {k : Kind} (w : String) (h : (w, k) ∈ keywords) (hp : p k) :
    Writable (one p) := by
  have hall : ∀ e ∈ keywords, e.1 ≠ "windowWidth" ∧ e.1 ≠ "windowHeight" := by decide
  refine ⟨[⟨k, w, 0, 0⟩], mem_one_self hp ?_, by simpa using .keyword h⟩
  simpa [NameRule.IsWindow] using hall _ h

theorem isName_x : IsName "x" :=
  ⟨⟨'x', [], rfl, isWordStart_of_ascii (by decide), by simp⟩, by decide⟩

theorem writable_identifier : Writable (one (· = .identifier)) := by
  refine ⟨[⟨.identifier, "x", 0, 0⟩], mem_one_self rfl ?_, by simpa using .name isName_x⟩
  simp [NameRule.IsWindow]

end Grammar

/-- None of the tokens of the feed names a window dimension. -/
def Feed.Unsized (f : Feed) : Prop := ∀ t ∈ f.ahead, ¬NameRule.IsWindow t.value

theorem Feed.Unsized.passes {f g : Feed} {ts : List Token} (h : f.Unsized) (hp : f.Passes ts g) :
    g.Unsized :=
  fun t ht => h t (hp.subset.2 ht)

namespace Parse

open Grammar

variable {α β : Type} {L M : Language Token} {x : Parse α} {f : Feed}

/-- At the feed, the action takes tokens of the language, or it fails within one of its lists, which
has an end that can be written down. -/
structure ReadsAt (L : Language Token) (x : Parse α) (f : Feed) : Prop where
  ok : ∀ a g, x f = .ok a g → ∃ ts ∈ L, f.Passes ts g
  error : ∀ e g, x f = .error e g → ∃ ts us, ts ++ us ∈ L ∧ f.Passes ts g ∧ ∀ u ∈ us, u.Faithful

/-- The action reads the language, wherever no window dimension is named. -/
structure Reads (L : Language Token) (x : Parse α) : Prop where
  writable : Writable L
  reads : ∀ f, f.Unsized → ReadsAt L x f

theorem ReadsAt.mono (h : ReadsAt L x f) (hL : L ≤ M) : ReadsAt M x f := by
  constructor
  · intro a g hx
    obtain ⟨ts, hts, hp⟩ := h.ok a g hx
    exact ⟨ts, hL hts, hp⟩
  · intro e g hx
    obtain ⟨ts, us, hmem, hp⟩ := h.error e g hx
    exact ⟨ts, us, hL hmem, hp⟩

theorem Reads.mono (h : Reads L x) (hL : L ≤ M) : Reads M x :=
  ⟨h.writable.mono hL, fun f hf => (h.reads f hf).mono hL⟩

theorem ReadsAt.bind [Inhabited α] {F : α → Parse β} (hx : ReadsAt L x f) (hf : f.Unsized)
    (hF : ∀ a, Reads M (F a)) : ReadsAt (L * M) (x >>= F) f := by
  constructor
  · intro b h hb
    obtain ⟨a, g, ha, hb⟩ := bind_eq_ok.mp hb
    obtain ⟨ts, hts, hp⟩ := hx.ok a g ha
    obtain ⟨us, hus, hq⟩ := ((hF a).reads g (hf.passes hp)).ok b h hb
    exact ⟨ts ++ us, Language.append_mem_mul hts hus, hp.append hq⟩
  · intro e h he
    obtain he | ⟨a, g, ha, he⟩ := bind_eq_error.mp he
    · obtain ⟨ts, us, hmem, hp, hu⟩ := hx.error e h he
      obtain ⟨vs, hvs, hv⟩ := (hF default).writable
      refine ⟨ts, us ++ vs, ?_, hp, List.forall_mem_append.mpr ⟨hu, hv⟩⟩
      rw [← List.append_assoc]
      exact Language.append_mem_mul hmem hvs
    · obtain ⟨ts, hts, hp⟩ := hx.ok a g ha
      obtain ⟨us, vs, hmem, hq, hv⟩ := ((hF a).reads g (hf.passes hp)).error e h he
      refine ⟨ts ++ us, vs, ?_, hp.append hq, hv⟩
      rw [List.append_assoc]
      exact Language.append_mem_mul hts hmem

theorem Reads.bind [Inhabited α] {F : α → Parse β} (hx : Reads L x) (hF : ∀ a, Reads M (F a)) :
    Reads (L * M) (x >>= F) :=
  ⟨hx.writable.mul (hF default).writable, fun f hf => (hx.reads f hf).bind hf hF⟩

theorem readsAt_pure (a : α) (h : [] ∈ L) : ReadsAt L (pure a) f := by
  refine ⟨fun b g hb => ⟨[], h, ?_⟩, fun e g he => by cases he⟩
  obtain ⟨-, rfl⟩ := pure_eq_ok.mp hb
  rfl

theorem reads_pure (a : α) : Reads 1 (pure a) :=
  ⟨writable_of_nil_mem (Language.nil_mem_one), fun _ _ => readsAt_pure a Language.nil_mem_one⟩

theorem readsAt_fail {e : SyntaxError} (hL : Writable L) (h : x f = .error e f) :
    ReadsAt L x f := by
  refine ⟨fun a g ha => ?_, fun e' g he => ?_⟩
  · rw [h] at ha
    cases ha
  · rw [h] at he
    cases he
    obtain ⟨us, hus, hu⟩ := hL
    exact ⟨[], us, hus, rfl, hu⟩

theorem reads_throw (e : SyntaxError) (hL : Writable L) : Reads L (throw e : Parse α) :=
  ⟨hL, fun _ _ => readsAt_fail hL rfl⟩

theorem readsAt_complain (c : Complaint) (hL : Writable L) : ReadsAt L (complain c : Parse α) f :=
  readsAt_fail hL rfl

/-- The current token is taken if it is of the kind that is asked for. -/
theorem readsAt_take {p : Kind → Prop} {k : Kind} (hf : f.Unsized) (hk : f.current.kind = k)
    (hp : p k) : ReadsAt (one p) (eat k) f := by
  refine ⟨fun a g ha => ?_, fun e g he => ?_⟩
  · obtain ⟨-, rfl⟩ := eat_eq_ok.mp ha
    exact ⟨[f.current], mem_one_self (hk ▸ hp) (hf _ List.mem_cons_self), f.passes_current⟩
  · rw [eat, if_pos hk] at he
    cases he

theorem reads_eat {k : Kind} (hk : Writable (one (· = k))) : Reads (one (· = k)) (eat k) := by
  refine ⟨hk, fun f hf => ?_⟩
  by_cases h : f.current.kind = k
  · exact readsAt_take hf h rfl
  · exact readsAt_fail hk (by rw [eat, if_neg h])

theorem reads_sign {k : Kind} {w : String} (h : k.sign? = some w) : Reads (one (· = k)) (eat k) :=
  reads_eat (writable_sign h rfl)

theorem reads_keyword {k : Kind} (w : String) (h : (w, k) ∈ keywords) :
    Reads (one (· = k)) (eat k) :=
  reads_eat (writable_keyword w h rfl)

theorem reads_look {F : Token → Parse α} (hL : Writable L)
    (h : ∀ f : Feed, f.Unsized → ReadsAt L (F f.current) f) : Reads L (current >>= F) := by
  refine ⟨hL, fun f hf => ⟨fun a g ha => ?_, fun e g he => ?_⟩⟩
  · exact (h f hf).ok a g ha
  · exact (h f hf).error e g he

theorem reads_current {F : Token → Parse α} (h : ∀ t, Reads L (F t)) : Reads L (current >>= F) :=
  reads_look (h ⟨.endOfInput, .absent, 0, 0⟩).writable fun f hf => (h f.current).reads f hf

theorem readsAt_ite {p : Prop} [Decidable p] {y : Parse α} (hx : p → ReadsAt L x f)
    (hy : ¬p → ReadsAt L y f) : ReadsAt L (if p then x else y) f := by
  split_ifs with hp
  · exact hx hp
  · exact hy hp

theorem reads_within {rule : ℕ → Parse α} (h : ∀ d, Reads L (rule d)) :
    Reads L fun f => rule (depthBound f) f := by
  refine ⟨(h 0).writable, fun f hf => ⟨fun a g ha => ?_, fun e g he => ?_⟩⟩
  · exact ((h _).reads f hf).ok a g ha
  · exact ((h _).reads f hf).error e g he

/-! ## Expressions -/

theorem writable_factor : Writable (derived Factor) :=
  ⟨[⟨.number, .int (0 : ℕ), 0, 0⟩], ⟨_, .number rfl⟩, by simpa using .integer 0⟩

theorem derived_le {rule : List Token → α → Prop} {rule' : List Token → β → Prop}
    (h : ∀ ts a, rule ts a → ∃ b, rule' ts b) : derived rule ≤ derived rule' := by
  rintro ts ⟨a, ha⟩
  exact h ts a ha

theorem writable_product : Writable (derived Product) :=
  writable_factor.mono (derived_le fun _ n hn => ⟨n, .factor hn⟩)

theorem writable_sum : Writable (derived Sum) :=
  writable_product.mono (derived_le fun _ n hn => ⟨n, .product hn⟩)

theorem nil_mem_after (rule : List Token → α → Prop) : [] ∈ after rule rule := by
  intro ts a h
  rw [List.append_nil]
  exact ⟨a, h⟩

/-- The rules of expressions read what the grammar derives, whatever the bound on their depth. -/
structure ExpressionsRead (d : ℕ) : Prop where
  sum : Reads (derived Sum) (sumWithin d)
  sumTail (left : Node) : Reads (after Sum Sum) (sumTailWithin d left)
  product : Reads (derived Product) (productWithin d)
  productTail (left : Node) : Reads (after Product Product) (productTailWithin d left)
  factor : Reads (derived Factor) (factorWithin d)

theorem readsAt_single {p : Kind → Prop} {k : Kind} {n : Node} (hf : f.Unsized)
    (hk : f.current.kind = k) (hp : p k) (h : ∀ t : Token, p t.kind → ∃ m, Factor [t] m) :
    ReadsAt (derived Factor) (do eat k; pure n) f := by
  refine ((readsAt_take hf hk hp).bind hf fun _ => reads_pure n).mono fun ts hts => ?_
  obtain ⟨t, us, rfl, ht, -, rfl⟩ := mem_one_mul.mp hts
  exact h t ht

theorem reads_factor {d : ℕ} (ih : ExpressionsRead d) :
    Reads (derived Factor) (factorWithin (d + 1)) := by
  refine reads_look writable_factor fun f hf => ?_
  cases hk : f.current.kind with
  | number => exact readsAt_single (p := (· = .number)) hf hk rfl fun t ht => ⟨_, .number ht⟩
  | boolValue => exact readsAt_single (p := (· = .boolValue)) hf hk rfl fun t ht => ⟨_, .truth ht⟩
  | hue h =>
    exact readsAt_single (p := fun k => ∃ h, k = .hue h) hf hk ⟨h, rfl⟩
      fun t ht => ht.elim fun _ ht => ⟨_, .hue ht⟩
  | rgb =>
    refine ((readsAt_take (p := (· = .rgb)) hf hk rfl).bind hf fun _ =>
      (reads_sign rfl).bind fun _ => ih.sum.bind fun _ => (reads_sign rfl).bind fun _ =>
      ih.sum.bind fun _ => (reads_sign rfl).bind fun _ => ih.sum.bind fun _ =>
      (reads_sign rfl).bind fun _ => reads_pure _).mono fun ts hts => ?_
    obtain ⟨w, us, rfl, hw, -, hts⟩ := mem_one_mul.mp hts
    obtain ⟨a, us, rfl, ha, -, hts⟩ := mem_one_mul.mp hts
    obtain ⟨rs, us, r, rfl, hr, hts⟩ := mem_derived_mul.mp hts
    obtain ⟨c, us, rfl, hc, -, hts⟩ := mem_one_mul.mp hts
    obtain ⟨gs, us, g, rfl, hg, hts⟩ := mem_derived_mul.mp hts
    obtain ⟨d, us, rfl, hd, -, hts⟩ := mem_one_mul.mp hts
    obtain ⟨bs, us, b, rfl, hb, hts⟩ := mem_derived_mul.mp hts
    obtain ⟨z, us, rfl, hz, -, rfl⟩ := mem_one_mul.mp hts
    exact ⟨_, .mixed hw ha hr hc hg hd hb hz⟩
  | identifier =>
    exact readsAt_single (p := (· = .identifier)) hf hk rfl fun t ht => ⟨_, .variable ht⟩
  | leftParen =>
    refine ((readsAt_take (p := (· = .leftParen)) hf hk rfl).bind hf fun _ =>
      ih.sum.bind fun _ => (reads_sign rfl).bind fun _ => reads_pure _).mono fun ts hts => ?_
    obtain ⟨a, us, rfl, ha, -, hts⟩ := mem_one_mul.mp hts
    obtain ⟨ns, us, n, rfl, hn, hts⟩ := mem_derived_mul.mp hts
    obtain ⟨z, us, rfl, hz, -, rfl⟩ := mem_one_mul.mp hts
    exact ⟨n, .group ha hn hz⟩
  | _ => exact readsAt_complain _ writable_factor

theorem expressionsRead (d : ℕ) : ExpressionsRead d := by
  induction d with
  | zero =>
    exact ⟨reads_throw _ writable_sum,
      fun _ => reads_throw _ (writable_of_nil_mem (nil_mem_after _)),
      reads_throw _ writable_product,
      fun _ => reads_throw _ (writable_of_nil_mem (nil_mem_after _)), reads_throw _ writable_factor⟩
  | succ d ih =>
    constructor
    · refine (ih.product.bind ih.sumTail).mono fun ts hts => ?_
      obtain ⟨us, vs, l, rfl, hl, hvs⟩ := mem_derived_mul.mp hts
      exact hvs us l (.product hl)
    · intro left
      refine reads_look (writable_of_nil_mem (nil_mem_after _)) fun f hf =>
        readsAt_ite (fun hk => ?_) fun _ => ?_
      · refine ((readsAt_take (p := (· ∈ [Kind.plus, .minus])) hf rfl hk).bind hf fun _ =>
          ih.product.bind fun _ => ih.sumTail _).mono fun us hus ts l hl => ?_
        obtain ⟨op, us, rfl, hop, -, hus⟩ := mem_one_mul.mp hus
        obtain ⟨rs, vs, r, rfl, hr, hvs⟩ := mem_derived_mul.mp hus
        simpa using hvs _ _ (.more hl hop hr)
      · exact readsAt_pure left (nil_mem_after _)
    · refine (ih.factor.bind ih.productTail).mono fun ts hts => ?_
      obtain ⟨us, vs, l, rfl, hl, hvs⟩ := mem_derived_mul.mp hts
      exact hvs us l (.factor hl)
    · intro left
      refine reads_look (writable_of_nil_mem (nil_mem_after _)) fun f hf =>
        readsAt_ite (fun hk => ?_) fun _ => ?_
      · refine ((readsAt_take (p := (· ∈ [Kind.times, .slash, .modulo])) hf rfl hk).bind hf fun _ =>
          ih.factor.bind fun _ => ih.productTail _).mono fun us hus ts l hl => ?_
        obtain ⟨op, us, rfl, hop, -, hus⟩ := mem_one_mul.mp hus
        obtain ⟨rs, vs, r, rfl, hr, hvs⟩ := mem_derived_mul.mp hus
        simpa using hvs _ _ (.more hl hop hr)
      · exact readsAt_pure left (nil_mem_after _)
    · exact reads_factor ih

theorem reads_sum : Reads (derived Sum) sum := reads_within fun d => (expressionsRead d).sum

/-! ## Statements without a body -/

theorem derived_mul_after {rule : List Token → α → Prop} {whole : List Token → β → Prop} :
    derived rule * after rule whole ≤ derived whole := by
  intro ts hts
  obtain ⟨us, vs, a, rfl, ha, hvs⟩ := mem_derived_mul.mp hts
  exact hvs us a ha

theorem name_mul_after {whole : List Token → β → Prop} :
    one (· = .identifier) * after Name whole ≤ derived whole := by
  intro ts hts
  obtain ⟨t, us, rfl, hk, hw, hus⟩ := mem_one_mul.mp hts
  exact hus [t] () ⟨t, rfl, hk, hw⟩

theorem reads_condition : Reads (derived Condition) condition := by
  have hnil : [] ∈ after Sum Condition := by
    intro ts n hn
    rw [List.append_nil]
    exact ⟨n, .sum hn⟩
  refine (reads_sum.bind fun left => reads_look (writable_of_nil_mem hnil) fun f hf =>
    readsAt_ite (fun hk => ?_) fun _ => readsAt_pure left hnil).mono derived_mul_after
  refine ((readsAt_take (p := (Kind.isComparison · = true)) hf rfl hk).bind hf fun _ =>
    reads_sum.bind fun _ => reads_pure _).mono fun us hus ts l hl => ?_
  obtain ⟨op, us, rfl, hop, -, hus⟩ := mem_one_mul.mp hus
  obtain ⟨rs, vs, r, rfl, hr, rfl⟩ := mem_derived_mul.mp hus
  rw [List.append_nil]
  exact ⟨_, .comparison hl hop hr⟩

theorem reads_guarded : Reads (derived Guarded) guarded := by
  refine ((reads_sign rfl).bind fun _ => reads_condition.bind fun _ => (reads_sign rfl).bind
    fun _ => reads_pure _).mono fun ts hts => ?_
  obtain ⟨a, us, rfl, ha, -, hts⟩ := mem_one_mul.mp hts
  obtain ⟨cs, us, n, rfl, hn, hts⟩ := mem_derived_mul.mp hts
  obtain ⟨z, us, rfl, hz, -, rfl⟩ := mem_one_mul.mp hts
  exact ⟨n, .intro ha hn hz⟩

/-- What an assignment ends in. -/
def ending (withSemicolon : Bool) : Language Token :=
  if withSemicolon then one (· = .semicolon) else 1

theorem writable_ending (b : Bool) : Writable (ending b) := by
  cases b with
  | false => exact writable_of_nil_mem Language.nil_mem_one
  | true => exact (reads_sign (k := .semicolon) rfl).writable

theorem plain_le : one (· = .assign) * derived Sum ≤ after Name Assignment := by
  rintro us hus _ _ ⟨x, rfl, hx, -⟩
  obtain ⟨a, us, rfl, ha, -, n, hn⟩ := mem_one_mul.mp hus
  exact ⟨_, .plain hx ha hn⟩

theorem compound_le : one (fun k => ∃ op, Compound k op) * derived Sum ≤ after Name Assignment := by
  rintro us hus _ _ ⟨x, rfl, hx, -⟩
  obtain ⟨a, us, rfl, ⟨op, ha⟩, -, n, hn⟩ := mem_one_mul.mp hus
  exact ⟨_, .compound hx ha hn⟩

theorem writable_assignment (b : Bool) : Writable (after Name Assignment * ending b) :=
  (((reads_sign rfl).writable.mul writable_sum).mono plain_le).mul (writable_ending b)

theorem reads_assignment (name : Value) (b : Bool) :
    Reads (after Name Assignment * ending b) (assignment name b) := by
  have hclosing (value : Node) : Reads (ending b)
      (if b = true then do
        eat .semicolon
        pure (Node.assign name value)
      else pure (Node.assign name value)) := by
    cases b with
    | false => exact reads_pure _
    | true =>
      have h := (reads_sign (k := .semicolon) rfl).bind fun _ => reads_pure (Node.assign name value)
      rwa [mul_one] at h
  refine reads_look (writable_assignment b) fun f hf => ?_
  dsimp only
  cases hop : compoundOperator? f.current.kind with
  | some op =>
    have h := (readsAt_take (p := fun k => ∃ op, Compound k op) hf rfl
      ⟨op, compoundOperator?_eq_some.mp hop⟩).bind hf fun _ => reads_sum.bind fun right =>
        (reads_pure (Node.binary (.variable name) op right)).bind hclosing
    rw [one_mul, ← mul_assoc] at h
    exact h.mono (mul_le_mul_left compound_le _)
  | none =>
    have h := (reads_sign (k := .assign) rfl).bind fun _ => reads_sum.bind hclosing
    rw [← mul_assoc] at h
    exact (h.reads f hf).mono (mul_le_mul_left plain_le _)

theorem nil_mem_after_sum : [] ∈ after Sum Listed := by
  intro ts n hn
  rw [List.append_nil]
  exact ⟨_, .one hn⟩

theorem reads_argumentTail (d : ℕ) : Reads (after Sum Listed) (argumentTail d) := by
  induction d with
  | zero => exact reads_throw _ (writable_of_nil_mem nil_mem_after_sum)
  | succ d ih =>
    refine reads_look (writable_of_nil_mem nil_mem_after_sum) fun f hf =>
      readsAt_ite (fun hk => ?_) fun _ => readsAt_pure _ nil_mem_after_sum
    refine ((readsAt_take (p := (· = .comma)) hf hk rfl).bind hf fun _ => reads_sum.bind fun _ =>
      ih.bind fun _ => reads_pure _).mono fun us hus ts n hn => ?_
    obtain ⟨c, us, rfl, hc, -, hus⟩ := mem_one_mul.mp hus
    obtain ⟨ms, us, m, rfl, hm, hus⟩ := mem_derived_mul.mp hus
    rw [mul_one] at hus
    obtain ⟨ns, hns⟩ := hus ms m hm
    exact ⟨n :: ns, .more hn hc hns⟩

theorem reads_arguments : Reads (derived Arguments) arguments := by
  have hnil : [] ∈ derived Arguments := ⟨[], .none⟩
  refine reads_look (writable_of_nil_mem hnil) fun f hf =>
    readsAt_ite (fun _ => readsAt_pure _ hnil) fun _ => ?_
  refine ((reads_sum.bind fun _ => (reads_within reads_argumentTail).bind fun _ =>
    reads_pure _).reads f hf).mono fun ts hts => ?_
  rw [mul_one] at hts
  obtain ⟨ns, hns⟩ := derived_mul_after hts
  exact ⟨ns, .some hns⟩

/-- The arguments of a call in parentheses, and the semicolon after it. -/
def callEnd : Language Token :=
  one (· = .leftParen) * (derived Arguments * (one (· = .rightParen) * one (· = .semicolon)))

theorem reads_methodCall (cursor method : Value) : Reads callEnd (methodCall cursor method) := by
  refine ((reads_sign rfl).bind fun _ => reads_arguments.bind fun given => (reads_sign rfl).bind
    fun _ => (reads_sign rfl).bind fun _ => (?_ : Reads 1 _)).mono (le_of_eq ?_)
  · split
    · split_ifs
      · exact reads_pure _
      · exact reads_pure _
    · exact reads_throw _ (writable_of_nil_mem Language.nil_mem_one)
  · rw [mul_one]
    rfl

theorem statement_of_assignment :
    after Name Assignment * one (· = .semicolon) ≤ after Name (Statement .window) := by
  rintro us hus _ _ ⟨x, rfl, hx, hw⟩
  obtain ⟨vs, hvs, _, ⟨z, rfl, hz, -⟩, rfl⟩ := Language.mem_mul.mp hus
  obtain ⟨n, hn⟩ := hvs [x] () ⟨x, rfl, hx, hw⟩
  exact ⟨n, .assignment hn hw hz⟩

theorem statement_of_call :
    one (· = .dot) * (one (isMethod · = true) * callEnd) ≤ after Name (Statement .window) := by
  rintro us hus _ _ ⟨x, rfl, hx, hw⟩
  obtain ⟨d, us, rfl, hd, -, hus⟩ := mem_one_mul.mp hus
  obtain ⟨m, us, rfl, hm, -, hus⟩ := mem_one_mul.mp hus
  obtain ⟨p, us, rfl, hp, -, hus⟩ := mem_one_mul.mp hus
  obtain ⟨ts, us, ns, rfl, hns, hus⟩ := mem_derived_mul.mp hus
  obtain ⟨q, us, rfl, hq, -, z, rfl, hz, -⟩ := mem_one_mul.mp hus
  rcases isMethod_eq_true.mp hm with hm | hm
  · exact ⟨_, .call (.draw hx hd hm hp hns hq hz) hw⟩
  · exact ⟨_, .call (.change hx hd hm hp hns hq hz) hw⟩

theorem writable_named : Writable (after Name (Statement .window)) :=
  (writable_assignment true).mono statement_of_assignment

theorem writable_statement : Writable (derived (Statement .window)) :=
  (writable_identifier.mul writable_named).mono name_mul_after

theorem reads_named : Reads (derived (Statement .window)) named := by
  refine reads_look writable_statement fun f hf => readsAt_ite (fun hw => ?_) fun _ => ?_
  · exact absurd (isWindowDimension_eq_true.mp hw) (hf _ List.mem_cons_self)
  refine (((reads_eat writable_identifier).bind fun _ => reads_look writable_named fun g hg =>
    readsAt_ite (fun hk => ?_) fun _ => readsAt_ite (fun _ => ?_) fun _ => ?_).reads f hf).mono
      name_mul_after
  · have hmethod : Writable (one (isMethod · = true) * callEnd) :=
      (writable_keyword (p := (isMethod · = true)) (k := .move) "move" (by decide) rfl).mul
        (reads_methodCall .absent .absent).writable
    refine ((readsAt_take (p := (· = .dot)) hg hk rfl).bind hg fun _ => reads_look hmethod
      fun h hh => readsAt_ite (fun hm => ?_) fun _ => readsAt_complain _ hmethod).mono
        statement_of_call
    exact (readsAt_take hh rfl hm).bind hh fun _ => reads_methodCall _ _
  · exact ((reads_assignment _ true).reads g hg).mono statement_of_assignment
  · exact readsAt_complain _ writable_named

theorem reads_cursorCreation : Reads (derived Creation) cursorCreation := by
  refine ((reads_keyword "cursor" (by decide)).bind fun _ => reads_current fun _ =>
    (reads_eat writable_identifier).bind fun _ => (reads_sign rfl).bind fun _ =>
    (reads_keyword "create_cursor" (by decide)).bind fun _ => (reads_sign rfl).bind fun _ =>
    reads_sum.bind fun _ => (reads_sign rfl).bind fun _ => reads_sum.bind fun _ =>
    (reads_sign rfl).bind fun _ => (reads_sign rfl).bind fun _ => reads_pure _).mono
      fun ts hts => ?_
  obtain ⟨w, us, rfl, hw, -, hts⟩ := mem_one_mul.mp hts
  obtain ⟨x, us, rfl, hx, -, hts⟩ := mem_one_mul.mp hts
  obtain ⟨a, us, rfl, ha, -, hts⟩ := mem_one_mul.mp hts
  obtain ⟨k, us, rfl, hk, -, hts⟩ := mem_one_mul.mp hts
  obtain ⟨p, us, rfl, hp, -, hts⟩ := mem_one_mul.mp hts
  obtain ⟨ms, us, m, rfl, hm, hts⟩ := mem_derived_mul.mp hts
  obtain ⟨c, us, rfl, hc, -, hts⟩ := mem_one_mul.mp hts
  obtain ⟨ns, us, n, rfl, hn, hts⟩ := mem_derived_mul.mp hts
  obtain ⟨q, us, rfl, hq, -, hts⟩ := mem_one_mul.mp hts
  obtain ⟨z, us, rfl, hz, -, rfl⟩ := mem_one_mul.mp hts
  exact ⟨_, .intro hw hx ha hk hp hm hc hn hq hz⟩

def IsType (k : Kind) : Prop := k ∈ [Kind.int, .float, .bool, .color]

/-- What stands after the type in a declaration. -/
def declarationEnd : Language Token :=
  one (· = .identifier) * (one (· = .assign) * (derived Sum * one (· = .semicolon)))

theorem writable_declarationEnd : Writable declarationEnd :=
  writable_identifier.mul
    ((reads_sign rfl).writable.mul (writable_sum.mul (reads_sign rfl).writable))

theorem reads_declaration : Reads (derived (Declaration .window)) declaration := by
  have hend : Writable (one IsType * declarationEnd) :=
    (writable_keyword (k := .int) "int" (by decide) (by simp [IsType])).mul writable_declarationEnd
  refine ((reads_keyword "var" (by decide)).bind fun _ => reads_look hend fun f hf =>
    readsAt_ite (fun _ => readsAt_complain _ hend) fun ht => ?_).mono fun ts hts => ?_
  · refine (readsAt_take hf rfl (not_not.mp ht)).bind hf fun _ =>
      reads_look writable_declarationEnd fun g hg => ?_
    have hname : ¬isWindowDimension g.current.value = true :=
      fun h => hg _ List.mem_cons_self (isWindowDimension_eq_true.mp h)
    simp only [hname]
    have h := (reads_eat writable_identifier).bind fun _ => (reads_sign (k := .assign) rfl).bind
      fun _ => reads_sum.bind fun init => (reads_sign (k := .semicolon) rfl).bind fun _ =>
      reads_pure (Node.varDecl (some f.current.kind) g.current.value init)
    rw [mul_one] at h
    exact h.reads g hg
  · obtain ⟨v, us, rfl, hv, -, hts⟩ := mem_one_mul.mp hts
    obtain ⟨t, us, rfl, ht, -, hts⟩ := mem_one_mul.mp hts
    obtain ⟨x, us, rfl, hx, hw, hts⟩ := mem_one_mul.mp hts
    obtain ⟨a, us, rfl, ha, -, hts⟩ := mem_one_mul.mp hts
    obtain ⟨ns, us, n, rfl, hn, z, rfl, hz, -⟩ := mem_derived_mul.mp hts
    exact ⟨_, .intro hv ht hx ha hn (fun h => absurd h hw) hz⟩

theorem reads_loopStart : Reads (derived (Start .window)) loopStart := by
  have hassign : one (· = .identifier) * (after Name Assignment * ending true) ≤
      derived (Start .window) := by
    intro ts hts
    rw [← mul_assoc] at hts
    obtain ⟨us, hus, _, ⟨z, rfl, hz, -⟩, rfl⟩ := Language.mem_mul.mp hts
    obtain ⟨n, hn⟩ := name_mul_after hus
    exact ⟨n, .assignment hn hz⟩
  refine reads_look ((writable_identifier.mul (writable_assignment true)).mono hassign)
    fun f hf => readsAt_ite (fun _ => ?_) fun _ => ?_
  · exact (reads_declaration.reads f hf).mono (derived_le fun _ n hn => ⟨n, .declaration hn⟩)
  · exact ((reads_current fun t => (reads_eat writable_identifier).bind fun _ =>
      reads_assignment t.value true).reads f hf).mono hassign

theorem reads_loopStep : Reads (derived Assignment) loopStep := by
  refine (reads_current fun t => (reads_eat writable_identifier).bind fun _ =>
    reads_assignment t.value false).mono fun ts hts => ?_
  rw [ending, if_neg (by simp), mul_one] at hts
  exact name_mul_after hts

/-! ## Statements with a body -/

/-- The rules of statements read what the grammar derives, whatever the bound on their depth. -/
structure StatementsRead (d : ℕ) : Prop where
  statement : Reads (derived (Statement .window)) (statementWithin d)
  statements : Reads (derived (Statements .window)) (statementsWithin d)
  block : Reads (derived (Block .window)) (blockWithin d)
  arms : Reads (derived (Arms .window)) (armsWithin d)
  branch : Reads (derived (Statement .window)) (branchWithin d)
  forLoop : Reads (derived (Statement .window)) (forLoopWithin d)
  whileLoop : Reads (derived (Statement .window)) (whileLoopWithin d)

section

variable {d : ℕ}

theorem nil_mem_statements : [] ∈ derived (Statements .window) := ⟨[], .nil⟩

theorem reads_statementWithin (ih : StatementsRead d) :
    Reads (derived (Statement .window)) (statementWithin (d + 1)) := by
  refine reads_look writable_statement fun f hf => ?_
  split
  · exact (reads_declaration.reads f hf).mono (derived_le fun _ n hn => ⟨n, .declaration hn⟩)
  · exact (reads_cursorCreation.reads f hf).mono (derived_le fun _ n hn => ⟨n, .creation hn⟩)
  · exact ih.branch.reads f hf
  · exact ih.forLoop.reads f hf
  · exact ih.whileLoop.reads f hf
  · exact reads_named.reads f hf
  · exact readsAt_complain _ writable_statement

theorem reads_statementsWithin (ih : StatementsRead d) :
    Reads (derived (Statements .window)) (statementsWithin (d + 1)) := by
  refine reads_look (writable_of_nil_mem nil_mem_statements) fun f hf =>
    readsAt_ite (fun _ => readsAt_pure _ nil_mem_statements) fun _ => ?_
  refine ((ih.statement.bind fun _ => ih.statements.bind fun _ => reads_pure _).reads f hf).mono
    fun ts hts => ?_
  obtain ⟨us, vs, n, rfl, hn, hts⟩ := mem_derived_mul.mp hts
  rw [mul_one] at hts
  obtain ⟨ns, hns⟩ := hts
  exact ⟨n :: ns, .cons hn hns⟩

theorem reads_blockWithin (ih : StatementsRead d) :
    Reads (derived (Block .window)) (blockWithin (d + 1)) := by
  refine ((reads_sign rfl).bind fun _ => ih.statements.bind fun _ => (reads_sign rfl).bind fun _ =>
    reads_pure _).mono fun ts hts => ?_
  obtain ⟨a, us, rfl, ha, -, hts⟩ := mem_one_mul.mp hts
  obtain ⟨us, vs, ns, rfl, hns, hts⟩ := mem_derived_mul.mp hts
  obtain ⟨z, us, rfl, hz, -, rfl⟩ := mem_one_mul.mp hts
  exact ⟨ns, .intro ha hns hz⟩

theorem reads_armsWithin (ih : StatementsRead d) :
    Reads (derived (Arms .window)) (armsWithin (d + 1)) := by
  have hnil : [] ∈ derived (Arms .window) := ⟨[], .nil⟩
  refine reads_look (writable_of_nil_mem hnil) fun f hf =>
    readsAt_ite (fun hk => ?_) fun _ => readsAt_pure _ hnil
  refine ((readsAt_take (p := (· = .elifWord)) hf hk rfl).bind hf fun _ =>
    reads_guarded.bind fun _ => ih.block.bind fun _ => ih.arms.bind fun _ =>
      reads_pure _).mono fun ts hts => ?_
  obtain ⟨w, us, rfl, hw, -, hts⟩ := mem_one_mul.mp hts
  obtain ⟨cs, us, test, rfl, ht, hts⟩ := mem_derived_mul.mp hts
  obtain ⟨bs, us, body, rfl, hb, hts⟩ := mem_derived_mul.mp hts
  rw [mul_one] at hts
  obtain ⟨arms, ha⟩ := hts
  exact ⟨(test, body) :: arms, .cons hw ht hb ha⟩

theorem reads_otherwiseWithin (ih : StatementsRead d) :
    Reads (derived (Otherwise .window)) (otherwiseWithin d) := by
  have hnil : [] ∈ derived (Otherwise .window) := ⟨none, .none⟩
  refine reads_look (writable_of_nil_mem hnil) fun f hf =>
    readsAt_ite (fun hk => ?_) fun _ => readsAt_pure _ hnil
  refine ((readsAt_take (p := (· = .elseWord)) hf hk rfl).bind hf fun _ => ih.block.bind fun _ =>
    reads_pure _).mono fun ts hts => ?_
  obtain ⟨w, us, rfl, hw, -, hts⟩ := mem_one_mul.mp hts
  rw [mul_one] at hts
  obtain ⟨block, hb⟩ := hts
  exact ⟨some block, .some hw hb⟩

theorem reads_branchWithin (ih : StatementsRead d) :
    Reads (derived (Statement .window)) (branchWithin (d + 1)) := by
  refine ((reads_keyword "if" (by decide)).bind fun _ => reads_guarded.bind fun _ =>
    ih.block.bind fun _ => ih.arms.bind fun _ => (reads_otherwiseWithin ih).bind fun _ =>
    (reads_sign rfl).bind fun _ => reads_pure _).mono fun ts hts => ?_
  obtain ⟨w, us, rfl, hw, -, hts⟩ := mem_one_mul.mp hts
  obtain ⟨cs, us, test, rfl, ht, hts⟩ := mem_derived_mul.mp hts
  obtain ⟨bs, us, body, rfl, hb, hts⟩ := mem_derived_mul.mp hts
  obtain ⟨as, us, arms, rfl, ha, hts⟩ := mem_derived_mul.mp hts
  obtain ⟨os, us, o, rfl, ho, hts⟩ := mem_derived_mul.mp hts
  obtain ⟨z, us, rfl, hz, -, rfl⟩ := mem_one_mul.mp hts
  exact ⟨_, .branch hw ht hb ha ho hz⟩

theorem reads_forLoopWithin (ih : StatementsRead d) :
    Reads (derived (Statement .window)) (forLoopWithin (d + 1)) := by
  refine ((reads_keyword "for" (by decide)).bind fun _ => (reads_sign rfl).bind fun _ =>
    reads_loopStart.bind fun _ => reads_condition.bind fun _ => (reads_sign rfl).bind fun _ =>
    reads_loopStep.bind fun _ => (reads_sign rfl).bind fun _ => ih.block.bind fun _ =>
    (reads_sign rfl).bind fun _ => reads_pure _).mono fun ts hts => ?_
  obtain ⟨w, us, rfl, hw, -, hts⟩ := mem_one_mul.mp hts
  obtain ⟨p, us, rfl, hp, -, hts⟩ := mem_one_mul.mp hts
  obtain ⟨is, us, init, rfl, hi, hts⟩ := mem_derived_mul.mp hts
  obtain ⟨cs, us, test, rfl, ht, hts⟩ := mem_derived_mul.mp hts
  obtain ⟨s, us, rfl, hs, -, hts⟩ := mem_one_mul.mp hts
  obtain ⟨ss, us, update, rfl, hu, hts⟩ := mem_derived_mul.mp hts
  obtain ⟨q, us, rfl, hq, -, hts⟩ := mem_one_mul.mp hts
  obtain ⟨bs, us, body, rfl, hb, hts⟩ := mem_derived_mul.mp hts
  obtain ⟨z, us, rfl, hz, -, rfl⟩ := mem_one_mul.mp hts
  exact ⟨_, .forLoop hw hp hi ht hs hu hq hb hz⟩

theorem reads_whileLoopWithin (ih : StatementsRead d) :
    Reads (derived (Statement .window)) (whileLoopWithin (d + 1)) := by
  refine ((reads_keyword "while" (by decide)).bind fun _ => reads_guarded.bind fun _ =>
    ih.block.bind fun _ => (reads_sign rfl).bind fun _ => reads_pure _).mono fun ts hts => ?_
  obtain ⟨w, us, rfl, hw, -, hts⟩ := mem_one_mul.mp hts
  obtain ⟨cs, us, test, rfl, ht, hts⟩ := mem_derived_mul.mp hts
  obtain ⟨bs, us, body, rfl, hb, hts⟩ := mem_derived_mul.mp hts
  obtain ⟨z, us, rfl, hz, -, rfl⟩ := mem_one_mul.mp hts
  exact ⟨_, .whileLoop hw ht hb hz⟩

end

theorem writable_block : Writable (derived (Block .window)) := by
  refine ((reads_sign (k := .leftBrace) rfl).writable.mul
    (reads_sign (k := .rightBrace) rfl).writable).mono fun ts hts => ?_
  obtain ⟨a, us, rfl, ha, -, z, rfl, hz, -⟩ := mem_one_mul.mp hts
  exact ⟨[], .intro ha .nil hz⟩

theorem statementsRead (d : ℕ) : StatementsRead d := by
  induction d with
  | zero =>
    exact ⟨reads_throw _ writable_statement, reads_throw _ (writable_of_nil_mem nil_mem_statements),
      reads_throw _ writable_block, reads_throw _ (writable_of_nil_mem ⟨[], .nil⟩),
      reads_throw _ writable_statement, reads_throw _ writable_statement,
      reads_throw _ writable_statement⟩
  | succ d ih =>
    exact ⟨reads_statementWithin ih, reads_statementsWithin ih, reads_blockWithin ih,
      reads_armsWithin ih, reads_branchWithin ih, reads_forLoopWithin ih, reads_whileLoopWithin ih⟩

theorem reads_programWithin (d : ℕ) :
    Reads (derived (Statements .window)) (programWithin d) := by
  induction d with
  | zero => exact reads_throw _ (writable_of_nil_mem nil_mem_statements)
  | succ d ih =>
    refine reads_look (writable_of_nil_mem nil_mem_statements) fun f hf =>
      readsAt_ite (fun _ => readsAt_pure _ nil_mem_statements) fun _ => ?_
    refine (((reads_within fun d => (statementsRead d).statement).bind fun _ => ih.bind fun _ =>
      reads_pure _).reads f hf).mono fun ts hts => ?_
    obtain ⟨us, vs, n, rfl, hn, hts⟩ := mem_derived_mul.mp hts
    rw [mul_one] at hts
    obtain ⟨ns, hns⟩ := hts
    exact ⟨n :: ns, .cons hn hns⟩

/-- Where reading a program fails, the tokens that have been taken are the beginning of a program,
and the rest of the program can be written down. -/
theorem reads_program : Reads (derived (Statements .window)) program := by
  have h := (reads_within reads_programWithin).bind fun ns => reads_pure (Node.program ns)
  rwa [mul_one] at h

end Parse

end DrawPlus
