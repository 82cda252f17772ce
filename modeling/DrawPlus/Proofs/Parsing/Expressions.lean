import DrawPlus.Proofs.Actions
import DrawPlus.Proofs.Grammar
import DrawPlus.Proofs.Lexemes
import DrawPlus.Tree.Parse

/-!
# Reading expressions by the grammar

Reading an expression succeeds on exactly the tokens that the grammar derives as one, and gives the
derived tree.

Each rule of the reader is first turned into a formula about the feeds before and after it
(the lemmas that end in `eq_ok`). Both directions then use the formulas only. From rule to grammar
the induction is on the bound on the depth of calls. From grammar to rule it is on the derivation,
and three calls for each token are deep enough.

A feed never runs out, since its last token stays in place. `Feed.Passes` therefore holds of lists
of any length, and the number of tokens left enters only where the bound on the depth does.
-/

namespace DrawPlus

variable {n : Node} {d : ℕ} {ts : List Token}

namespace Feed

/-- Taking the tokens `ts` one after the other leads from one feed to another. -/
def Passes : Feed → List Token → Feed → Prop
  | f, [], g => g = f
  | f, t :: ts, g => f.current = t ∧ f.next.Passes ts g

@[simp] theorem passes_nil {f g : Feed} : f.Passes [] g ↔ g = f := Iff.rfl

@[simp] theorem passes_cons {f g : Feed} {t : Token} :
    f.Passes (t :: ts) g ↔ f.current = t ∧ f.next.Passes ts g := Iff.rfl

theorem passes_append {f h : Feed} {us : List Token} :
    f.Passes (ts ++ us) h ↔ ∃ g, f.Passes ts g ∧ g.Passes us h := by
  induction ts generalizing f with
  | nil => simp
  | cons t ts ih =>
    simp only [List.cons_append, passes_cons, ih]
    constructor
    · rintro ⟨ht, g, hts, hus⟩
      exact ⟨g, ⟨ht, hts⟩, hus⟩
    · rintro ⟨g, ⟨ht, hts⟩, hus⟩
      exact ⟨ht, g, hts, hus⟩

theorem Passes.append {f g h : Feed} {us : List Token} (hf : f.Passes ts g) (hg : g.Passes us h) :
    f.Passes (ts ++ us) h :=
  passes_append.mpr ⟨g, hf, hg⟩

theorem passes_current (f : Feed) : f.Passes [f.current] f.next := ⟨rfl, rfl⟩

theorem rest_next (f : Feed) : f.next.rest = f.rest.tail := by
  unfold next
  cases f.rest <;> rfl

/-- The tokens ahead, the current one first. -/
def ahead (f : Feed) : List Token := f.current :: f.rest

theorem ahead_next_subset (f : Feed) : f.next.ahead ⊆ f.ahead := by
  unfold next ahead
  cases f.rest <;> simp

theorem Passes.subset {f g : Feed} (h : f.Passes ts g) : ts ⊆ f.ahead ∧ g.ahead ⊆ f.ahead := by
  induction ts generalizing f with
  | nil =>
    obtain rfl := h
    exact ⟨List.nil_subset _, List.Subset.refl _⟩
  | cons t ts ih =>
    obtain ⟨rfl, h⟩ := h
    have hnext := f.ahead_next_subset
    exact ⟨List.cons_subset.mpr ⟨List.mem_cons_self, List.Subset.trans (ih h).1 hnext⟩,
      List.Subset.trans (ih h).2 hnext⟩

end Feed

namespace Parse

open Grammar

variable {α : Type} {f g h : Feed}

/-! ## Formulas for the steps of a rule -/

@[simp] theorem current_eq_ok {t : Token} : current f = .ok t g ↔ t = f.current ∧ g = f := by
  change EStateM.Result.ok f.current f = .ok t g ↔ _
  rw [EStateM.Result.ok.injEq]
  exact and_congr eq_comm eq_comm

@[simp] theorem eat_eq_ok {k : Kind} {u : Unit} :
    eat k f = .ok u g ↔ f.current.kind = k ∧ g = f.next := by
  unfold eat
  split_ifs with hk
  · simp [hk, eq_comm]
  · simp [hk]

@[simp] theorem complain_ne_ok {c : Complaint} {a : α} : complain c f ≠ .ok a g := by
  simp [complain]

/-! ## Expressions -/

theorem sumWithin_eq_ok : sumWithin (d + 1) f = .ok n h ↔
    ∃ l g, productWithin d f = .ok l g ∧ sumTailWithin d l g = .ok n h := by
  simp [sumWithin]

theorem sumTailWithin_eq_ok {l : Node} : sumTailWithin (d + 1) l f = .ok n h ↔
    (f.current.kind ∈ [Kind.plus, .minus] ∧ ∃ r g, productWithin d f.next = .ok r g ∧
      sumTailWithin d (.binary l f.current.kind r) g = .ok n h) ∨
    (f.current.kind ∉ [Kind.plus, .minus] ∧ n = l ∧ h = f) := by
  simp [sumTailWithin]

theorem productWithin_eq_ok : productWithin (d + 1) f = .ok n h ↔
    ∃ l g, factorWithin d f = .ok l g ∧ productTailWithin d l g = .ok n h := by
  simp [productWithin]

theorem productTailWithin_eq_ok {l : Node} : productTailWithin (d + 1) l f = .ok n h ↔
    (f.current.kind ∈ [Kind.times, .slash, .modulo] ∧ ∃ r g, factorWithin d f.next = .ok r g ∧
      productTailWithin d (.binary l f.current.kind r) g = .ok n h) ∨
    (f.current.kind ∉ [Kind.times, .slash, .modulo] ∧ n = l ∧ h = f) := by
  simp [productTailWithin]

theorem factorWithin_eq_ok : factorWithin (d + 1) f = .ok n g ↔
    (f.current.kind = .number ∧ n = .number f.current.value ∧ g = f.next) ∨
    (f.current.kind = .boolValue ∧ n = .truth f.current.value ∧ g = f.next) ∨
    ((∃ c, f.current.kind = .hue c) ∧ n = .color f.current.value none ∧ g = f.next) ∨
    (f.current.kind = .identifier ∧ n = .variable f.current.value ∧ g = f.next) ∨
    (f.current.kind = .rgb ∧ f.next.current.kind = .leftParen ∧
      ∃ red f₁, sumWithin d f.next.next = .ok red f₁ ∧ f₁.current.kind = .comma ∧
      ∃ green f₂, sumWithin d f₁.next = .ok green f₂ ∧ f₂.current.kind = .comma ∧
      ∃ blue f₃, sumWithin d f₂.next = .ok blue f₃ ∧ f₃.current.kind = .rightParen ∧
      n = .color .absent (some [red, green, blue]) ∧ g = f₃.next) ∨
    (f.current.kind = .leftParen ∧ ∃ f₁, sumWithin d f.next = .ok n f₁ ∧
      f₁.current.kind = .rightParen ∧ g = f₁.next) := by
  constructor
  · intro h
    rw [factorWithin, bind_eq_ok] at h
    obtain ⟨t, f', hf, h⟩ := h
    obtain ⟨rfl, rfl⟩ := current_eq_ok.mp hf
    cases hk : f'.current.kind with
    | number | boolValue | hue | identifier | rgb | leftParen =>
      rw [hk] at h
      simpa [hk, and_assoc, and_comm] using h
    | _ =>
      rw [hk] at h
      exact absurd h complain_ne_ok
  · rintro (⟨hk, h⟩ | ⟨hk, h⟩ | ⟨⟨c, hk⟩, h⟩ | ⟨hk, h⟩ | ⟨hk, h⟩ | ⟨hk, h⟩) <;>
      simpa [factorWithin, hk, and_assoc, and_comm] using h

mutual

theorem sumWithin_sound : ∀ (d : ℕ) {f g : Feed} {n : Node}, sumWithin d f = .ok n g →
    ∃ ts, Sum ts n ∧ f.Passes ts g
  | 0, _, _, _, h => by simp [sumWithin] at h
  | d + 1, f, g, n, h => by
    obtain ⟨l, f₁, h₁, h₂⟩ := sumWithin_eq_ok.mp h
    obtain ⟨ts, hts, hp⟩ := productWithin_sound d h₁
    obtain ⟨us, hus, hq⟩ := sumTailWithin_sound d (.product hts) h₂
    exact ⟨ts ++ us, hus, hp.append hq⟩

theorem sumTailWithin_sound : ∀ (d : ℕ) {f g : Feed} {l n : Node} {ts : List Token}, Sum ts l →
    sumTailWithin d l f = .ok n g → ∃ us, Sum (ts ++ us) n ∧ f.Passes us g
  | 0, _, _, _, _, _, _, h => by simp [sumTailWithin] at h
  | d + 1, f, g, l, n, ts, hl, h => by
    obtain ⟨hk, r, f₁, h₁, h₂⟩ | ⟨-, rfl, rfl⟩ := sumTailWithin_eq_ok.mp h
    · obtain ⟨us, hus, hp⟩ := productWithin_sound d h₁
      obtain ⟨vs, hvs, hq⟩ := sumTailWithin_sound d (.more hl hk hus) h₂
      refine ⟨f.current :: us ++ vs, ?_, ⟨rfl, hp.append hq⟩⟩
      simpa using hvs
    · exact ⟨[], by simpa using hl, rfl⟩

theorem productWithin_sound : ∀ (d : ℕ) {f g : Feed} {n : Node}, productWithin d f = .ok n g →
    ∃ ts, Product ts n ∧ f.Passes ts g
  | 0, _, _, _, h => by simp [productWithin] at h
  | d + 1, f, g, n, h => by
    obtain ⟨l, f₁, h₁, h₂⟩ := productWithin_eq_ok.mp h
    obtain ⟨ts, hts, hp⟩ := factorWithin_sound d h₁
    obtain ⟨us, hus, hq⟩ := productTailWithin_sound d (.factor hts) h₂
    exact ⟨ts ++ us, hus, hp.append hq⟩

theorem productTailWithin_sound : ∀ (d : ℕ) {f g : Feed} {l n : Node} {ts : List Token},
    Product ts l → productTailWithin d l f = .ok n g → ∃ us, Product (ts ++ us) n ∧ f.Passes us g
  | 0, _, _, _, _, _, _, h => by simp [productTailWithin] at h
  | d + 1, f, g, l, n, ts, hl, h => by
    obtain ⟨hk, r, f₁, h₁, h₂⟩ | ⟨-, rfl, rfl⟩ := productTailWithin_eq_ok.mp h
    · obtain ⟨us, hus, hp⟩ := factorWithin_sound d h₁
      obtain ⟨vs, hvs, hq⟩ := productTailWithin_sound d (.more hl hk hus) h₂
      refine ⟨f.current :: us ++ vs, ?_, ⟨rfl, hp.append hq⟩⟩
      simpa using hvs
    · exact ⟨[], by simpa using hl, rfl⟩

theorem factorWithin_sound : ∀ (d : ℕ) {f g : Feed} {n : Node}, factorWithin d f = .ok n g →
    ∃ ts, Factor ts n ∧ f.Passes ts g
  | 0, _, _, _, h => by simp [factorWithin] at h
  | d + 1, f, g, n, h => by
    obtain ⟨hk, rfl, rfl⟩ | ⟨hk, rfl, rfl⟩ | ⟨⟨c, hk⟩, rfl, rfl⟩ | ⟨hk, rfl, rfl⟩ | hm | hp :=
      factorWithin_eq_ok.mp h
    · exact ⟨_, .number hk, f.passes_current⟩
    · exact ⟨_, .truth hk, f.passes_current⟩
    · exact ⟨_, .hue hk, f.passes_current⟩
    · exact ⟨_, .variable hk, f.passes_current⟩
    · obtain ⟨hw, ha, r, f₁, hr, hc, m, f₂, hm, hd, b, f₃, hb, hz, rfl, rfl⟩ := hm
      obtain ⟨rs, hrs, pr⟩ := sumWithin_sound d hr
      obtain ⟨gs, hgs, pg⟩ := sumWithin_sound d hm
      obtain ⟨bs, hbs, pb⟩ := sumWithin_sound d hb
      refine ⟨_, .mixed hw ha hrs hc hgs hd hbs hz, rfl, rfl, pr.append ⟨rfl, pg.append ⟨rfl, ?_⟩⟩⟩
      exact pb.append (Feed.passes_current _)
    · obtain ⟨ha, f₁, hn, hz, rfl⟩ := hp
      obtain ⟨ts, hts, hp⟩ := sumWithin_sound d hn
      exact ⟨_, .group ha hts hz, rfl, hp.append (Feed.passes_current _)⟩

end

end Parse

namespace Grammar

mutual

theorem Sum.length_pos {ts : List Token} {n : Node} : Sum ts n → 0 < ts.length
  | .product h => h.length_pos
  | .more _ _ _ => by simp

theorem Product.length_pos {ts : List Token} {n : Node} : Product ts n → 0 < ts.length
  | .factor h => h.length_pos
  | .more _ _ _ => by simp

theorem Factor.length_pos {ts : List Token} {n : Node} : Factor ts n → 0 < ts.length
  | .number _ | .truth _ | .hue _ | .variable _ => by simp
  | .mixed .. | .group .. => by simp

end

theorem kind_ne_endOfInput {k : Kind} {ks : List Kind} (h : k ∈ ks)
    (hks : Kind.endOfInput ∉ ks) : k ≠ .endOfInput := by
  rintro rfl
  exact hks h

mutual

theorem Sum.inside {ts : List Token} {n : Node} : Sum ts n → Token.Inside ts
  | .product h => h.inside
  | .more hl hop hr => by simp [hl.inside, hr.inside, kind_ne_endOfInput hop]

theorem Product.inside {ts : List Token} {n : Node} : Product ts n → Token.Inside ts
  | .factor h => h.inside
  | .more hl hop hr => by simp [hl.inside, hr.inside, kind_ne_endOfInput hop]

theorem Factor.inside {ts : List Token} {n : Node} : Factor ts n → Token.Inside ts
  | .number h | .truth h | .hue h | .variable h => by simp [h]
  | .mixed hw ha hr hc hg hd hb hz => by simp [hw, ha, hr.inside, hc, hg.inside, hd, hb.inside, hz]
  | .group ha hn hz => by simp [ha, hn.inside, hz]

end

end Grammar

namespace Parse

open Grammar

/-- From a call of depth `d` at `f`, reading a sum comes to ask for further summands after `n` at
`g`, and at most `k` calls have been spent on the way. -/
def SumReaches (f g : Feed) (d k : ℕ) (n : Node) : Prop :=
  ∃ e, d ≤ e + k ∧ ∀ {m : Node} {h : Feed}, sumTailWithin e n g = .ok m h → sumWithin d f = .ok m h

/-- From a call of depth `d` at `f`, reading a product comes to ask for further factors after `n`
at `g`, and at most `k` calls have been spent on the way. -/
def ProductReaches (f g : Feed) (d k : ℕ) (n : Node) : Prop :=
  ∃ e, d ≤ e + k ∧
    ∀ {m : Node} {h : Feed}, productTailWithin e n g = .ok m h → productWithin d f = .ok m h

theorem SumReaches.stop {f g : Feed} {k : ℕ} (h : SumReaches f g d k n) (hd : k < d)
    (hg : g.current.kind ∉ [Kind.plus, .minus]) : sumWithin d f = .ok n g := by
  obtain ⟨e, he, hs⟩ := h
  obtain ⟨e, rfl⟩ : ∃ e', e = e' + 1 := ⟨e - 1, by omega⟩
  exact hs (sumTailWithin_eq_ok.mpr (.inr ⟨hg, rfl, rfl⟩))

theorem ProductReaches.stop {f g : Feed} {k : ℕ} (h : ProductReaches f g d k n) (hd : k < d)
    (hg : g.current.kind ∉ [Kind.times, .slash, .modulo]) : productWithin d f = .ok n g := by
  obtain ⟨e, he, hs⟩ := h
  obtain ⟨e, rfl⟩ : ∃ e', e = e' + 1 := ⟨e - 1, by omega⟩
  exact hs (productTailWithin_eq_ok.mpr (.inr ⟨hg, rfl, rfl⟩))

theorem not_multiplicative_of_additive {k : Kind} (h : k ∈ [Kind.plus, .minus]) :
    k ∉ [Kind.times, .slash, .modulo] := by
  simp only [List.mem_cons, List.not_mem_nil, or_false] at h
  rcases h with rfl | rfl <;> decide

mutual

theorem sum_reaches {ts : List Token} {n : Node} : Sum ts n → ∀ {f g : Feed} {d : ℕ},
    f.Passes ts g → g.current.kind ∉ [Kind.times, .slash, .modulo] → 3 * ts.length ≤ d →
    SumReaches f g d ts.length n
  | .product hn, f, g, d, hp, hg, hd => by
    have hl := hn.length_pos
    obtain ⟨d, rfl⟩ : ∃ d', d = d' + 1 := ⟨d - 1, by omega⟩
    have hf := (product_reaches hn hp (d := d) (by omega)).stop (by omega) hg
    exact ⟨d, by omega, fun ht => sumWithin_eq_ok.mpr ⟨n, g, hf, ht⟩⟩
  | @Sum.more ts us op l r hn hop hr, f, g, d, hp, hg, hd => by
    have hl := hr.length_pos
    simp only [List.length_append, List.length_cons] at hd ⊢
    obtain ⟨g₁, hp₁, rfl, hp₂⟩ := Feed.passes_append.mp hp
    obtain ⟨e, he, hs⟩ := sum_reaches hn hp₁ (d := d) (not_multiplicative_of_additive hop)
      (by omega)
    obtain ⟨e, rfl⟩ : ∃ e', e = e' + 1 := ⟨e - 1, by omega⟩
    have hf := (product_reaches hr hp₂ (d := e) (by omega)).stop (by omega) hg
    exact ⟨e, by omega, fun ht => hs (sumTailWithin_eq_ok.mpr (.inl ⟨hop, _, g, hf, ht⟩))⟩

theorem product_reaches {ts : List Token} {n : Node} : Product ts n → ∀ {f g : Feed} {d : ℕ},
    f.Passes ts g → 3 * ts.length ≤ d + 1 → ProductReaches f g d ts.length n
  | .factor hn, f, g, d, hp, hd => by
    have hl := hn.length_pos
    obtain ⟨d, rfl⟩ : ∃ d', d = d' + 1 := ⟨d - 1, by omega⟩
    have hf := factor_complete hn hp (d := d) (by omega)
    exact ⟨d, by omega, fun ht => productWithin_eq_ok.mpr ⟨n, g, hf, ht⟩⟩
  | @Product.more ts us op l r hn hop hr, f, g, d, hp, hd => by
    have hl := hr.length_pos
    simp only [List.length_append, List.length_cons] at hd ⊢
    obtain ⟨g₁, hp₁, rfl, hp₂⟩ := Feed.passes_append.mp hp
    obtain ⟨e, he, hs⟩ := product_reaches hn hp₁ (d := d) (by omega)
    obtain ⟨e, rfl⟩ : ∃ e', e = e' + 1 := ⟨e - 1, by omega⟩
    have hf := factor_complete hr hp₂ (d := e) (by omega)
    exact ⟨e, by omega, fun ht => hs (productTailWithin_eq_ok.mpr (.inl ⟨hop, _, g, hf, ht⟩))⟩

theorem factor_complete {ts : List Token} {n : Node} : Factor ts n → ∀ {f g : Feed} {d : ℕ},
    f.Passes ts g → 3 * ts.length ≤ d + 2 → factorWithin d f = .ok n g
  | .number hk, f, g, d, hp, hd => by
    obtain ⟨d, rfl⟩ : ∃ d', d = d' + 1 := ⟨d - 1, by simp at hd; omega⟩
    obtain ⟨rfl, rfl⟩ := hp
    exact factorWithin_eq_ok.mpr (.inl ⟨hk, rfl, rfl⟩)
  | .truth hk, f, g, d, hp, hd => by
    obtain ⟨d, rfl⟩ : ∃ d', d = d' + 1 := ⟨d - 1, by simp at hd; omega⟩
    obtain ⟨rfl, rfl⟩ := hp
    exact factorWithin_eq_ok.mpr (.inr (.inl ⟨hk, rfl, rfl⟩))
  | .hue hk, f, g, d, hp, hd => by
    obtain ⟨d, rfl⟩ : ∃ d', d = d' + 1 := ⟨d - 1, by simp at hd; omega⟩
    obtain ⟨rfl, rfl⟩ := hp
    exact factorWithin_eq_ok.mpr (.inr (.inr (.inl ⟨⟨_, hk⟩, rfl, rfl⟩)))
  | .variable hk, f, g, d, hp, hd => by
    obtain ⟨d, rfl⟩ : ∃ d', d = d' + 1 := ⟨d - 1, by simp at hd; omega⟩
    obtain ⟨rfl, rfl⟩ := hp
    exact factorWithin_eq_ok.mpr (.inr (.inr (.inr (.inl ⟨hk, rfl, rfl⟩))))
  | .mixed hw ha hr hc hm hd' hb hz, f, g, d, hp, hd => by
    have hlr := hr.length_pos
    have hlm := hm.length_pos
    have hlb := hb.length_pos
    simp only [List.length_append, List.length_cons, List.length_nil] at hd
    obtain ⟨d, rfl⟩ : ∃ d', d = d' + 1 := ⟨d - 1, by omega⟩
    obtain ⟨rfl, rfl, hq₁⟩ := hp
    obtain ⟨f₁, hp₁, rfl, hq₂⟩ := Feed.passes_append.mp hq₁
    obtain ⟨f₂, hp₂, rfl, hq₃⟩ := Feed.passes_append.mp hq₂
    obtain ⟨f₃, hp₃, rfl, rfl⟩ := Feed.passes_append.mp hq₃
    have hf₁ := (sum_reaches hr hp₁ (d := d) (by simp [hc]) (by omega)).stop (by omega)
      (by simp [hc])
    have hf₂ := (sum_reaches hm hp₂ (d := d) (by simp [hd']) (by omega)).stop (by omega)
      (by simp [hd'])
    have hf₃ := (sum_reaches hb hp₃ (d := d) (by simp [hz]) (by omega)).stop (by omega)
      (by simp [hz])
    exact factorWithin_eq_ok.mpr (.inr (.inr (.inr (.inr (.inl ⟨hw, ha, _, f₁, hf₁, hc, _, f₂, hf₂,
      hd', _, f₃, hf₃, hz, rfl, rfl⟩)))))
  | .group ha hn hz, f, g, d, hp, hd => by
    have hl := hn.length_pos
    simp only [List.length_append, List.length_cons, List.length_nil] at hd
    obtain ⟨d, rfl⟩ : ∃ d', d = d' + 1 := ⟨d - 1, by omega⟩
    obtain ⟨rfl, hq⟩ := hp
    obtain ⟨f₁, hp₁, rfl, rfl⟩ := Feed.passes_append.mp hq
    have hf := (sum_reaches hn hp₁ (d := d) (by simp [hz]) (by omega)).stop (by omega)
      (by simp [hz])
    exact factorWithin_eq_ok.mpr (.inr (.inr (.inr (.inr (.inr ⟨ha, f₁, hf, hz, rfl⟩)))))

end

theorem sum_sound {f g : Feed} (h : sum f = .ok n g) : ∃ ts, Sum ts n ∧ f.Passes ts g :=
  sumWithin_sound _ h

/-- An expression is read to its end when no operator follows it. -/
theorem sum_complete {f g : Feed} (hn : Sum ts n) (hp : f.Passes ts g)
    (hl : ts.length ≤ f.rest.length) (hg : g.current.kind.isArithmetic = false) :
    sum f = .ok n g := by
  have hpos := hn.length_pos
  have hm : g.current.kind ∉ [Kind.times, .slash, .modulo] := by
    simp_all [Kind.isArithmetic]
  have ha : g.current.kind ∉ [Kind.plus, .minus] := by
    simp_all [Kind.isArithmetic]
  have hd : 3 * ts.length ≤ depthBound f := by
    unfold depthBound
    omega
  exact (sum_reaches hn hp hm hd).stop (by omega) ha

end Parse

end DrawPlus
