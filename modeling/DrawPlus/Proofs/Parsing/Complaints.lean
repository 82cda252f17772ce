import DrawPlus.Proofs.Lexemes
import DrawPlus.Proofs.Parsing.Congruence
import DrawPlus.Proofs.Parsing.Expressions

/-!
# What the grammar complains about

A complaint is made at one of the tokens that are read, and it speaks of kinds only: of those that
the grammar wants, and of those that the tokens have. No rule goes back or makes a token of its own,
so that the tokens ahead of a rule are among those that were ahead of the rule before it.
-/

namespace DrawPlus

theorem Kind.isNative_iff {k : Kind} : k.IsNative ↔ k ∈ all := by
  constructor
  · intro h
    cases k with
    | other name => cases h
    | hue c => cases c <;> decide
    | _ => decide
  · intro h
    cases k with
    | other name => simp [all] at h
    | _ => trivial

theorem Token.Faithful.isNative {t : Token} (h : t.Faithful) : t.kind.IsNative := by
  cases h with
  | name _ | integer _ | decimal _ => trivial
  | @keyword w k l c hw =>
    have hall : ∀ e ∈ keywords, e.2 ∈ Kind.all := by decide
    exact Kind.isNative_iff.mpr (hall _ hw)
  | @sign w k l c hw =>
    cases k with
    | other name => cases hw
    | _ => trivial

theorem Token.Lexed.isNative {ts : List Token} (h : Token.Lexed ts) :
    ∀ t ∈ ts, t.kind.IsNative := by
  obtain ⟨body, last, rfl, hlast, hbody⟩ := h
  intro t ht
  rcases List.mem_append.mp ht with ht | ht
  · exact (hbody t ht).isNative
  · obtain rfl := List.mem_singleton.mp ht
    rw [hlast]
    trivial

namespace Parse

/-- On tokens of the language the action does not leave the tokens ahead, and it complains at one of
them if it does, of kinds of the language. -/
def Speaks {α : Type} (x : Parse α) : Prop :=
  ∀ f : Feed, (∀ t ∈ f.ahead, t.kind.IsNative) →
    (∀ a g, x f = .ok a g → g.ahead ⊆ f.ahead) ∧
    ∀ t c g, x f = .error (.found t c) g → t ∈ f.ahead ∧ c.SpeaksOf Kind.IsNative

section

variable {α β : Type}

theorem speaks_pure (a : α) : Speaks (pure a : Parse α) := by
  intro f _
  constructor
  · intro b g h
    obtain ⟨-, rfl⟩ := pure_eq_ok.mp h
    exact List.Subset.refl _
  · intro t c g h
    cases h

theorem Speaks.bind {x : Parse α} {F : α → Parse β} (hx : Speaks x) (hF : ∀ a, Speaks (F a)) :
    Speaks (x >>= F) := by
  intro f hf
  obtain ⟨hok, herror⟩ := hx f hf
  constructor
  · intro b g h
    obtain ⟨a, f', ha, hb⟩ := bind_eq_ok.mp h
    have hsub := hok a f' ha
    exact List.Subset.trans ((hF a f' fun t ht => hf t (hsub ht)).1 b g hb) hsub
  · intro t c g h
    rcases bind_eq_error.mp h with h | ⟨a, f', ha, h⟩
    · exact herror t c g h
    · have hsub := hok a f' ha
      exact ((hF a f' fun t ht => hf t (hsub ht)).2 t c g h).imp_left fun ht => hsub ht

theorem speaks_look {F : Token → Parse α} (h : ∀ t, t.kind.IsNative → Speaks (F t)) :
    Speaks (current >>= F) :=
  fun f hf => h f.current (hf _ List.mem_cons_self) f hf

theorem speaks_eat {k : Kind} (hk : k.IsNative) : Speaks (eat k) := by
  intro f hf
  by_cases hkind : f.current.kind = k
  · have heat : eat k f = .ok () f.next := if_pos hkind
    rw [heat]
    refine ⟨fun a g h => ?_, fun t c g h => ?_⟩
    · cases h
      exact f.ahead_next_subset
    · cases h
  · have heat : eat k f = .error (.found f.current (.expected k f.current.kind)) f := if_neg hkind
    rw [heat]
    refine ⟨fun a g h => ?_, fun t c g h => ?_⟩
    · cases h
    · cases h
      exact ⟨List.mem_cons_self, hk, hf _ List.mem_cons_self⟩

theorem speaks_complain {c : Complaint} (hc : c.SpeaksOf Kind.IsNative) :
    Speaks (complain c : Parse α) := by
  intro f _
  constructor
  · intro a g h
    cases h
  · intro t c' g h
    cases h
    exact ⟨List.mem_cons_self, hc⟩

theorem speaks_throw {e : SyntaxError} (he : ∀ t c, e ≠ .found t c) :
    Speaks (throw e : Parse α) := by
  refine fun f _ => ⟨fun a g h => absurd h throw_ne_ok, fun t c g h => ?_⟩
  cases h
  exact absurd rfl (he t c)

end

theorem congruence_speaks : Congruence Kind.IsNative fun x y => Speaks x ∧ Speaks y where
  native h := h
  pure a := and_self_iff.mpr (speaks_pure a)
  bind hx hF := ⟨hx.1.bind fun a => (hF a).1, hx.2.bind fun a => (hF a).2⟩
  look h := ⟨speaks_look fun t ht => (h t ht).1, speaks_look fun t ht => (h t ht).2⟩
  eat hk := and_self_iff.mpr (speaks_eat hk)
  complain hc := and_self_iff.mpr (speaks_complain hc)
  fail he := and_self_iff.mpr (speaks_throw he)
  within h := and_self_iff.mpr fun f => (h (depthBound f) 0).1 f
  giveUpLeft h := ⟨speaks_throw (by simp), h.2⟩
  giveUpRight h := ⟨h.1, speaks_throw (by simp)⟩

end Parse

/-- The grammar complains at one of the tokens, and of kinds of the language. -/
theorem speaksOf_of_ofTokens {tokens : List Token} (h : Token.Lexed tokens) {t : Token}
    {c : Complaint} (he : Node.ofTokens tokens = .error (.found t c)) :
    t ∈ tokens ∧ c.SpeaksOf Kind.IsNative := by
  unfold Node.ofTokens at he
  cases tokens with
  | nil => cases he
  | cons first rest =>
    simp only [Feed.ofTokens?] at he
    split at he
    case h_1 => cases he
    case h_2 e g hg =>
      cases he
      exact (Parse.congruence_speaks.program.1 ⟨first, rest, 0⟩ h.isNative).2 t c g hg

end DrawPlus
