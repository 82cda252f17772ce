import DrawPlus.Proofs.Target.Acceptance

/-!
# Code in other spellings

Whether the statements of a translated tree can be written does not depend on how types, operators
and colours are spelled. Actions on the page of a program are described by what is known of their
results (`Succeeds`), and an accepted program has code in every dialect that has header lines
(`exists_code_of_check`).
-/

namespace DrawPlus

namespace Emit

open Target

variable {α β : Type} {Q : α → Prop} {R : β → Prop}

/-- On the page of every program that has been begun the action succeeds, with such a result. -/
def Succeeds (Q : α → Prop) (x : Emit α) : Prop :=
  ∀ p : Page, p.shown.isSome → ∃ a p', x p = .ok a p' ∧ Q a ∧ p'.shown.isSome

/-- Results of which nothing is known. -/
def Any (_ : α) : Prop := True

theorem succeeds_pure {a : α} (h : Q a) : Succeeds Q (pure a) :=
  fun p hp => ⟨a, p, rfl, h, hp⟩

theorem Succeeds.bind {x : Emit α} {f : α → Emit β} (h : Succeeds Q x)
    (h' : ∀ a, Q a → Succeeds R (f a)) : Succeeds R (x >>= f) := by
  intro p hp
  obtain ⟨a, p', hx, ha, hp'⟩ := h p hp
  rw [bind_of_ok hx]
  exact h' a ha p' hp'

/-- What follows whatever the result is. -/
theorem Succeeds.andThen {x : Emit α} {f : α → Emit β} (h : Succeeds Q x)
    (h' : ∀ a, Succeeds R (f a)) : Succeeds R (x >>= f) :=
  h.bind fun a _ => h' a

theorem succeeds_change {f : Page → Page} (hf : ∀ p, (f p).shown = p.shown) :
    Succeeds Any (change f) :=
  fun p hp => ⟨(), f p, rfl, trivial, by rwa [hf]⟩

theorem succeeds_line (text : String) : Succeeds Any (line text) :=
  succeeds_change (f := (·.write text)) fun _ => rfl

theorem succeeds_page : Succeeds Any page :=
  fun p hp => ⟨p, p, rfl, trivial, hp⟩

/-- A call that takes so many of the texts. -/
theorem succeeds_taking {count : ℕ} {texts : List String} (h : count ≤ texts.length)
    (f : List String → String) :
    Succeeds Any (firstOf count texts >>= fun taken => line (f taken)) := by
  rw [firstOf, if_pos h]
  exact (succeeds_pure (Q := Any) trivial).andThen fun _ => succeeds_line _

theorem succeeds_remember (cursor : String) : Succeeds Any (remember cursor) := by
  intro p hp
  obtain ⟨cursors, hcursors⟩ := Option.isSome_iff_exists.mp hp
  exact ⟨(), { p with shown := some (cursors ++ [cursor]) }, by simp only [remember, hcursors],
    trivial, rfl⟩

/-! ## Trees -/

section

variable (d : Dialect)

theorem succeeds_of_translatesExpr {n : Node} {e : Expr} (h : TranslatesExpr n e) :
    Succeeds (·.isSome) (node d n) := by
  induction h with
  | number | infinite | name => exact succeeds_pure rfl
  | truth hw =>
    change Succeeds _ (truth _ >>= fun text => pure (some text))
    rw [truth_of_word hw]
    exact succeeds_pure rfl
  | hue h =>
    rw [node, isVoid_name]
    exact succeeds_pure rfl
  | mixed _ _ _ hr hg hb =>
    have hparts : Succeeds Any (components d [_, _, _]) :=
      hr.andThen fun _ => hg.andThen fun _ => hb.andThen fun _ => succeeds_pure trivial
    exact hparts.andThen fun _ => succeeds_pure rfl
  | binary _ _ _ _ hl hr => exact hl.andThen fun _ => hr.andThen fun _ => succeeds_pure rfl

theorem succeeds_arguments {ns : List Node} {es : List Expr}
    (h : List.Forall₂ TranslatesExpr ns es) :
    Succeeds (fun texts => texts.length = ns.length) (arguments d ns) := by
  induction h with
  | nil => exact succeeds_pure rfl
  | cons hn _ ih =>
    refine (succeeds_of_translatesExpr d hn).andThen fun _ => ih.bind fun texts hlength => ?_
    exact succeeds_pure (congrArg Nat.succ hlength)

theorem succeeds_of_translatesStart {n : Node} {s : Simple} (h : TranslatesStart n s) :
    Succeeds Any (node d n) := by
  have hline (text : String) : Succeeds Any (do line text; return (none : Option String)) :=
    (succeeds_line text).andThen fun _ => succeeds_pure trivial
  cases h with
  | declaration _ _ he =>
    rw [node_varDecl (ne_absent_of_translatesExpr he)]
    exact (succeeds_of_translatesExpr d he).andThen fun _ => hline _
  | assignment _ he => exact (succeeds_of_translatesExpr d he).andThen fun _ => hline _

/-- Statements one level deeper, and what follows them. -/
theorem Succeeds.inside {x : Emit Unit} (h : Succeeds Any x) {y : Emit β} (h' : Succeeds R y) :
    Succeeds R (do deeper; x; shallower; y) :=
  (succeeds_change (f := Page.deeper) fun _ => rfl).andThen fun _ => h.andThen fun _ =>
    (succeeds_change (f := Page.shallower) fun _ => rfl).andThen fun _ => h'

theorem succeeds_forLoop {init test update : Node} {body : List Node} {init' update' : Simple}
    {test' : Expr} (hi : TranslatesStart init init') (ht : TranslatesExpr test test')
    (hu : TranslatesStart update update') (hb : Succeeds Any (statements d body)) :
    Succeeds Any (node d (.forLoop init test update body)) := by
  refine succeeds_page.andThen fun before => ?_
  refine Succeeds.andThen (succeeds_change (by exact fun _ => rfl)) fun _ => ?_
  refine (succeeds_of_translatesStart d hi).andThen fun _ => succeeds_page.andThen fun _ => ?_
  refine Succeeds.andThen (succeeds_change (by exact fun _ => rfl)) fun _ => ?_
  refine (succeeds_of_translatesExpr d ht).bind fun text htext => ?_
  obtain ⟨text, rfl⟩ := Option.isSome_iff_exists.mp htext
  refine (succeeds_of_translatesStart d hu).andThen fun _ => succeeds_page.andThen fun _ => ?_
  refine Succeeds.andThen (succeeds_change (by exact fun _ => rfl)) fun _ => ?_
  refine (succeeds_line _).andThen fun _ => hb.inside ?_
  exact (succeeds_line _).andThen fun _ => succeeds_pure trivial

mutual

/-- A translated statement is written, however the words are spelled. -/
theorem succeeds_of_translates {n : Node} {s : Stmt} (h : Translates n s) :
    Succeeds Any (node d n) := by
  have hdone : Succeeds Any (pure none : Emit (Option String)) := succeeds_pure trivial
  have hclose : Succeeds Any (do line "\x7d"; return (none : Option String)) :=
    (succeeds_line _).andThen fun _ => hdone
  match h with
  | .start h => exact succeeds_of_translatesStart d h
  | .creation _ hx hy =>
    exact (succeeds_of_translatesExpr d hx).andThen fun _ =>
      (succeeds_of_translatesExpr d hy).andThen fun _ => (succeeds_line _).andThen fun _ => hdone
  | .change _ hc hn hk =>
    simp only [changeCalls, List.mem_cons, Prod.mk.injEq, List.not_mem_nil, or_false] at hc
    refine (succeeds_arguments d hn).bind fun texts hlength => Succeeds.andThen (Q := Any) ?_
      fun _ => hdone
    rcases hc with ⟨rfl, -, rfl⟩ | ⟨rfl, -, rfl⟩ | ⟨rfl, -, rfl⟩ <;>
      exact succeeds_taking (hlength ▸ hk) _
  | .thickness _ hn =>
    refine (succeeds_arguments d hn).bind fun texts hlength => Succeeds.andThen (Q := Any) ?_
      fun _ => hdone
    exact succeeds_taking (by rw [hlength]; exact Nat.le_add_left 1 _) _
  | .visible _ hn =>
    exact (succeeds_arguments d hn).andThen fun _ => Succeeds.andThen
      ((succeeds_line _).andThen fun _ => succeeds_remember _) fun _ => hdone
  | .draw _ hc hn hk =>
    simp only [drawCalls, List.mem_cons, Prod.mk.injEq, List.not_mem_nil, or_false] at hc
    refine (succeeds_arguments d hn).bind fun texts hlength => Succeeds.andThen (Q := Any) ?_
      fun _ => hdone
    rcases hc with ⟨rfl, -, rfl⟩ | ⟨rfl, -, rfl⟩ | ⟨rfl, -, rfl⟩ | ⟨rfl, -, rfl⟩ |
      ⟨rfl, -, rfl⟩ <;> exact succeeds_taking (hlength ▸ hk) _
  | .branch ht hb ha ho =>
    unfold node
    refine (succeeds_of_translatesExpr d ht).andThen fun _ => (succeeds_line _).andThen fun _ => ?_
    refine (succeeds_of_translatesAll hb).inside ?_
    refine (succeeds_of_translatesArms ha).andThen fun _ => ?_
    match ho with
    | .none => exact hclose
    | .empty => exact hclose
    | .some hn =>
      exact (succeeds_line _).andThen fun _ => (succeeds_of_translatesAll hn).inside hclose
  | .whileLoop ht hb =>
    exact (succeeds_of_translatesExpr d ht).andThen fun _ => (succeeds_line _).andThen fun _ =>
      (succeeds_of_translatesAll hb).inside hclose
  | .forLoop hi ht hu hb => exact succeeds_forLoop d hi ht hu (succeeds_of_translatesAll hb)

theorem succeeds_of_translatesAll {ns : List Node} {ss : List Stmt} (h : TranslatesAll ns ss) :
    Succeeds Any (statements d ns) := by
  match h with
  | .nil => exact succeeds_pure trivial
  | .cons hn hns =>
    exact (succeeds_of_translates hn).andThen fun _ => succeeds_of_translatesAll hns

theorem succeeds_of_translatesArms {arms : List (Node × List Node)}
    {arms' : List (Expr × List Stmt)} (h : TranslatesArms arms arms') :
    Succeeds Any (Emit.arms d arms) := by
  match h with
  | .nil => exact succeeds_pure trivial
  | .cons ht hb ha =>
    exact (succeeds_of_translatesExpr d ht).andThen fun _ => (succeeds_line _).andThen fun _ =>
      (succeeds_of_translatesAll hb).inside (succeeds_of_translatesArms ha)

end

end

theorem succeeds_opening (headers : List String) : Succeeds Any (opening headers) := by
  refine succeeds_change fun p => ?_
  have hwritten := congrArg Page.shown (foldl_write id headers p)
  exact hwritten

end Emit

/-! ## Programs -/

theorem code_of_no_headers {d : Dialect} (h : d.headers = none) (tree : Node) :
    tree.code d = .error .noHeaders := by
  have hprogram :
      Emit.program d tree .blank = .error .noHeaders { Page.blank with shown := some [] } := by
    unfold Emit.program
    rw [h]
    rfl
  rw [Node.code, hprogram]

/-- A translated program has code in every dialect that has header lines. -/
theorem exists_code_of_translates {d : Dialect} (hd : d.headers.isSome) {ns : List Node}
    {body : List Target.Stmt} (h : Target.TranslatesAll ns body) :
    ∃ code, (Node.program ns).code d = .ok code := by
  obtain ⟨headers, hd⟩ := Option.isSome_iff_exists.mp hd
  let begun : Page := ⟨[], 0, 0, some []⟩
  obtain ⟨_, opened, hopened, -, hshown⟩ := Emit.succeeds_opening headers begun rfl
  obtain ⟨_, written, hwritten, -, -⟩ := Emit.succeeds_of_translatesAll d h opened hshown
  -- nothing that is written after the statements can fail
  obtain ⟨code, p, hcode⟩ : ∃ code p, (do
      Emit.showCursors
      Emit.closing
      return (← Emit.page).text : Emit String) written = .ok code p := ⟨_, _, rfl⟩
  have hprogram : Emit.program d (.program ns) .blank = .ok code p := by
    unfold Emit.program
    rw [hd]
    have hbegun : Emit.change (fun p => { p with shown := some [] }) .blank = .ok () begun := rfl
    rw [bind_of_ok hbegun]
    exact (bind_of_ok hopened).trans ((bind_of_ok hwritten).trans hcode)
  exact ⟨code, by rw [Node.code, hprogram]⟩

/-- An accepted program has code in every dialect that has header lines. -/
theorem exists_code_of_check {d : Dialect} (hd : d.headers.isSome) {source : String} {tree : Node}
    (h : Node.ofText source = .ok tree) (hc : tree.check = .ok ()) :
    ∃ code, tree.code d = .ok code := by
  obtain ⟨ns, rfl, hns⟩ := isStatement_of_ofText h
  obtain ⟨body, hbody⟩ := exists_translatesAll_of_check hns hc
  exact exists_code_of_translates hd hbody

end DrawPlus
