import DrawPlus.Proofs.Target.Layout
import DrawPlus.Proofs.Target.Reading

/-!
# What the code of a program tells

The code of a program read from a text is read back as the translation of the program, and programs
have the same code exactly when they have the same normal form. The normal form forgets three
things: whether an empty last block of a branch was written, whether a predefined colour was given
by its name or as a variable with the name it has in code, and the arguments of a call that are too
many.

Numbers that are too large to be written are left out: they would all be written alike.
-/

namespace DrawPlus.Target

/-! ## Translations are well-formed -/

theorem isWord_of_isName {w : String} (h : IsName w) : IsWord w := h.start

theorem notMem_reserved_of_isName {w : String} (h : IsName w) : w ∉ reserved := by
  have hall : ∀ w ∈ reserved, (keywords.lookup w).isSome = true := by decide
  intro hw
  have := hall w hw
  rw [h.free] at this
  cases this

theorem isWord_constant (h : Hue) : IsWord h.constant := by
  cases h <;> exact isWord_of_isAsciiWord (by decide)

theorem sign_mem_operators : ∀ op ∈ [Kind.plus, .minus, .times, .slash, .modulo, .less, .lessEqual,
    .greater, .greaterEqual, .equal, .notEqual], ∀ s ∈ op.sign?, s ∈ operators := by
  decide

theorem wf_of_translatesExpr {n : Node} {e : Expr} (h : TranslatesExpr n e) : e.WF := by
  induction h with
  | number hv hf => exact .constant (Value.isNumeral_display hv hf)
  | infinite _ _ => exact .word (isWord_of_isAsciiWord (by decide))
  | truth hw => rcases hw with rfl | rfl <;> exact .word (isWord_of_isAsciiWord (by decide))
  | hue h => exact .word (isWord_constant h)
  | mixed _ _ _ hr hg hb =>
    have hf : IsWord "custom_color" := isWord_of_isAsciiWord (by decide)
    have hnumeral : IsNumeral "255".toList := Value.isNumeral_display (.int 255) rfl
    have hcast : "Uint8" ∈ castTypes := by decide
    refine .call hf (by simp) ?_
    simp only [List.forall_mem_cons]
    exact ⟨.cast hcast hr, .cast hcast hg, .cast hcast hb, .constant hnumeral, by simp⟩
  | name hw => exact .word (isWord_of_isName hw)
  | binary _ hop hs _ hl hr =>
    exact .binary hl (sign_mem_operators _ (operator_cases hop) _ hs) hr

theorem wf_of_translatesStart {n : Node} {s : Simple} (h : TranslatesStart n s) : s.WF := by
  cases h with
  | @declaration k t w e e' hk hw he =>
    have htype : ∀ entry ∈ typeWords, isAsciiWord entry.2.toList = true ∧ entry.2 ∉ reserved := by
      decide
    exact .declare (isWord_of_isAsciiWord (htype (k, t) hk).1) (htype (k, t) hk).2
      (isWord_of_isName hw)
      (wf_of_translatesExpr he)
  | assignment hw he =>
    exact .assign (isWord_of_isName hw) (notMem_reserved_of_isName hw) (wf_of_translatesExpr he)

theorem wf_of_forall₂ {ns : List Node} {es : List Expr} (h : List.Forall₂ TranslatesExpr ns es) :
    ∀ e ∈ es, e.WF := by
  induction h with
  | nil => simp
  | cons hn _ ih =>
    rw [List.forall_mem_cons]
    exact ⟨wf_of_translatesExpr hn, ih⟩

theorem wf_call {m f w : String} {k : ℕ} {ns : List Node} {es : List Expr}
    (hf : (m, f, k) ∈ changeCalls ++ drawCalls) (hw : IsName w)
    (hes : List.Forall₂ TranslatesExpr ns es) : (Simple.call f (.word w :: es.take k)).WF := by
  have hall : ∀ entry ∈ changeCalls ++ drawCalls, isAsciiWord entry.2.1.toList = true ∧
      entry.2.1 ∉ reserved := by decide
  refine .call (isWord_of_isAsciiWord (hall _ hf).1) (hall _ hf).2 (by simp) ?_
  rw [List.forall_mem_cons]
  exact ⟨.word (isWord_of_isName hw), fun e he => wf_of_forall₂ hes e (List.mem_of_mem_take he)⟩

mutual

theorem wf_of_translates {n : Node} {s : Stmt} (h : Translates n s) : s.WF := by
  match h with
  | .start h => exact .simple (wf_of_translatesStart h)
  | .creation hw hx hy =>
    refine .simple (.declare (isWord_of_isAsciiWord (by decide)) (by decide) (isWord_of_isName hw)
      (.call (isWord_of_isAsciiWord (by decide)) (by simp) ?_))
    simp only [List.forall_mem_cons]
    exact ⟨wf_of_translatesExpr hx, wf_of_translatesExpr hy, by simp⟩
  | .change hw hc hn _ => exact .simple (wf_call (List.mem_append_left _ hc) hw hn)
  | .thickness hw hn =>
    have hcast : "int" ∈ castTypes := by decide
    exact .simple (.assignMember (isWord_of_isName hw) (notMem_reserved_of_isName hw)
      (isWord_of_isAsciiWord (by decide)) (.cast hcast (wf_of_forall₂ hn _ (by simp))))
  | .visible hw _ => exact .simple (wf_showing (isWord_of_isName hw))
  | .draw hw hc hn _ => exact .simple (wf_call (List.mem_append_right _ hc) hw hn)
  | .branch ht hb ha ho =>
    exact .branch (wf_of_translatesExpr ht) (wf_of_translatesAll hb)
      (fun arm h => (wf_of_translatesArms ha arm h).1)
      (fun arm h => (wf_of_translatesArms ha arm h).2) (wf_of_translatesOtherwise ho)
  | .whileLoop ht hb => exact .whileLoop (wf_of_translatesExpr ht) (wf_of_translatesAll hb)
  | .forLoop hi ht hu hb =>
    exact .forLoop (wf_of_translatesStart hi) (wf_of_translatesExpr ht) (wf_of_translatesStart hu)
      (wf_of_translatesAll hb)

theorem wf_of_translatesAll {ns : List Node} {ss : List Stmt} (h : TranslatesAll ns ss) :
    ∀ s ∈ ss, s.WF := by
  match h with
  | .nil => simp
  | .cons hn hns =>
    rw [List.forall_mem_cons]
    exact ⟨wf_of_translates hn, wf_of_translatesAll hns⟩

theorem wf_of_translatesArms {arms : List (Node × List Node)} {arms' : List (Expr × List Stmt)}
    (h : TranslatesArms arms arms') : ∀ arm ∈ arms', arm.1.WF ∧ ∀ s ∈ arm.2, s.WF := by
  match h with
  | .nil => simp
  | .cons ht hb ha =>
    rw [List.forall_mem_cons]
    exact ⟨⟨wf_of_translatesExpr ht, wf_of_translatesAll hb⟩, wf_of_translatesArms ha⟩

theorem wf_of_translatesOtherwise {otherwise : Option (List Node)}
    {otherwise' : Option (List Stmt)} (h : TranslatesOtherwise otherwise otherwise') :
    ∀ block ∈ otherwise', ∀ s ∈ block, s.WF := by
  match h with
  | .none => simp
  | .empty => simp
  | .some hn =>
    rintro block ⟨⟩
    exact wf_of_translatesAll hn

end

/-! ## Normal forms -/

end DrawPlus.Target

namespace DrawPlus.Node

open Target

/-- The arguments that a method takes. -/
def kept (method : Value) (arguments : List Node) : List Node :=
  match method with
  | .text m => (takes.lookup m).elim arguments arguments.take
  | _ => arguments

mutual

def normal : Node → Node
  | .program statements => .program (normalAll statements)
  | .varDecl type name init => .varDecl type name init.normal
  | .assign name value => .assign name value.normal
  | .cursorCreation name x y => .cursorCreation name x.normal y.normal
  | .cursorMethod cursor method arguments =>
    .cursorMethod cursor method (kept method (normalAll arguments))
  | .drawCommand cursor shape arguments =>
    .drawCommand cursor shape (kept shape (normalAll arguments))
  | .branch test body arms otherwise =>
    .branch test.normal (normalAll body) (normalArms arms) (normalOtherwise otherwise)
  | .whileLoop test body => .whileLoop test.normal (normalAll body)
  | .forLoop init test update body =>
    .forLoop init.normal test.normal update.normal (normalAll body)
  | .binary left operator right => .binary left.normal operator right.normal
  | .color name none => .variable (Dialect.standard.colorText name)
  | .color name (some components) => .color name (some (normalAll components))
  | other => other

def normalAll : List Node → List Node
  | [] => []
  | n :: ns => n.normal :: normalAll ns

/-- The normal forms of the further conditions of a branch and their blocks. -/
def normalArms : List (Node × List Node) → List (Node × List Node)
  | [] => []
  | (test, body) :: arms => (test.normal, normalAll body) :: normalArms arms

/-- The normal form of the last block of a branch; an empty block is left out. -/
def normalOtherwise : Option (List Node) → Option (List Node)
  | none => none
  | some [] => none
  | some (n :: ns) => some (n.normal :: normalAll ns)

end

theorem normalAll_eq_map (ns : List Node) : normalAll ns = ns.map normal := by
  induction ns with
  | nil => rfl
  | cons n ns ih => rw [normalAll, ih, List.map_cons]

mutual

def numbers : Node → List Value
  | .program statements => numbersAll statements
  | .varDecl _ _ init => init.numbers
  | .assign _ value => value.numbers
  | .cursorCreation _ x y => x.numbers ++ y.numbers
  | .cursorMethod _ _ arguments => numbersAll arguments
  | .drawCommand _ _ arguments => numbersAll arguments
  | .branch test body arms otherwise =>
    test.numbers ++ (numbersAll body ++ (numbersArms arms ++ numbersOtherwise otherwise))
  | .whileLoop test body => test.numbers ++ numbersAll body
  | .forLoop init test update body =>
    init.numbers ++ (test.numbers ++ (update.numbers ++ numbersAll body))
  | .binary left _ right => left.numbers ++ right.numbers
  | .number value => [value]
  | .color _ (some components) => numbersAll components
  | _ => []

def numbersAll : List Node → List Value
  | [] => []
  | n :: ns => n.numbers ++ numbersAll ns

/-- The literal numbers of the further conditions of a branch and their blocks. -/
def numbersArms : List (Node × List Node) → List Value
  | [] => []
  | (test, body) :: arms => test.numbers ++ (numbersAll body ++ numbersArms arms)

/-- The literal numbers of the last block of a branch. -/
def numbersOtherwise : Option (List Node) → List Value
  | none => []
  | some block => numbersAll block

end

/-- No literal number of the tree is infinite. -/
def HasFiniteNumbers (n : Node) : Prop := ∀ v ∈ n.numbers, v.isFinite = true

end DrawPlus.Node

namespace DrawPlus.Target

open Node

variable {n n' : Node} {ns : List Node} {f m w : String} {es : List Expr}

theorem isName_constant (h : Hue) : IsName h.constant := by
  refine ⟨isWord_constant h, ?_⟩
  cases h <;> decide

theorem normal_hue (h : Hue) : (Node.color h.name none).normal = .variable h.constant := by
  rw [normal, colorText_name]

/-- A method takes as many arguments as the function it calls. -/
theorem kept_call {k : ℕ} (h : (m, f, k) ∈ changeCalls ++ drawCalls) (ns : List Node) :
    kept m ns = ns.take k := by
  have hall : ∀ entry ∈ changeCalls ++ drawCalls, takes.lookup entry.1 = some entry.2.2 := by decide
  simp only [kept, hall _ h]
  rfl

theorem kept_thickness (ns : List Node) : kept "thickness" ns = ns.take 1 := rfl

/-! ### The normal form has the same translation -/

theorem translatesExpr_normal {e : Expr} (h : TranslatesExpr n e) : TranslatesExpr n.normal e := by
  induction h with
  | number hv hf => exact .number hv hf
  | infinite hv hf => exact .infinite hv hf
  | truth hw => exact .truth hw
  | hue h =>
    rw [normal_hue]
    exact .name (isName_constant h)
  | mixed _ _ _ hr hg hb => exact .mixed hr hg hb
  | name hw => exact .name hw
  | binary _ hop hs _ hl hr => exact .binary hl hop hs hr

theorem forall₂_normalAll (h : List.Forall₂ TranslatesExpr ns es) :
    List.Forall₂ TranslatesExpr (normalAll ns) es := by
  induction h with
  | nil => exact .nil
  | cons hn _ ih => exact .cons (translatesExpr_normal hn) ih

theorem forall₂_kept {k : ℕ} (h : (m, f, k) ∈ changeCalls ++ drawCalls)
    (hn : List.Forall₂ TranslatesExpr ns es) (hk : k ≤ ns.length) :
    List.Forall₂ TranslatesExpr (kept m (normalAll ns)) (es.take k) ∧
      k ≤ (kept m (normalAll ns)).length := by
  have hkept : List.Forall₂ TranslatesExpr (kept m (normalAll ns)) (es.take k) := by
    rw [kept_call h]
    exact List.forall₂_take k (forall₂_normalAll hn)
  refine ⟨hkept, ?_⟩
  rw [hkept.length_eq, List.length_take, ← hn.length_eq]
  omega

theorem translatesStart_normal {s : Simple} (h : TranslatesStart n s) :
    TranslatesStart n.normal s := by
  cases h with
  | declaration hk hw he => exact .declaration hk hw (translatesExpr_normal he)
  | assignment hw he => exact .assignment hw (translatesExpr_normal he)

mutual

theorem translates_normal {n : Node} {s : Stmt} (h : Translates n s) : Translates n.normal s := by
  match h with
  | .start h => exact .start (translatesStart_normal h)
  | .creation hw hx hy => exact .creation hw (translatesExpr_normal hx) (translatesExpr_normal hy)
  | @Translates.change w m f k ns es hw hc hn hk =>
    obtain ⟨hkept, hlen⟩ := forall₂_kept (List.mem_append_left _ hc) hn hk
    have hcall := Translates.change hw hc hkept hlen
    rwa [List.take_take, min_self] at hcall
  | .thickness hw hn => exact .thickness hw (List.forall₂_take 1 (forall₂_normalAll hn))
  | .visible hw _ => exact .visible hw .nil
  | @Translates.draw w m f k ns es hw hc hn hk =>
    obtain ⟨hkept, hlen⟩ := forall₂_kept (List.mem_append_right _ hc) hn hk
    have hcall := Translates.draw hw hc hkept hlen
    rwa [List.take_take, min_self] at hcall
  | .branch ht hb ha ho =>
    exact .branch (translatesExpr_normal ht) (translatesAll_normal hb) (translatesArms_normal ha)
      (translatesOtherwise_normal ho)
  | .whileLoop ht hb => exact .whileLoop (translatesExpr_normal ht) (translatesAll_normal hb)
  | .forLoop hi ht hu hb =>
    exact .forLoop (translatesStart_normal hi) (translatesExpr_normal ht)
      (translatesStart_normal hu) (translatesAll_normal hb)

theorem translatesAll_normal {ns : List Node} {ss : List Stmt} (h : TranslatesAll ns ss) :
    TranslatesAll (normalAll ns) ss := by
  match h with
  | .nil => exact .nil
  | .cons hn hns => exact .cons (translates_normal hn) (translatesAll_normal hns)

theorem translatesArms_normal {arms : List (Node × List Node)} {arms' : List (Expr × List Stmt)}
    (h : TranslatesArms arms arms') : TranslatesArms (normalArms arms) arms' := by
  match h with
  | .nil => exact .nil
  | .cons ht hb ha =>
    exact .cons (translatesExpr_normal ht) (translatesAll_normal hb) (translatesArms_normal ha)

theorem translatesOtherwise_normal {otherwise : Option (List Node)}
    {otherwise' : Option (List Stmt)} (h : TranslatesOtherwise otherwise otherwise') :
    TranslatesOtherwise (normalOtherwise otherwise) otherwise' := by
  match h with
  | .none => exact .none
  | .empty => exact .none
  | .some hn => exact .some (translatesAll_normal hn)

end

/-! ### The translation determines the normal form -/

theorem eq_of_sign : ∀ op ∈ [Kind.plus, .minus, .times, .slash, .modulo, .less, .lessEqual,
    .greater, .greaterEqual, .equal, .notEqual], ∀ op' ∈ [Kind.plus, .minus, .times, .slash,
    .modulo, .less, .lessEqual, .greater, .greaterEqual, .equal, .notEqual],
    op.sign? = op'.sign? → op = op' := by
  decide

/-- No variable and no colour in code is written like a truth value. -/
theorem not_isName_of_truth (hw : w = "true" ∨ w = "false") : ¬IsName w := by
  intro h
  have hall : (keywords.lookup "true").isSome = true ∧ (keywords.lookup "false").isSome = true := by
    decide
  have hfree := h.free
  rcases hw with rfl | rfl
  · rw [hfree] at hall
    simp at hall
  · rw [hfree] at hall
    simp at hall

/-- The words that a node other than a number or a call can stand for. -/
theorem normal_of_word (h : TranslatesExpr n (.word w)) (hf : n.HasFiniteNumbers) :
    (IsName w ∧ n.normal = .variable w) ∨
      ((w = "true" ∨ w = "false") ∧ n.normal = .truth w) := by
  cases h with
  | @infinite v _ hv =>
    have := hf v (by simp [numbers])
    rw [hv] at this
    cases this
  | truth hw => exact .inr ⟨hw, rfl⟩
  | hue h => exact .inl ⟨isName_constant h, normal_hue h⟩
  | name hw => exact .inl ⟨hw, rfl⟩

theorem normal_eq_of_word (h : TranslatesExpr n (.word w)) (h' : TranslatesExpr n' (.word w))
    (hf : n.HasFiniteNumbers) (hf' : n'.HasFiniteNumbers) : n.normal = n'.normal := by
  rcases normal_of_word h hf with ⟨hw, hn⟩ | ⟨hw, hn⟩ <;>
    rcases normal_of_word h' hf' with ⟨hw', hn'⟩ | ⟨hw', hn'⟩
  · rw [hn, hn']
  · exact absurd hw (not_isName_of_truth hw')
  · exact absurd hw' (not_isName_of_truth hw)
  · rw [hn, hn']

theorem number_of_constant {t : String} (h : TranslatesExpr n (.constant t)) :
    ∃ v, n = .number v ∧ v.IsLiteral ∧ v.isFinite = true ∧ v.display = t := by
  cases h with
  | number hv hf => exact ⟨_, rfl, hv, hf, rfl⟩

theorem normal_eq_of_translatesExpr {e : Expr} (h : TranslatesExpr n e) (h' : TranslatesExpr n' e)
    (hf : n.HasFiniteNumbers) (hf' : n'.HasFiniteNumbers) : n.normal = n'.normal := by
  induction h generalizing n' with
  | number hv hvf =>
    obtain ⟨v', rfl, hv', hvf', hd⟩ := number_of_constant h'
    rw [Value.eq_of_display hv' hv hvf' hvf hd]
  | infinite hv hvf => exact normal_eq_of_word (.infinite hv hvf) h' hf hf'
  | truth hw => exact normal_eq_of_word (.truth hw) h' hf hf'
  | hue h => exact normal_eq_of_word (.hue h) h' hf hf'
  | name hw => exact normal_eq_of_word (.name hw) h' hf hf'
  | mixed _ _ _ hr hg hb =>
    cases h' with
    | mixed hr' hg' hb' =>
      simp only [HasFiniteNumbers, numbers, numbersAll, List.forall_mem_append] at hf hf'
      simp only [normal, normalAll, hr hr' hf.1 hf'.1, hg hg' hf.2.1 hf'.2.1,
        hb hb' hf.2.2.1 hf'.2.2.1]
  | binary _ hop hs _ hl hr =>
    cases h' with
    | binary hl' hop' hs' hr' =>
      simp only [HasFiniteNumbers, numbers, List.forall_mem_append] at hf hf'
      rw [normal, normal, hl hl' hf.1 hf'.1, hr hr' hf.2 hf'.2,
        eq_of_sign _ (operator_cases hop) _ (operator_cases hop') (hs.trans hs'.symm)]

theorem normalAll_eq_of_forall₂ {ns' : List Node} (h : List.Forall₂ TranslatesExpr ns es)
    (h' : List.Forall₂ TranslatesExpr ns' es) (hf : ∀ n ∈ ns, n.HasFiniteNumbers)
    (hf' : ∀ n ∈ ns', n.HasFiniteNumbers) : normalAll ns = normalAll ns' := by
  induction h generalizing ns' with
  | nil =>
    cases h'
    rfl
  | cons hn _ ih =>
    cases h' with
    | cons hn' hns' =>
      rw [List.forall_mem_cons] at hf hf'
      rw [normalAll, normalAll, normal_eq_of_translatesExpr hn hn' hf.1 hf'.1, ih hns' hf.2 hf'.2]

theorem finite_of_numbersAll (h : ∀ v ∈ numbersAll ns, v.isFinite = true) :
    ∀ n ∈ ns, n.HasFiniteNumbers := by
  induction ns with
  | nil => simp
  | cons n ns ih =>
    rw [numbersAll, List.forall_mem_append] at h
    rw [List.forall_mem_cons]
    exact ⟨h.1, ih h.2⟩

/-- The arguments that a method takes are determined by their translations. -/
theorem kept_eq_of_forall₂ {k : ℕ} {ns' : List Node} {es' : List Expr}
    (hc : (m, f, k) ∈ changeCalls ++ drawCalls) (h : List.Forall₂ TranslatesExpr ns es)
    (h' : List.Forall₂ TranslatesExpr ns' es') (hes : es.take k = es'.take k)
    (hf : ∀ n ∈ ns, n.HasFiniteNumbers) (hf' : ∀ n ∈ ns', n.HasFiniteNumbers) :
    kept m (normalAll ns) = kept m (normalAll ns') := by
  have ht := List.forall₂_take k h
  have ht' := List.forall₂_take k h'
  rw [← hes] at ht'
  have heq := normalAll_eq_of_forall₂ ht ht' (fun n hn => hf n (List.mem_of_mem_take hn))
    fun n hn => hf' n (List.mem_of_mem_take hn)
  simp only [normalAll_eq_map, List.map_take] at heq
  rw [kept_call hc, kept_call hc, normalAll_eq_map, normalAll_eq_map, heq]

def invocation (draws : Bool) (w m : String) (ns : List Node) : Node :=
  if draws then .drawCommand w m ns else .cursorMethod w m ns

theorem normal_invocation (draws : Bool) (w m : String) (ns : List Node) :
    (invocation draws w m ns).normal = invocation draws w m (kept m (normalAll ns)) := by
  cases draws <;> rfl

theorem finite_invocation {draws : Bool} (h : (invocation draws w m ns).HasFiniteNumbers) :
    ∀ n ∈ ns, n.HasFiniteNumbers := by
  cases draws <;> exact finite_of_numbersAll h

def calls : List (Bool × String × String × ℕ) :=
  changeCalls.map (false, ·) ++ drawCalls.map (true, ·)

theorem call_unique :
    ∀ a ∈ calls, a.2.2.1 ≠ "set_cursor_visibility" ∧ a.2 ∈ changeCalls ++ drawCalls ∧
    ∀ b ∈ calls, a.2.2.1 = b.2.2.1 → a = b := by
  decide

/-- The node is a call of a method that calls the function with the arguments. -/
inductive Calls : Node → String → List Expr → Prop
  | call {draws : Bool} {w m f : String} {k : ℕ} {ns : List Node} {es as : List Expr} :
      (draws, m, f, k) ∈ calls → List.Forall₂ TranslatesExpr ns es → as = .word w :: es.take k →
      Calls (invocation draws w m ns) f as
  | visible {w f : String} {ns : List Node} {as : List Expr} : f = "set_cursor_visibility" →
      as = [.word w, .word "true"] → Calls (.cursorMethod w "visible" ns) f as

theorem calls_of_translates {as : List Expr} (h : Translates n (.simple (.call f as))) :
    Calls n f as := by
  cases h with
  | start h => cases h
  | @change w m _ k ns es _ hc hn _ =>
    have hcall : (false, m, f, k) ∈ calls := by simpa [calls] using hc
    exact .call hcall hn rfl
  | visible _ _ => exact .visible rfl rfl
  | @draw w m _ k ns es _ hc hn _ =>
    have hcall : (true, m, f, k) ∈ calls := by simpa [calls] using hc
    exact .call hcall hn rfl

theorem normal_eq_of_calls {as : List Expr} (h : Calls n f as) (h' : Calls n' f as)
    (hf : n.HasFiniteNumbers) (hf' : n'.HasFiniteNumbers) : n.normal = n'.normal := by
  obtain @⟨draws, w, m, _, k, ns, es, _, hc, hn, has⟩ | @⟨w, _, ns, _, hvisible, has⟩ := h <;>
    obtain @⟨draws', w', m', _, k', ns', es', _, hc', hn', has'⟩ |
      @⟨w', _, ns', _, hvisible', has'⟩ := h'
  · cases (call_unique _ hc).2.2 _ hc' rfl
    rw [has, List.cons.injEq] at has'
    obtain ⟨hw, hes⟩ := has'
    cases hw
    rw [normal_invocation, normal_invocation, kept_eq_of_forall₂ (call_unique _ hc).2.1 hn hn' hes
      (finite_invocation hf) (finite_invocation hf')]
  · exact absurd hvisible' (call_unique _ hc).1
  · exact absurd hvisible (call_unique _ hc').1
  · rw [has] at has'
    cases has'
    rfl

theorem normal_eq_of_translatesStart {s : Simple} (h : TranslatesStart n s)
    (h' : TranslatesStart n' s) (hf : n.HasFiniteNumbers) (hf' : n'.HasFiniteNumbers) :
    n.normal = n'.normal := by
  have htype : ∀ a ∈ typeWords, ∀ b ∈ typeWords, a.2 = b.2 → a = b := by decide
  cases h with
  | declaration hk _ he =>
    cases h' with
    | declaration hk' _ he' =>
      cases htype _ hk _ hk' rfl
      rw [normal, normal, normal_eq_of_translatesExpr he he' hf hf']
  | assignment _ he =>
    cases h' with
    | assignment _ he' => rw [normal, normal, normal_eq_of_translatesExpr he he' hf hf']

mutual

/-- Statements with the same translation have the same normal form. -/
theorem normal_eq_of_translates {n n' : Node} {s : Stmt} (h : Translates n s)
    (h' : Translates n' s) (hf : n.HasFiniteNumbers) (hf' : n'.HasFiniteNumbers) :
    n.normal = n'.normal := by
  match h with
  | .start hs =>
    cases h' with
    | start hs' => exact normal_eq_of_translatesStart hs hs' hf hf'
    | creation _ _ _ => cases hs
    | change _ _ _ _ => cases hs
    | thickness _ _ => cases hs
    | visible _ _ => cases hs
    | draw _ _ _ _ => cases hs
  | .creation _ hx hy =>
    cases h' with
    | start hs' => cases hs'
    | creation _ hx' hy' =>
      simp only [HasFiniteNumbers, numbers, List.forall_mem_append] at hf hf'
      rw [normal, normal, normal_eq_of_translatesExpr hx hx' hf.1 hf'.1,
        normal_eq_of_translatesExpr hy hy' hf.2 hf'.2]
  | .change hw hc hn hk =>
    exact normal_eq_of_calls (calls_of_translates (.change hw hc hn hk)) (calls_of_translates h')
      hf hf'
  | .thickness hw hn =>
    cases h' with
    | start hs' => cases hs'
    | thickness _ hn' =>
      obtain ⟨he, -⟩ := List.forall₂_cons.mp hn
      obtain ⟨he', -⟩ := List.forall₂_cons.mp hn'
      simp only [HasFiniteNumbers, numbers, numbersAll, List.forall_mem_append] at hf hf'
      rw [normal, normal, kept_thickness, kept_thickness, normalAll, normalAll, List.take_succ_cons,
        List.take_succ_cons, normal_eq_of_translatesExpr he he' hf.1 hf'.1]
      rfl
  | .visible hw hn =>
    exact normal_eq_of_calls (calls_of_translates (.visible hw hn)) (calls_of_translates h') hf hf'
  | .draw hw hc hn hk =>
    exact normal_eq_of_calls (calls_of_translates (.draw hw hc hn hk)) (calls_of_translates h')
      hf hf'
  | .branch ht hb ha ho =>
    cases h' with
    | branch ht' hb' ha' ho' =>
      simp only [HasFiniteNumbers, numbers, List.forall_mem_append] at hf hf'
      rw [normal, normal, normal_eq_of_translatesExpr ht ht' hf.1 hf'.1,
        normalAll_eq_of_translates hb hb' hf.2.1 hf'.2.1,
        normalArms_eq_of_translates ha ha' hf.2.2.1 hf'.2.2.1,
        normalOtherwise_eq_of_translates ho ho' hf.2.2.2 hf'.2.2.2]
  | .whileLoop ht hb =>
    cases h' with
    | whileLoop ht' hb' =>
      simp only [HasFiniteNumbers, numbers, List.forall_mem_append] at hf hf'
      rw [normal, normal, normal_eq_of_translatesExpr ht ht' hf.1 hf'.1,
        normalAll_eq_of_translates hb hb' hf.2 hf'.2]
  | .forLoop hi ht hu hb =>
    cases h' with
    | forLoop hi' ht' hu' hb' =>
      simp only [HasFiniteNumbers, numbers, List.forall_mem_append] at hf hf'
      rw [normal, normal, normal_eq_of_translatesStart hi hi' hf.1 hf'.1,
        normal_eq_of_translatesExpr ht ht' hf.2.1 hf'.2.1,
        normal_eq_of_translatesStart hu hu' hf.2.2.1 hf'.2.2.1,
        normalAll_eq_of_translates hb hb' hf.2.2.2 hf'.2.2.2]

theorem normalAll_eq_of_translates {ns ns' : List Node} {ss : List Stmt} (h : TranslatesAll ns ss)
    (h' : TranslatesAll ns' ss) (hf : ∀ v ∈ numbersAll ns, v.isFinite = true)
    (hf' : ∀ v ∈ numbersAll ns', v.isFinite = true) : normalAll ns = normalAll ns' := by
  match h with
  | .nil =>
    cases h'
    rfl
  | .cons hn hns =>
    cases h' with
    | cons hn' hns' =>
      simp only [numbersAll, List.forall_mem_append] at hf hf'
      rw [normalAll, normalAll, normal_eq_of_translates hn hn' hf.1 hf'.1,
        normalAll_eq_of_translates hns hns' hf.2 hf'.2]

theorem normalArms_eq_of_translates {as as' : List (Node × List Node)}
    {arms : List (Expr × List Stmt)} (h : TranslatesArms as arms) (h' : TranslatesArms as' arms)
    (hf : ∀ v ∈ numbersArms as, v.isFinite = true)
    (hf' : ∀ v ∈ numbersArms as', v.isFinite = true) : normalArms as = normalArms as' := by
  match h with
  | .nil =>
    cases h'
    rfl
  | .cons ht hb ha =>
    cases h' with
    | cons ht' hb' ha' =>
      simp only [numbersArms, List.forall_mem_append] at hf hf'
      rw [normalArms, normalArms, normal_eq_of_translatesExpr ht ht' hf.1 hf'.1,
        normalAll_eq_of_translates hb hb' hf.2.1 hf'.2.1,
        normalArms_eq_of_translates ha ha' hf.2.2 hf'.2.2]

theorem normalOtherwise_eq_of_translates {o o' : Option (List Node)} {block : Option (List Stmt)}
    (h : TranslatesOtherwise o block) (h' : TranslatesOtherwise o' block)
    (hf : ∀ v ∈ numbersOtherwise o, v.isFinite = true)
    (hf' : ∀ v ∈ numbersOtherwise o', v.isFinite = true) :
    normalOtherwise o = normalOtherwise o' := by
  match h with
  | .none => cases h' <;> rfl
  | .empty => cases h' <;> rfl
  | .some hn =>
    cases h' with
    | some hn' =>
      have heq := normalAll_eq_of_translates hn hn' hf hf'
      rw [normalOtherwise, normalOtherwise]
      exact congrArg Option.some heq

end

/-! ## Reading code back -/

theorem shownAll_append (ss ss' : List Stmt) :
    Stmt.shownAll (ss ++ ss') = Stmt.shownAll ss ++ Stmt.shownAll ss' := by
  induction ss with
  | nil => rfl
  | cons s ss ih => simp only [List.cons_append, Stmt.shownAll, ih, List.append_assoc]

theorem eq_nil_of_append_showings {body more : List Stmt}
    (h : showings (Stmt.shownAll body) = more ++ showings (Stmt.shownAll (body ++ more))) :
    more = [] := by
  have hlen := congrArg List.length h
  simp only [showings, shownAll_append, List.length_map, List.length_append] at hlen
  exact List.length_eq_zero_iff.mp (by omega)

/-- The statements that show cursors once more can be told from those before them. -/
theorem eq_of_append_showings {body body' : List Stmt}
    (h : body ++ showings (Stmt.shownAll body) = body' ++ showings (Stmt.shownAll body')) :
    body = body' := by
  rcases List.append_eq_append_iff.mp h with ⟨more, rfl, hmore⟩ | ⟨more, rfl, hmore⟩
  · rw [eq_nil_of_append_showings hmore, List.append_nil]
  · rw [eq_nil_of_append_showings hmore, List.append_nil]

theorem readProgram_of_translates {body : List Stmt} (h : TranslatesAll ns body) :
    readProgram (programText body) = some (body ++ showings (Stmt.shownAll body)) :=
  readProgram_programText (wf_of_translatesAll h)

/-- The code of a program read from a text is read back as its translation, with the statements that
show its cursors after it, and programs have the same code exactly when they have the same normal
form. -/
theorem same_code_iff_same_normal {source source' : String} {tree tree' : Node}
    {text text' : String} (h : Node.ofText source = .ok tree) (h' : Node.ofText source' = .ok tree')
    (hf : tree.HasFiniteNumbers) (hf' : tree'.HasFiniteNumbers)
    (hc : tree.code .standard = .ok text) (hc' : tree'.code .standard = .ok text') :
    (∃ ns body, tree = .program ns ∧ TranslatesAll ns body ∧
      readProgram text = some (body ++ showings (Stmt.shownAll body))) ∧
      (text = text' ↔ tree.normal = tree'.normal) := by
  obtain ⟨ns, rfl, hns⟩ := isStatement_of_ofText h
  obtain ⟨ns', rfl, hns'⟩ := isStatement_of_ofText h'
  obtain ⟨body, hbody, rfl⟩ := exists_translatesAll_of_code hns hc
  obtain ⟨body', hbody', rfl⟩ := exists_translatesAll_of_code hns' hc'
  refine ⟨⟨ns, body, rfl, hbody, readProgram_of_translates hbody⟩, ?_, ?_⟩
  · intro htext
    have hread := readProgram_of_translates hbody
    rw [htext, readProgram_of_translates hbody', Option.some.injEq] at hread
    obtain rfl := eq_of_append_showings hread
    rw [normal, normal, normalAll_eq_of_translates hbody hbody' hf hf']
  · intro hnormal
    rw [normal, normal, Node.program.injEq] at hnormal
    have hcode := code_of_translates (translatesAll_normal hbody)
    rw [hnormal, code_of_translates (translatesAll_normal hbody'), Except.ok.injEq] at hcode
    exact hcode.symm

/-- A colour by its name, and as a variable with an argument too many after it. -/
theorem same_code_iff_same_normal_red :
    let tree : Node := .program [.cursorMethod "c" "color" [.color "RED" none]]
    let tree' : Node := .program [.cursorMethod "c" "color" [.variable "red", .number (.int 1)]]
    Node.ofText "c.color(RED);" = .ok tree ∧ Node.ofText "c.color(red, 1);" = .ok tree' ∧
      tree.HasFiniteNumbers ∧ tree'.HasFiniteNumbers ∧ ∃ text text',
      tree.code .standard = .ok text ∧ tree'.code .standard = .ok text' ∧
      tree.normal = tree'.normal ∧ text = text' := by
  intro tree tree'
  have ht : Token.ofText "c.color(RED);" = .ok [⟨.identifier, "c", 1, 1⟩, ⟨.dot, ".", 1, 2⟩,
      ⟨.color, "color", 1, 3⟩, ⟨.leftParen, "(", 1, 8⟩, ⟨.hue .red, "RED", 1, 9⟩,
      ⟨.rightParen, ")", 1, 12⟩, ⟨.semicolon, ";", 1, 13⟩, ⟨.endOfInput, .absent, 1, 13⟩] := by
    decide +kernel
  have ht' : Token.ofText "c.color(red, 1);" = .ok [⟨.identifier, "c", 1, 1⟩, ⟨.dot, ".", 1, 2⟩,
      ⟨.color, "color", 1, 3⟩, ⟨.leftParen, "(", 1, 8⟩, ⟨.identifier, "red", 1, 9⟩,
      ⟨.comma, ",", 1, 12⟩, ⟨.number, .int 1, 1, 14⟩, ⟨.rightParen, ")", 1, 15⟩,
      ⟨.semicolon, ";", 1, 16⟩, ⟨.endOfInput, .absent, 1, 16⟩] := by
    decide +kernel
  have h : Node.ofText "c.color(RED);" = .ok tree := ofText_of_ofTokens ht rfl
  have h' : Node.ofText "c.color(red, 1);" = .ok tree' := ofText_of_ofTokens ht' rfl
  have hf : tree.HasFiniteNumbers := by simp [tree, HasFiniteNumbers, numbers, numbersAll]
  have hf' : tree'.HasFiniteNumbers := by
    simp [tree', HasFiniteNumbers, numbers, numbersAll, Value.isFinite]
  have hname : IsName "c" := ⟨isWord_iff.mpr (by decide), by decide⟩
  have hcall : ("color", "set_cursor_color", 1) ∈ changeCalls := by decide
  have hcode := code_of_translates
    (.cons (.change hname hcall (.cons (.hue .red) .nil) le_rfl) .nil)
  have hcode' := code_of_translates (.cons (.change hname hcall
    (.cons (.name (isName_constant .red)) (.cons (.number (.int 1) rfl) .nil)) (by decide)) .nil)
  have hnormal : tree.normal = tree'.normal := by
    have hred : Dialect.standard.colorText "RED" = "red" := colorText_name .red
    simp only [tree, tree', normal, normalAll, hred]
    rfl
  exact ⟨h, h', hf, hf', _, _, hcode, hcode', hnormal,
    (same_code_iff_same_normal h h' hf hf' hcode hcode').2.mpr hnormal⟩

/-- An argument too many does not show in the code. -/
theorem same_code_of_surplus_argument :
    let tree : Node := .program [.cursorMethod "c" "move" [.number (.int 1), .number (.int 2)]]
    let tree' : Node := .program [.cursorMethod "c" "move" [.number (.int 1)]]
    Node.ofText "c.move(1, 2);" = .ok tree ∧ Node.ofText "c.move(1);" = .ok tree' ∧
      tree ≠ tree' ∧ tree.code .standard = tree'.code .standard := by
  intro tree tree'
  have ht : Token.ofText "c.move(1, 2);" = .ok [⟨.identifier, "c", 1, 1⟩, ⟨.dot, ".", 1, 2⟩,
      ⟨.move, "move", 1, 3⟩, ⟨.leftParen, "(", 1, 7⟩, ⟨.number, .int 1, 1, 8⟩, ⟨.comma, ",", 1, 9⟩,
      ⟨.number, .int 2, 1, 11⟩, ⟨.rightParen, ")", 1, 12⟩, ⟨.semicolon, ";", 1, 13⟩,
      ⟨.endOfInput, .absent, 1, 13⟩] := by
    decide +kernel
  have ht' : Token.ofText "c.move(1);" = .ok [⟨.identifier, "c", 1, 1⟩, ⟨.dot, ".", 1, 2⟩,
      ⟨.move, "move", 1, 3⟩, ⟨.leftParen, "(", 1, 7⟩, ⟨.number, .int 1, 1, 8⟩,
      ⟨.rightParen, ")", 1, 9⟩, ⟨.semicolon, ";", 1, 10⟩, ⟨.endOfInput, .absent, 1, 10⟩] := by
    decide +kernel
  have hname : IsName "c" := ⟨isWord_iff.mpr (by decide), by decide⟩
  have hcall : ("move", "move_cursor", 1) ∈ changeCalls := by decide
  have hnumber (n : ℕ) : TranslatesExpr (.number (.int n)) _ := .number (.int n) rfl
  have hcode := code_of_translates (.cons (.change hname hcall
    (.cons (hnumber 1) (.cons (hnumber 2) .nil)) (by decide)) .nil)
  have hcode' := code_of_translates
    (.cons (.change hname hcall (.cons (hnumber 1) .nil) le_rfl) .nil)
  refine ⟨ofText_of_ofTokens ht rfl, ofText_of_ofTokens ht' rfl, ?_, hcode.trans hcode'.symm⟩
  simp [tree, tree']

end DrawPlus.Target
