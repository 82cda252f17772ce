import DrawPlus.Proofs.Target.Faithfulness
import DrawPlus.Proofs.Target.Order

/-!
# The names of an accepted program

The check keeps one scope for a whole program, while the generated language closes a scope with
every block. For an accepted program the two agree on the order of things: in the generated text
every use of a name comes after a declaration of the name, and no name is declared twice. They do
not agree on blocks. The uses in the generated text are all in scope exactly when the program itself
is block-scoped (`blockScoped`): no name that is declared inside a block is used after the block,
neither by the program nor by the lines at its end, which show cursors and use the size of the
window.

Words of the library are left out of the statement about order: the truth values, the colours, and
the word for a number that is too large.
-/

namespace DrawPlus

variable {ns : List Node} {n : Node} {s : Simple}

/-! ## Block-scoped programs -/

namespace Node

mutual

/-- The names that an expression uses in code: variables, and colours by their names in code. -/
def words : Node → List String
  | .number v => if v.isFinite then [] else ["inf"]
  | .color name none => [Dialect.standard.colorText name]
  | .color _ (some components) => wordsAll components
  | .variable (.text w) => [w]
  | .binary left _ right => left.words ++ right.words
  | _ => []

def wordsAll : List Node → List String
  | [] => []
  | n :: ns => n.words ++ wordsAll ns

end

def added : Node → List String
  | .varDecl _ (.text w) _ => [w]
  | .cursorCreation (.text w) _ _ => [w]
  | _ => []

def shows : Node → List String
  | .cursorMethod (.text w) (.text "visible") _ => [w]
  | _ => []

mutual

/-- A statement and the statements inside of it. -/
def flat : Node → List Node
  | .branch test body arms otherwise =>
    .branch test body arms otherwise :: (flatAll body ++ (flatArms arms ++ flatOtherwise otherwise))
  | .whileLoop test body => .whileLoop test body :: flatAll body
  | .forLoop init test update body =>
    .forLoop init test update body :: init :: update :: flatAll body
  | n => [n]

/-- The statements of a list and those inside of them. -/
def flatAll : List Node → List Node
  | [] => []
  | n :: ns => n.flat ++ flatAll ns

def flatArms : List (Node × List Node) → List Node
  | [] => []
  | (_, body) :: arms => flatAll body ++ flatArms arms

def flatOtherwise : Option (List Node) → List Node
  | none => []
  | some block => flatAll block

end

/-- Those of the words that are among the names are visible. -/
def seen (names visible : List String) (words : List String) : Bool :=
  words.all fun w => !names.contains w || visible.contains w

mutual

/-- Every use of one of the names in the statement is visible: its declaration is one of those in
`visible`, or stands before it in the same block or in a block around. -/
def scopedIn (names visible : List String) : Node → Bool
  | .varDecl _ (.text w) init => seen names (w :: visible) init.words
  | .assign (.text w) value => seen names visible (w :: value.words)
  | .cursorCreation (.text w) x y => seen names (w :: visible) (x.words ++ y.words)
  | .cursorMethod (.text w) method arguments =>
    seen names visible (w :: wordsAll (kept method arguments))
  | .drawCommand (.text w) shape arguments =>
    seen names visible (w :: wordsAll (kept shape arguments))
  | .branch test body arms otherwise =>
    seen names visible test.words && scopedAll names visible body &&
      scopedArms names visible arms && scopedOtherwise names visible otherwise
  | .whileLoop test body => seen names visible test.words && scopedAll names visible body
  | .forLoop init test update body =>
    init.scopedIn names visible && seen names (init.added ++ visible) test.words &&
      update.scopedIn names (init.added ++ visible) &&
      scopedAll names (update.added ++ (init.added ++ visible)) body
  | _ => true

/-- Every use of one of the names in the block is visible. -/
def scopedAll (names visible : List String) : List Node → Bool
  | [] => true
  | n :: ns => n.scopedIn names visible && scopedAll names (n.added ++ visible) ns

/-- Every use of one of the names in the further conditions and blocks of a branch is visible. -/
def scopedArms (names visible : List String) : List (Node × List Node) → Bool
  | [] => true
  | (test, body) :: arms =>
    seen names visible test.words && scopedAll names visible body && scopedArms names visible arms

/-- Every use of one of the names in the last block of a branch is visible. -/
def scopedOtherwise (names visible : List String) : Option (List Node) → Bool
  | none => true
  | some block => scopedAll names visible block

end

def names (ns : List Node) : List String := (flatAll ns).flatMap added

/-- A program is block-scoped if every use of a name that it declares is visible, also at its end,
where the cursors are shown and the size of the window is used. -/
def blockScoped (ns : List Node) : Bool :=
  scopedAll (names ns) [] ns && seen (names ns) (ns.flatMap added)
    ((flatAll ns).flatMap shows ++ ["windowWidth", "windowHeight"])

theorem seen_iff {names visible words : List String} :
    seen names visible words = true ↔ ∀ w ∈ words, w ∈ names → w ∈ visible := by
  simp [seen, imp_iff_not_or]

end Node

namespace Target

open Node

/-! ## Blocks leave no trace -/

/-- The frames after some names have been declared in the innermost block. -/
def Frames.declare (F : Frames) (ws : List String) : Frames
  | 0 => ws ++ F 0
  | d + 1 => F (d + 1)

/-- The name that a simple statement declares. -/
def Simple.added : Simple → List String
  | .declare _ _ w _ => [w]
  | _ => []

/-- The name that a statement declares in the block in which it stands. -/
def Stmt.added : Stmt → List String
  | .simple s => s.added
  | _ => []

section

variable (F : Frames)

@[simp] theorem Frames.declare_nil : F.declare [] = F := by
  funext d
  cases d <;> rfl

@[simp] theorem Frames.declare_declare (ws ws' : List String) :
    (F.declare ws).declare ws' = F.declare (ws' ++ ws) := by
  funext d
  cases d with
  | zero => exact (List.append_assoc _ _ _).symm
  | succ d => rfl

@[simp] theorem Frames.pass_uses (w : String) : F.pass (.uses w) = F := rfl

@[simp] theorem Frames.pass_declares (w : String) : F.pass (.declares w) = F.declare [w] := by
  funext d
  cases d <;> rfl

/-- What was declared in a block is gone when the block is closed. -/
@[simp] theorem Frames.pass_closes_declare (ws : List String) :
    ((F.pass .opens).declare ws).pass .closes = F := rfl

theorem passAll_simple_marks (s : Simple) : F.passAll (s.marks .names) = F.declare s.added := by
  cases s <;> simp [Simple.marks, Simple.added]

end

mutual

theorem passAll_marks (s : Stmt) (F : Frames) : F.passAll (s.marks .names) = F.declare s.added := by
  match s with
  | .simple s => exact passAll_simple_marks F s
  | .branch test body arms otherwise =>
    obtain ⟨ws, hbody⟩ := exists_passAll_marksAll body (F.pass .opens)
    simp [Stmt.marks, Stmt.added, hbody, passAll_armMarks arms, passAll_otherwiseMarks otherwise]
  | .whileLoop test body =>
    obtain ⟨ws, hbody⟩ := exists_passAll_marksAll body (F.pass .opens)
    simp [Stmt.marks, Stmt.added, hbody]
  | .forLoop init test update body =>
    obtain ⟨ws, hbody⟩ := exists_passAll_marksAll body
      (((F.pass .opens).declare (update.added ++ init.added)).pass .opens)
    simp [Stmt.marks, Stmt.added, passAll_simple_marks, hbody]

theorem exists_passAll_marksAll (ss : List Stmt) (F : Frames) :
    ∃ ws, F.passAll (Stmt.marksAll .names ss) = F.declare ws := by
  match ss with
  | [] => exact ⟨[], by simp [Stmt.marksAll]⟩
  | s :: ss =>
    obtain ⟨ws, hss⟩ := exists_passAll_marksAll ss (F.declare s.added)
    exact ⟨ws ++ s.added, by simp [Stmt.marksAll, passAll_marks s, hss]⟩

theorem passAll_armMarks (arms : List (Expr × List Stmt)) (F : Frames) :
    F.passAll (Stmt.armMarks .names arms) = F := by
  match arms with
  | [] => rfl
  | (test, body) :: arms =>
    obtain ⟨ws, hbody⟩ := exists_passAll_marksAll body (F.pass .opens)
    simp [Stmt.armMarks, hbody, passAll_armMarks arms]

theorem passAll_otherwiseMarks (otherwise : Option (List Stmt)) (F : Frames) :
    F.passAll (Stmt.otherwiseMarks .names otherwise) = F := by
  match otherwise with
  | none => rfl
  | some block =>
    obtain ⟨ws, hblock⟩ := exists_passAll_marksAll block (F.pass .opens)
    simp [Stmt.otherwiseMarks, hblock]

end

/-! ## Block-scoped programs have block-scoped code -/

/-- The visible names are those in the frames. -/
def Frames.Holds (F : Frames) (visible : List String) : Prop := ∀ w, w ∈ visible ↔ ∃ d, w ∈ F d

theorem Frames.holds_empty : Frames.empty.Holds [] := by
  simp [Frames.Holds, Frames.empty]

theorem Frames.Holds.pass_opens {F : Frames} {visible : List String} (h : F.Holds visible) :
    (F.pass .opens).Holds visible := by
  intro w
  rw [h w]
  constructor
  · rintro ⟨d, hd⟩
    exact ⟨d + 1, hd⟩
  · rintro ⟨d, hd⟩
    cases d with
    | zero => cases hd
    | succ d => exact ⟨d, hd⟩

theorem Frames.Holds.declare {F : Frames} {visible : List String} (h : F.Holds visible)
    (ws : List String) : (F.declare ws).Holds (ws ++ visible) := by
  intro w
  rw [List.mem_append, h w]
  constructor
  · rintro (hw | ⟨d, hd⟩)
    · exact ⟨0, List.mem_append_left _ hw⟩
    · cases d with
      | zero => exact ⟨0, List.mem_append_right _ hd⟩
      | succ d => exact ⟨d + 1, hd⟩
  · rintro ⟨d, hd⟩
    cases d with
    | zero => exact (List.mem_append.mp hd).imp_right fun hd => ⟨0, hd⟩
    | succ d => exact .inr ⟨d + 1, hd⟩

/-- The lists have the same words, apart from truth values. -/
def SameNames (ws ws' : List String) : Prop := ∀ w, IsName w → (w ∈ ws ↔ w ∈ ws')

theorem SameNames.append {ws ws' vs vs' : List String} (h : SameNames ws ws')
    (h' : SameNames vs vs') : SameNames (ws ++ vs) (ws' ++ vs') := by
  intro w hw
  rw [List.mem_append, List.mem_append, h w hw, h' w hw]

theorem SameNames.cons {ws ws' : List String} (h : SameNames ws ws') (v : String) :
    SameNames (v :: ws) (v :: ws') := by
  intro w hw
  rw [List.mem_cons, List.mem_cons, h w hw]

theorem sameNames_of_truth {v : String} (h : v = "true" ∨ v = "false") : SameNames [v] [] := by
  intro w hw
  have hfree := hw.free
  rcases h with rfl | rfl <;> simp only [List.mem_singleton, List.not_mem_nil, iff_false] <;>
    rintro rfl <;> revert hfree <;> decide

theorem sameNames_words {e : Expr} (h : TranslatesExpr n e) :
    SameNames (e.words .names) n.words := by
  induction h with
  | number _ hf => simp [SameNames, Expr.words, words, hf]
  | infinite _ hf => simp [SameNames, Expr.words, words, hf]
  | truth hw => exact sameNames_of_truth hw
  | hue h => simp [SameNames, Expr.words, words, colorText_name]
  | mixed _ _ _ hr hg hb =>
    have hnil : SameNames (Expr.wordsAll .names [.constant "255"]) [] := by
      simp [SameNames, Expr.wordsAll, Expr.words]
    exact hr.append (hg.append (hb.append hnil))
  | name _ => simp [SameNames, Expr.words, words]
  | binary _ _ _ _ hl hr => exact hl.append hr

theorem sameNames_wordsAll {es : List Expr} (h : List.Forall₂ TranslatesExpr ns es) :
    SameNames (Expr.wordsAll .names es) (wordsAll ns) := by
  induction h with
  | nil => simp [SameNames, Expr.wordsAll, wordsAll]
  | cons hn _ ih => exact (sameNames_words hn).append ih

theorem simple_added_of_translates (h : TranslatesStart n s) : s.added = n.added := by
  cases h <;> rfl

theorem added_of_translates {s : Stmt} (h : Translates n s) : s.added = n.added := by
  cases h with
  | start h => exact simple_added_of_translates h
  | _ => rfl

section

variable {names visible : List String} {F : Frames}

theorem scopedFrom_iff_seen (hnames : ∀ w ∈ names, IsName w) (hF : F.Holds visible)
    {ws ws' : List String} (hws : SameNames ws ws') :
    ScopedFrom names F (ws.map .uses) ↔ seen names visible ws' = true := by
  rw [scopedFrom_map_uses, seen_iff]
  constructor
  · intro h w hw hn
    exact (hF w).mpr (h w ((hws w (hnames w hn)).mpr hw) hn)
  · intro h w hw hn
    exact (hF w).mp (h w ((hws w (hnames w hn)).mp hw) hn)

theorem scopedFrom_start (hnames : ∀ w ∈ names, IsName w) (hF : F.Holds visible)
    (h : TranslatesStart n s) :
    ScopedFrom names F (s.marks .names) ↔ n.scopedIn names visible = true := by
  cases h with
  | @declaration k t w e e' _ _ he =>
    rw [Simple.marks_declare_names, scopedFrom_declares, Frames.pass_declares]
    exact scopedFrom_iff_seen hnames (hF.declare [w]) (sameNames_words he)
  | @assignment w e e' _ he =>
    exact scopedFrom_iff_seen hnames hF ((sameNames_words he).cons w)

theorem scopedFrom_call (hnames : ∀ w ∈ names, IsName w) (hF : F.Holds visible) {m f w : String}
    {k : ℕ} {es : List Expr} (hf : (m, f, k) ∈ changeCalls ++ drawCalls)
    (hes : List.Forall₂ TranslatesExpr ns es) :
    ScopedFrom names F ((Simple.call f (.word w :: es.take k)).marks .names) ↔
      seen names visible (w :: wordsAll (kept m ns)) = true := by
  rw [kept_call hf]
  exact scopedFrom_iff_seen hnames hF ((sameNames_wordsAll (List.forall₂_take k hes)).cons w)

end

mutual

theorem scopedFrom_of_translates {names visible : List String} {F : Frames}
    (hnames : ∀ w ∈ names, IsName w) (hF : F.Holds visible) {n : Node} {s : Stmt}
    (h : Translates n s) :
    ScopedFrom names F (s.marks .names) ↔ n.scopedIn names visible = true := by
  match h with
  | .start h => exact scopedFrom_start hnames hF h
  | @Translates.creation w x y x' y' _ hx hy =>
    have hwords := sameNames_wordsAll (.cons hx (.cons hy .nil))
    have hseen := scopedFrom_iff_seen hnames (hF.declare [w]) hwords
    rw [Stmt.marks, Simple.marks_declare_names, scopedFrom_declares, Frames.pass_declares]
    simpa [scopedIn, wordsAll, Expr.words] using hseen
  | .change _ hc hn _ => exact scopedFrom_call hnames hF (List.mem_append_left _ hc) hn
  | @Translates.thickness w n ns e es _ hn =>
    have hwords := sameNames_wordsAll (List.forall₂_take 1 hn)
    have hseen := scopedFrom_iff_seen hnames hF (hwords.cons w)
    simpa [scopedIn, Stmt.marks, Simple.marks, Expr.words, Expr.wordsAll, kept_thickness]
      using hseen
  | @Translates.visible w ns es _ hn =>
    exact scopedFrom_iff_seen hnames hF ((sameNames_of_truth (.inl rfl)).cons w)
  | .draw _ hc hn _ => exact scopedFrom_call hnames hF (List.mem_append_right _ hc) hn
  | @Translates.branch test body arms otherwise test' body' arms' otherwise' ht hb ha ho =>
    obtain ⟨ws, hbody⟩ := exists_passAll_marksAll body' (F.pass .opens)
    simp only [Stmt.marks, scopedIn, scopedFrom_append, scopedFrom_opens, scopedFrom_closes,
      Frames.passAll_map_uses, hbody, Frames.pass_closes_declare, passAll_armMarks,
      Bool.and_eq_true, and_assoc]
    rw [scopedFrom_iff_seen hnames hF (sameNames_words ht),
      scopedFrom_of_translatesAll hnames hF.pass_opens hb,
      scopedFrom_of_translatesArms hnames hF ha, scopedFrom_of_translatesOtherwise hnames hF ho]
  | @Translates.whileLoop test body test' body' ht hb =>
    simp only [Stmt.marks, scopedIn, scopedFrom_append, scopedFrom_opens, scopedFrom_closes,
      scopedFrom_nil, Frames.passAll_map_uses, Bool.and_eq_true, and_true]
    rw [scopedFrom_iff_seen hnames hF (sameNames_words ht),
      scopedFrom_of_translatesAll hnames hF.pass_opens hb]
  | @Translates.forLoop init test update body init' update' test' body' hi ht hu hb =>
    have hinner := hF.pass_opens.declare init.added
    simp only [Stmt.marks, scopedIn, scopedFrom_append, scopedFrom_opens, scopedFrom_closes,
      scopedFrom_nil, Frames.passAll_map_uses, passAll_simple_marks, simple_added_of_translates hi,
      simple_added_of_translates hu, Bool.and_eq_true, and_true, and_assoc]
    rw [scopedFrom_start hnames hF.pass_opens hi,
      scopedFrom_iff_seen hnames hinner (sameNames_words ht), scopedFrom_start hnames hinner hu,
      scopedFrom_of_translatesAll hnames (hinner.declare update.added).pass_opens hb]

theorem scopedFrom_of_translatesAll {names visible : List String} {F : Frames}
    (hnames : ∀ w ∈ names, IsName w) (hF : F.Holds visible) {ns : List Node} {ss : List Stmt}
    (h : TranslatesAll ns ss) :
    ScopedFrom names F (Stmt.marksAll .names ss) ↔ scopedAll names visible ns = true := by
  match h with
  | .nil => simp [Stmt.marksAll, scopedAll]
  | @TranslatesAll.cons n ns s ss hn hns =>
    rw [Stmt.marksAll, scopedFrom_append, passAll_marks, added_of_translates hn,
      scopedFrom_of_translates hnames hF hn,
      scopedFrom_of_translatesAll hnames (hF.declare n.added) hns, scopedAll, Bool.and_eq_true]

theorem scopedFrom_of_translatesArms {names visible : List String} {F : Frames}
    (hnames : ∀ w ∈ names, IsName w) (hF : F.Holds visible) {arms : List (Node × List Node)}
    {arms' : List (Expr × List Stmt)} (h : TranslatesArms arms arms') :
    ScopedFrom names F (Stmt.armMarks .names arms') ↔ scopedArms names visible arms = true := by
  match h with
  | .nil => simp [Stmt.armMarks, scopedArms]
  | @TranslatesArms.cons test body arms test' body' arms' ht hb ha =>
    obtain ⟨ws, hbody⟩ := exists_passAll_marksAll body' (F.pass .opens)
    simp only [Stmt.armMarks, scopedArms, scopedFrom_append, scopedFrom_opens, scopedFrom_closes,
      Frames.passAll_map_uses, hbody, Frames.pass_closes_declare, Bool.and_eq_true, and_assoc]
    rw [scopedFrom_iff_seen hnames hF (sameNames_words ht),
      scopedFrom_of_translatesAll hnames hF.pass_opens hb,
      scopedFrom_of_translatesArms hnames hF ha]

theorem scopedFrom_of_translatesOtherwise {names visible : List String} {F : Frames}
    (hnames : ∀ w ∈ names, IsName w) (hF : F.Holds visible) {otherwise : Option (List Node)}
    {otherwise' : Option (List Stmt)} (h : TranslatesOtherwise otherwise otherwise') :
    ScopedFrom names F (Stmt.otherwiseMarks .names otherwise') ↔
      scopedOtherwise names visible otherwise = true := by
  match h with
  | .none => simp [Stmt.otherwiseMarks, scopedOtherwise]
  | .empty => simp [Stmt.otherwiseMarks, scopedOtherwise, scopedAll]
  | .some hn =>
    simp only [Stmt.otherwiseMarks, scopedOtherwise, scopedFrom_opens, scopedFrom_append,
      scopedFrom_closes, scopedFrom_nil, and_true]
    exact scopedFrom_of_translatesAll hnames hF.pass_opens hn

end

/-! ## Names of a program and of its code -/

/-- The statements declare the names and show the cursors. -/
structure Accounts (ns : List Node) (ws cursors : List String) : Prop where
  declared_eq : ws = ns.flatMap added
  shown_eq : cursors = ns.flatMap shows
  isName : ∀ w ∈ ws, IsName w

theorem Accounts.append {ns' : List Node} {ws ws' cursors cursors' : List String}
    (h : Accounts ns ws cursors) (h' : Accounts ns' ws' cursors') :
    Accounts (ns ++ ns') (ws ++ ws') (cursors ++ cursors') := by
  refine ⟨?_, ?_, ?_⟩
  · rw [h.declared_eq, h'.declared_eq, List.flatMap_append]
  · rw [h.shown_eq, h'.shown_eq, List.flatMap_append]
  · rw [List.forall_mem_append]
    exact ⟨h.isName, h'.isName⟩

theorem Accounts.cons {n : Node} {ns : List Node} {ws cursors : List String} (hn : n.added = [])
    (hn' : n.shows = []) (h : Accounts ns ws cursors) : Accounts (n :: ns) ws cursors := by
  refine ⟨?_, ?_, h.isName⟩
  · rw [List.flatMap_cons, hn, List.nil_append, ← h.declared_eq]
  · rw [List.flatMap_cons, hn', List.nil_append, ← h.shown_eq]

theorem accounts_nil : Accounts [] [] [] := ⟨rfl, rfl, by simp⟩

theorem accounts_start (v : View) (h : TranslatesStart n s) :
    Accounts [n] (declared (s.marks v)) [] := by
  cases h with
  | declaration _ hw _ => refine ⟨?_, rfl, ?_⟩ <;> simp [Simple.marks, added, hw]
  | assignment _ _ => refine ⟨?_, rfl, ?_⟩ <;> simp [Simple.marks, added]

/-- A call of a method that does not show the cursor. -/
theorem shows_cursorMethod {w m : String} {ns : List Node} (h : m ≠ "visible") :
    (Node.cursorMethod w m ns).shows = [] := by
  unfold shows
  split
  case h_1 hm =>
    simp only [Node.cursorMethod.injEq, Value.text.injEq] at hm
    exact absurd hm.2.1 h
  case h_2 => rfl

mutual

theorem accounts_of_translates (v : View) {n : Node} {s : Stmt} (h : Translates n s) :
    Accounts n.flat (declared (s.marks v)) s.shown := by
  match h with
  | .start h =>
    cases h with
    | declaration hk hw he => exact accounts_start v (.declaration hk hw he)
    | assignment hw he => exact accounts_start v (.assignment hw he)
  | .creation hw _ _ => refine ⟨?_, rfl, ?_⟩ <;> simp [Stmt.marks, Simple.marks, flat, added, hw]
  | @Translates.change w m f k ns es _ hc _ _ =>
    have hall : ∀ entry ∈ changeCalls, entry.1 ≠ "visible" := by decide
    have hshown := shown_call (List.mem_append_left _ hc) (.word w :: es.take k)
    have hshows := @shows_cursorMethod w m ns (hall _ hc)
    refine ⟨?_, ?_, ?_⟩ <;>
      simp [Stmt.marks, Simple.marks, Stmt.shown, flat, added, hshown, hshows]
  | .thickness _ _ => refine ⟨?_, rfl, ?_⟩ <;> simp [Stmt.marks, Simple.marks, flat, added]
  | .visible _ _ =>
    refine ⟨?_, rfl, ?_⟩ <;> simp [Stmt.marks, Simple.marks, Simple.showing, flat, added]
  | @Translates.draw w m f k ns es _ hc _ _ =>
    have hshown := shown_call (List.mem_append_right _ hc) (.word w :: es.take k)
    refine ⟨?_, ?_, ?_⟩ <;>
      simp [Stmt.marks, Simple.marks, Stmt.shown, flat, added, shows, hshown]
  | @Translates.branch test body arms otherwise test' body' arms' otherwise' ht hb ha ho =>
    have hdeclared : declared ((Stmt.branch test' body' arms' otherwise').marks v) =
        declared (Stmt.marksAll v body') ++
          (declared (Stmt.armMarks v arms') ++ declared (Stmt.otherwiseMarks v otherwise')) := by
      simp [Stmt.marks]
    rw [hdeclared]
    exact .cons rfl rfl ((accounts_of_translatesAll v hb).append
      ((accounts_of_translatesArms v ha).append (accounts_of_translatesOtherwise v ho)))
  | @Translates.whileLoop test body test' body' ht hb =>
    have hdeclared : declared ((Stmt.whileLoop test' body').marks v) =
        declared (Stmt.marksAll v body') := by
      simp [Stmt.marks]
    rw [hdeclared]
    exact .cons rfl rfl (accounts_of_translatesAll v hb)
  | @Translates.forLoop init test update body init' update' test' body' hi ht hu hb =>
    have hdeclared : declared ((Stmt.forLoop init' test' update' body').marks v) =
        declared (init'.marks v) ++
          (declared (update'.marks v) ++ declared (Stmt.marksAll v body')) := by
      simp [Stmt.marks]
    rw [hdeclared]
    exact .cons rfl rfl ((accounts_start v hi).append
      ((accounts_start v hu).append (accounts_of_translatesAll v hb)))

theorem accounts_of_translatesAll (v : View) {ns : List Node} {ss : List Stmt}
    (h : TranslatesAll ns ss) :
    Accounts (flatAll ns) (declared (Stmt.marksAll v ss)) (Stmt.shownAll ss) := by
  match h with
  | .nil => exact accounts_nil
  | .cons hn hns =>
    rw [flatAll, Stmt.marksAll, Stmt.shownAll, declared_append]
    exact (accounts_of_translates v hn).append (accounts_of_translatesAll v hns)

theorem accounts_of_translatesArms (v : View) {arms : List (Node × List Node)}
    {arms' : List (Expr × List Stmt)} (h : TranslatesArms arms arms') :
    Accounts (flatArms arms) (declared (Stmt.armMarks v arms')) (Stmt.shownArms arms') := by
  match h with
  | .nil => exact accounts_nil
  | @TranslatesArms.cons test body arms test' body' arms' ht hb ha =>
    have hdeclared : declared (Stmt.armMarks v ((test', body') :: arms')) =
        declared (Stmt.marksAll v body') ++ declared (Stmt.armMarks v arms') := by
      simp [Stmt.armMarks]
    rw [hdeclared]
    exact (accounts_of_translatesAll v hb).append (accounts_of_translatesArms v ha)

theorem accounts_of_translatesOtherwise (v : View) {otherwise : Option (List Node)}
    {otherwise' : Option (List Stmt)} (h : TranslatesOtherwise otherwise otherwise') :
    Accounts (flatOtherwise otherwise) (declared (Stmt.otherwiseMarks v otherwise'))
      (Stmt.shownOtherwise otherwise') := by
  match h with
  | .none => exact accounts_nil
  | .empty => exact accounts_nil
  | @TranslatesOtherwise.some n ns ss hn =>
    have hdeclared :
        declared (Stmt.otherwiseMarks v (some ss)) = declared (Stmt.marksAll v ss) := by
      simp [Stmt.otherwiseMarks]
    rw [hdeclared]
    exact accounts_of_translatesAll v hn

end

theorem holds_of_translatesAll {F : Frames} {visible : List String} (hF : F.Holds visible)
    {ss : List Stmt} (h : TranslatesAll ns ss) :
    (F.passAll (Stmt.marksAll .names ss)).Holds (ns.flatMap added ++ visible) := by
  induction ns generalizing F visible ss with
  | nil =>
    cases h
    exact hF
  | cons n ns ih =>
    cases h with
    | cons hn hns =>
      rw [Stmt.marksAll, Frames.passAll_append, passAll_marks, added_of_translates hn]
      intro w
      rw [← ih (hF.declare n.added) hns w]
      simp only [List.flatMap_cons, List.mem_append]
      tauto

theorem marksAll_append (v : View) (ss ss' : List Stmt) :
    Stmt.marksAll v (ss ++ ss') = Stmt.marksAll v ss ++ Stmt.marksAll v ss' := by
  induction ss with
  | nil => rfl
  | cons s ss ih => simp only [List.cons_append, Stmt.marksAll, ih, List.append_assoc]

theorem marksAll_showings (cursors : List String) :
    Stmt.marksAll .names (showings cursors) = (cursors.flatMap fun w => [w, "true"]).map .uses := by
  induction cursors with
  | nil => rfl
  | cons w cursors ih =>
    rw [showings, List.map_cons, Stmt.marksAll, ← showings, ih]
    rfl

theorem declared_marksAll_showings (v : View) (cursors : List String) :
    declared (Stmt.marksAll v (showings cursors)) = [] := by
  induction cursors with
  | nil => rfl
  | cons w cursors ih =>
    rw [showings, List.map_cons, Stmt.marksAll, ← showings, declared_append, ih]
    simp [Stmt.marks, Simple.showing, Simple.marks]

/-- The uses of names after the statements of a program: cursors are shown, and the size of the
window is used. -/
theorem programMarks_append_showings (body : List Stmt) (cursors : List String) :
    programMarks (body ++ showings cursors) = Stmt.marksAll .names body ++
      ((cursors.flatMap fun w => [w, "true"]) ++ ["windowWidth", "windowHeight"]).map .uses := by
  rw [programMarks, marksAll_append, marksAll_showings, List.map_append, List.append_assoc]
  rfl

theorem sameNames_showings (cursors : List String) :
    SameNames (cursors.flatMap fun w => [w, "true"]) cursors := by
  induction cursors with
  | nil => simp [SameNames]
  | cons w cursors ih =>
    exact (SameNames.append (sameNames_of_truth (.inl rfl)) ih).cons w

/-- The code of a program is block-scoped exactly when the program is. -/
theorem scoped_programMarks_iff {body : List Stmt} (h : TranslatesAll ns body) :
    Scoped (declared (programMarks (body ++ showings (Stmt.shownAll body))))
      (programMarks (body ++ showings (Stmt.shownAll body))) ↔ blockScoped ns = true := by
  have haccounts := accounts_of_translatesAll .names h
  have hnames : declared (programMarks (body ++ showings (Stmt.shownAll body))) = names ns := by
    rw [programMarks_append_showings, declared_append, declared_map_uses, List.append_nil,
      haccounts.declared_eq, names]
  have hisName : ∀ w ∈ names ns, IsName w := by
    rw [names, ← haccounts.declared_eq]
    exact haccounts.isName
  have hend := holds_of_translatesAll Frames.holds_empty h
  have hlast : SameNames ((Stmt.shownAll body).flatMap (fun w => [w, "true"]) ++
      ["windowWidth", "windowHeight"])
      ((flatAll ns).flatMap shows ++ ["windowWidth", "windowHeight"]) := by
    rw [← haccounts.shown_eq]
    exact (sameNames_showings _).append fun _ _ => Iff.rfl
  rw [List.append_nil] at hend
  rw [hnames, scoped_iff, programMarks_append_showings, scopedFrom_append,
    scopedFrom_of_translatesAll hisName Frames.holds_empty h,
    scopedFrom_iff_seen hisName hend hlast, blockScoped, Bool.and_eq_true]

/-! ## Order in the code of an accepted program -/

theorem uses_of_mem_simple_shown {w : String} (h : w ∈ s.shown) : .uses w ∈ s.marks .names := by
  unfold Simple.shown at h
  split at h
  · obtain rfl := List.mem_singleton.mp h
    exact List.mem_cons_self
  · cases h

mutual

theorem uses_of_mem_shown (s : Stmt) {w : String} (h : w ∈ s.shown) : .uses w ∈ s.marks .names := by
  match s with
  | .simple s => exact uses_of_mem_simple_shown h
  | .branch test body arms otherwise =>
    simp only [Stmt.shown, List.mem_append] at h
    simp only [Stmt.marks, List.mem_append, List.mem_cons]
    rcases h with h | h | h
    · simp [uses_of_mem_shownAll body h]
    · simp [uses_of_mem_shownArms arms h]
    · simp [uses_of_mem_shownOtherwise otherwise h]
  | .whileLoop test body =>
    have hbody := uses_of_mem_shownAll body h
    simp [Stmt.marks, hbody]
  | .forLoop init test update body =>
    have hbody := uses_of_mem_shownAll body h
    simp [Stmt.marks, hbody]

theorem uses_of_mem_shownAll (ss : List Stmt) {w : String} (h : w ∈ Stmt.shownAll ss) :
    .uses w ∈ Stmt.marksAll .names ss := by
  match ss with
  | [] => cases h
  | s :: ss =>
    rw [Stmt.marksAll, List.mem_append]
    rcases List.mem_append.mp h with h | h
    · exact .inl (uses_of_mem_shown s h)
    · exact .inr (uses_of_mem_shownAll ss h)

theorem uses_of_mem_shownArms (arms : List (Expr × List Stmt)) {w : String}
    (h : w ∈ Stmt.shownArms arms) : .uses w ∈ Stmt.armMarks .names arms := by
  match arms with
  | [] => cases h
  | (test, body) :: arms =>
    simp only [Stmt.armMarks, List.mem_append, List.mem_cons]
    rcases List.mem_append.mp h with h | h
    · simp [uses_of_mem_shownAll body h]
    · simp [uses_of_mem_shownArms arms h]

theorem uses_of_mem_shownOtherwise (otherwise : Option (List Stmt)) {w : String}
    (h : w ∈ Stmt.shownOtherwise otherwise) : .uses w ∈ Stmt.otherwiseMarks .names otherwise := by
  match otherwise with
  | none => cases h
  | some block =>
    have hblock := uses_of_mem_shownAll block h
    simp [Stmt.otherwiseMarks, hblock]

end

theorem ordered_programMarks {body : List Stmt} (h : TranslatesAll ns body)
    (hc : (Node.program ns).check = .ok ()) :
    Ordered Check.libraryWords [] (programMarks (body ++ showings (Stmt.shownAll body))) := by
  obtain ⟨t, hall, hwindow⟩ := check_program_eq_ok.mp hc
  have hws : ∀ w ∈ (Stmt.shownAll body).flatMap fun w => [w, "true"],
      w ∈ Check.libraryWords ∨ .uses w ∈ Stmt.marksAll .names body := by
    intro w hw
    obtain ⟨cursor, hcursor, hw⟩ := List.mem_flatMap.mp hw
    rcases List.mem_cons.mp hw with rfl | hw
    · exact .inr (uses_of_mem_shownAll body hcursor)
    · obtain rfl := List.mem_singleton.mp hw
      exact .inl (by decide)
  have hmarked := ((Check.marked_of_translatesAll h).again hws).bind
    fun _ => Check.marked_windowDimensions
  obtain ⟨hordered, -⟩ := hmarked Check.knows_empty (bind_eq_ok.mpr ⟨(), t, hall, hwindow⟩)
  rw [programMarks_append_showings, List.map_append, ← List.append_assoc]
  exact hordered

/-! ## Accepted programs -/

/-- The code of an accepted program can be read back, and in it every name is declared before it is
used and declared once. Its uses of names are all in scope exactly when the program is
block-scoped. -/
theorem accepted_scoped_iff_blockScoped {source : String} {ns : List Node}
    (h : Node.ofText source = .ok (.program ns)) (hc : (Node.program ns).check = .ok ()) :
    ∃ text statements, (Node.program ns).code .standard = .ok text ∧
      readProgram text = some statements ∧
      (∀ before w after, programMarks statements = before ++ .uses w :: after →
        w ∉ Check.libraryWords → .declares w ∈ before) ∧
      (declared (programMarks statements)).Nodup ∧
      (Scoped (declared (programMarks statements)) (programMarks statements) ↔
        blockScoped ns = true) := by
  obtain ⟨ns', heq, hns⟩ := isStatement_of_ofText h
  obtain rfl := Node.program.inj heq
  obtain ⟨body, hbody⟩ := exists_translatesAll_of_check hns hc
  have hordered := ordered_programMarks hbody hc
  refine ⟨_, _, code_of_translates hbody, readProgram_of_translates hbody, ?_, ?_, ?_⟩
  · intro before w after hmarks hw
    rw [hmarks] at hordered
    exact hordered.declares_mem hw
  · simpa using hordered.nodup List.nodup_nil
  · exact scoped_programMarks_iff hbody

/-- The text is read as a program that is accepted and passes the test. -/
def accepts (source : String) (test : List Node → Bool) : Bool :=
  match Node.ofText source with
  | .ok (.program ns) => decide ((Node.program ns).check = .ok ()) && test ns
  | _ => false

theorem exists_of_accepts {source : String} {test : List Node → Bool}
    (h : accepts source test = true) : ∃ ns, Node.ofText source = .ok (.program ns) ∧
      (Node.program ns).check = .ok () ∧ test ns = true := by
  unfold accepts at h
  split at h
  case h_1 ns hns =>
    obtain ⟨hc, htest⟩ := Bool.and_eq_true_iff.mp h
    exact ⟨ns, hns, of_decide_eq_true hc, htest⟩
  case h_2 => cases h

def blockSource : String :=
  "var int windowWidth=400;var int windowHeight=400;while(true)\x7bvar int x=1;x=2;\x7d;"

theorem accepted_scoped_iff_blockScoped_while : ∃ ns text statements,
    Node.ofText blockSource = .ok (.program ns) ∧ (Node.program ns).check = .ok () ∧
      (Node.program ns).code .standard = .ok text ∧ readProgram text = some statements ∧
      Scoped (declared (programMarks statements)) (programMarks statements) := by
  have haccepted : accepts blockSource blockScoped = true := by decide +kernel
  obtain ⟨ns, hns, hc, hscoped⟩ := exists_of_accepts haccepted
  obtain ⟨text, statements, hcode, hread, -, -, hiff⟩ := accepted_scoped_iff_blockScoped hns hc
  exact ⟨ns, text, statements, hns, hc, hcode, hread, hiff.mpr hscoped⟩

def leakingSource : String :=
  "var int windowWidth=400;var int windowHeight=400;if(true)\x7bvar int x=1;\x7d;x=2;"

/-- A program can be accepted although its code uses a name out of scope. -/
theorem accepted_not_scoped : ∃ ns text statements,
    Node.ofText leakingSource = .ok (.program ns) ∧ (Node.program ns).check = .ok () ∧
      (Node.program ns).code .standard = .ok text ∧ readProgram text = some statements ∧
      ¬Scoped (declared (programMarks statements)) (programMarks statements) := by
  have haccepted : accepts leakingSource (fun ns => !blockScoped ns) = true := by decide +kernel
  obtain ⟨ns, hns, hc, hscoped⟩ := exists_of_accepts haccepted
  obtain ⟨ns', heq, hstatements⟩ := isStatement_of_ofText hns
  obtain rfl := Node.program.inj heq
  obtain ⟨body, hbody⟩ := exists_translatesAll_of_check hstatements hc
  refine ⟨ns, _, _, hns, hc, code_of_translates hbody, readProgram_of_translates hbody, ?_⟩
  rw [scoped_programMarks_iff hbody]
  simpa using hscoped

end Target

end DrawPlus
