import DrawPlus.Proofs.Target.Translation

/-!
# Writing a translation

Writing the code of a translated tree succeeds and writes the lines of its translation. Actions on
pages are described by the lines they add (`Writes`), and `Writes` is closed under what the writer
does with actions: one after the other, and one level deeper. A loop over a range is the one
statement that goes its own way, since its header is written on a page of its own.
-/

namespace DrawPlus.Target

open Emit

variable {n : Node} {k : ℕ} {e : Expr} {s : Simple}

/-! ## What actions write -/

/-- The action gives `a`, and on every page it writes the lines, at the level of the page, and
changes nothing else. -/
def WritesFlat {α : Type} (x : Emit α) (a : α) (lines : ℕ → List String) : Prop :=
  ∀ p : Page, x p = .ok a { p with lines := p.lines ++ lines p.indent }

/-- The action gives `a`, and on every page of a program it writes the lines, at the level of the
page, and notes the cursors to be shown. It leaves the level as it was. -/
def Writes {α : Type} (x : Emit α) (a : α) (lines : ℕ → List String) (shown : List String) : Prop :=
  ∀ p : Page, ∀ cursors, p.shown = some cursors → ∃ k, x p = .ok a
    ⟨p.lines ++ lines p.indent, p.indent, k, some (cursors ++ shown)⟩

section

variable {α β : Type} {x : Emit α} {f : α → Emit β} {a : α} {b : β}
  {lines lines' : ℕ → List String} {shown shown' : List String}

theorem WritesFlat.writes (h : WritesFlat x a lines) : Writes x a lines [] := by
  intro p cursors hp
  refine ⟨p.loopIndent, ?_⟩
  rw [h p, List.append_nil, ← hp]

theorem Writes.bind (h : Writes x a lines shown) (h' : Writes (f a) b lines' shown') :
    Writes (x >>= f) b (fun i => lines i ++ lines' i) (shown ++ shown') := by
  intro p cursors hp
  obtain ⟨k, hk⟩ := h p cursors hp
  obtain ⟨k', hk'⟩ := h' ⟨p.lines ++ lines p.indent, p.indent, k, some (cursors ++ shown)⟩ _ rfl
  refine ⟨k', ?_⟩
  rw [bind_of_ok hk, hk']
  simp only [List.append_assoc]

theorem writesFlat_line (text : String) :
    WritesFlat (line text) () fun i => [indented i text] := fun _ => rfl

/-- What is written between a step down and a step up is written one level deeper. -/
theorem Writes.inside {x : Emit Unit} (h : Writes x () lines shown) {f : Unit → Emit β}
    (h' : Writes (f ()) b lines' shown') :
    Writes (do deeper; x; shallower; f ()) b (fun i => lines (i + 1) ++ lines' i)
      (shown ++ shown') := by
  intro p cursors hp
  obtain ⟨k, hk⟩ := h p.deeper cursors hp
  obtain ⟨k', hk'⟩ :=
    h' ⟨p.lines ++ lines (p.indent + 1), p.indent, k, some (cursors ++ shown)⟩ _ rfl
  refine ⟨k', ?_⟩
  have hd : deeper p = .ok () p.deeper := rfl
  have hs : shallower ⟨p.lines ++ lines (p.indent + 1), p.indent + 1, k, some (cursors ++ shown)⟩ =
    .ok () ⟨p.lines ++ lines (p.indent + 1), p.indent, k, some (cursors ++ shown)⟩ := rfl
  rw [bind_of_ok hd, bind_of_ok hk]
  change (shallower >>= fun _ => f ()) ⟨p.lines ++ lines (p.indent + 1), p.indent + 1, k, _⟩ = _
  rw [bind_of_ok hs, hk']
  simp only [List.append_assoc]

end

/-! ## Writing expressions -/

theorem operatorText_of_sign : ∀ op ∈ [Kind.plus, .minus, .times, .slash, .modulo, .less,
    .lessEqual, .greater, .greaterEqual, .equal, .notEqual], ∀ s ∈ op.sign?,
    Dialect.standard.operatorText op = s := by
  decide

theorem typeText_of_typeWords : ∀ e ∈ typeWords, Dialect.standard.typeText (some e.1) = e.2 := by
  decide

theorem colorText_name (h : Hue) : Dialect.standard.colorText h.name = h.constant := by
  cases h <;> decide

theorem isVoid_name (h : Hue) : (Value.text h.name).isVoid = false := by
  cases h <;> rfl

theorem truth_of_word {w : String} (h : w = "true" ∨ w = "false") :
    Emit.truth w = pure w := by
  rcases h with rfl | rfl <;> rfl

theorem mixed_eq (r g b : Expr) : Emit.mixed r.text g.text b.text =
    (Expr.call "custom_color"
      [.cast "Uint8" r, .cast "Uint8" g, .cast "Uint8" b, .constant "255"]).text := by
  simp only [Expr.text, Expr.texts, String.intercalate_cons_cons, String.intercalate_singleton]
  delta Emit.mixed
  apply String.toList_inj.mp
  simp only [String.toList_append, String.reduceToList, List.cons_append, List.nil_append,
    List.append_assoc]

/-- The code of an expression is the text of its translation, and nothing is written. -/
theorem node_of_translatesExpr (h : TranslatesExpr n e) (p : Page) :
    node .standard n p = .ok (some e.text) p := by
  induction h with
  | number _ _ => rfl
  | infinite hv hf =>
    change EStateM.Result.ok (some (Value.display _)) p = _
    rw [Value.display_of_infinite hv hf]
    rfl
  | truth hw =>
    change (truth _ >>= fun text => pure (some text)) p = _
    rw [truth_of_word hw]
    rfl
  | hue h =>
    change (if (Value.text h.name).isVoid then _ else
      pure (some (Dialect.standard.colorText h.name)) : Emit (Option String)) p = _
    rw [isVoid_name, colorText_name]
    rfl
  | mixed _ _ _ hr hg hb =>
    rw [← mixed_eq]
    change (components .standard _ >>= fun text => pure (some text)) p = _
    rw [components, bind_of_ok (t := p) (a := Emit.mixed _ _ _)]
    · rfl
    rw [bind_of_ok hr, bind_of_ok hg, bind_of_ok hb]
    rfl
  | name _ => rfl
  | binary _ hop hs _ hl hr =>
    refine (bind_of_ok hl).trans ((bind_of_ok hr).trans ?_)
    rw [operatorText_of_sign _ (operator_cases hop) _ hs]
    rfl

theorem arguments_of_translates {ns : List Node} {es : List Expr}
    (h : List.Forall₂ TranslatesExpr ns es) (p : Page) :
    arguments .standard ns p = .ok (Expr.texts es) p := by
  induction h with
  | nil => rfl
  | cons hn _ ih =>
    rw [arguments, bind_of_ok (node_of_translatesExpr hn p), bind_of_ok ih]
    rfl

/-! ## Writing statements -/

theorem ne_absent_of_translatesExpr (h : TranslatesExpr n e) : n ≠ .absent := by
  rintro rfl
  cases h

theorem node_varDecl {d : Dialect} {type : Option Kind} {name : Value} {init : Node}
    (h : init ≠ .absent) : node d (.varDecl type name init) = (do
      let value ← node d init
      line (d.typeText type ++ " " ++ name.display ++ " = " ++ inCode value ++ ";")
      return none) := by
  cases init with
  | absent => exact absurd rfl h
  | _ => rfl

theorem writesFlat_of_translatesStart (h : TranslatesStart n s) :
    WritesFlat (node .standard n) none fun i => [indented i (s.text ++ ";")] := by
  intro p
  cases h with
  | declaration hk hw he =>
    rw [node_varDecl (ne_absent_of_translatesExpr he), bind_of_ok (node_of_translatesExpr he p),
      typeText_of_typeWords _ hk, bind_of_ok (writesFlat_line _ p)]
    simp only [Simple.text, Bool.false_eq_true, if_false, String.append_empty]
    rfl
  | assignment hw he =>
    exact (bind_of_ok (node_of_translatesExpr he p)).trans (bind_of_ok (writesFlat_line _ p))

theorem writes_call (f : String) (es : List Expr) :
    WritesFlat (call f (Expr.texts es)) () fun i =>
      [indented i ((Simple.call f es).text ++ ";")] := by
  have h : (Simple.call f es).text ++ ";" =
      f ++ "(" ++ ", ".intercalate (Expr.texts es) ++ ");" := by
    rw [Simple.text, String.append_assoc]
    rfl
  rw [h]
  exact writesFlat_line _

theorem writes_remember (cursor : String) : Writes (remember cursor) () (fun _ => []) [cursor] := by
  intro p cursors hp
  refine ⟨p.loopIndent, ?_⟩
  simp only [remember, hp, List.append_nil]

theorem firstOf_texts {es : List Expr} (h : k ≤ es.length) (p : Page) :
    firstOf k (Expr.texts es) p = .ok (Expr.texts (es.take k)) p := by
  rw [firstOf, if_pos (by rw [Expr.texts_eq_map, List.length_map]; exact h)]
  simp only [Expr.texts_eq_map, List.map_take]
  rfl

theorem writes_firstOf {w f : String} {es : List Expr} (h : k ≤ es.length) :
    WritesFlat (do call f (w :: (← firstOf k (Expr.texts es)))) () fun i =>
      [indented i ((Simple.call f (.word w :: es.take k)).text ++ ";")] := by
  intro p
  rw [bind_of_ok (firstOf_texts h p)]
  exact writes_call f (.word w :: es.take k) p

theorem writes_change {w m f : String} {es : List Expr} (h : (m, f, k) ∈ changeCalls)
    (hk : k ≤ es.length) : WritesFlat (method w m (Expr.texts es)) () fun i =>
      [indented i ((Simple.call f (.word w :: es.take k)).text ++ ";")] := by
  simp only [changeCalls, List.mem_cons, Prod.mk.injEq, List.not_mem_nil, or_false] at h
  rcases h with ⟨rfl, rfl, rfl⟩ | ⟨rfl, rfl, rfl⟩ | ⟨rfl, rfl, rfl⟩ <;> exact writes_firstOf hk

theorem writes_draw {w m f : String} {es : List Expr} (h : (m, f, k) ∈ drawCalls)
    (hk : k ≤ es.length) : WritesFlat (shape w m (Expr.texts es)) () fun i =>
      [indented i ((Simple.call f (.word w :: es.take k)).text ++ ";")] := by
  simp only [drawCalls, List.mem_cons, Prod.mk.injEq, List.not_mem_nil, or_false] at h
  rcases h with ⟨rfl, rfl, rfl⟩ | ⟨rfl, rfl, rfl⟩ | ⟨rfl, rfl, rfl⟩ | ⟨rfl, rfl, rfl⟩ |
    ⟨rfl, rfl, rfl⟩ <;> exact writes_firstOf hk

theorem writes_thickness (w : String) (e : Expr) (es : List Expr) :
    WritesFlat (method w "thickness" (Expr.texts (e :: es))) () fun i =>
      [indented i ((Simple.assignMember w "thickness" (.cast "int" e)).text ++ ";")] := by
  intro p
  have h : (Simple.assignMember w "thickness" (.cast "int" e)).text ++ ";" =
      w ++ "->thickness = (int)" ++ String.join [e.text] ++ ";" := by
    apply String.toList_inj.mp
    simp only [Simple.text, Expr.text, String.toList_append, String.reduceToList, List.cons_append,
      List.nil_append, List.append_assoc, String.toList_join, List.flatMap_cons, List.flatMap_nil,
      List.append_nil]
  rw [h]
  rfl

theorem writes_visible (w : String) (texts : List String) :
    Writes (method w "visible" texts) () (fun i => [indented i ((Simple.showing w).text ++ ";")])
      [w] := by
  exact (writes_call "set_cursor_visibility" [.word w, .word "true"]).writes.bind
    (f := fun _ => remember w) (writes_remember w)

theorem writes_creation {w : String} {x y : Node} {x' y' : Expr} (hx : TranslatesExpr x x')
    (hy : TranslatesExpr y y') : WritesFlat (node .standard (.cursorCreation w x y)) none fun i =>
      [indented i ((Simple.declare "Cursor" true w (.call "create_cursor" [x', y'])).text ++
        ";")] := by
  intro p
  have h : (Simple.declare "Cursor" true w (.call "create_cursor" [x', y'])).text ++ ";" =
      "Cursor* " ++ w ++ " = create_cursor(" ++ x'.text ++ ", " ++ y'.text ++ ");" := by
    apply String.toList_inj.mp
    simp only [Simple.text, Expr.text, Expr.texts, String.intercalate_cons_cons, if_true,
      String.intercalate_singleton, String.toList_append, String.reduceToList, List.cons_append,
      List.nil_append, List.append_assoc]
  rw [h]
  exact (bind_of_ok (node_of_translatesExpr hx p)).trans
    ((bind_of_ok (node_of_translatesExpr hy p)).trans (bind_of_ok (writesFlat_line _ p)))

/-! ## The header of a loop -/

theorem trim_of_ends {c z : Char} {rest : List Char} (hc : Text.isBlank c = false)
    (hz : Text.isBlank z = false) :
    Text.trim (List.replicate k ' ' ++ (c :: (rest ++ [z]))) = c :: (rest ++ [z]) := by
  have hl : Text.trimLeft (List.replicate k ' ' ++ (c :: (rest ++ [z]))) = c :: (rest ++ [z]) := by
    rw [Text.trimLeft, List.dropWhile_append_of_pos, List.dropWhile_cons_of_neg (by simp [hc])]
    intro d hd
    rw [List.eq_of_mem_replicate hd]
    rfl
  rw [Text.trim, hl, Text.trimRight]
  simp [hz]

theorem begins_of_translatesStart (h : TranslatesStart n s) :
    ∃ c rest, s.text.toList = c :: rest ∧ Text.isBlank c = false := by
  cases h with
  | declaration hk _ _ =>
    simp only [typeWords, List.mem_cons, Prod.mk.injEq, List.not_mem_nil, or_false] at hk
    simp only [Simple.text, String.toList_append]
    rcases hk with ⟨-, rfl⟩ | ⟨-, rfl⟩ | ⟨-, rfl⟩ | ⟨-, rfl⟩ <;> exact ⟨_, _, rfl, rfl⟩
  | assignment hw _ =>
    obtain ⟨⟨c, rest, hc, hstart, -⟩, -⟩ := hw
    simp only [Simple.text, String.toList_append, hc]
    exact ⟨c, _, rfl, isBlank_of_isWordStart hstart⟩

/-- A page with one line of a simple statement on it, run together. -/
theorem joined_start (h : TranslatesStart n s) (p : Page) (i : ℕ)
    (hp : p.lines = [indented i (s.text ++ ";")]) : p.joined = s.text ++ ";" := by
  obtain ⟨c, rest, hs, hc⟩ := begins_of_translatesStart h
  have ht : (s.text ++ ";").toList = c :: (rest ++ [';']) := by
    rw [String.toList_append, hs]
    rfl
  rw [Page.joined, hp, ← String.toList_inj, String.toList_ofList, String.toList_join,
    List.flatMap_cons,
    List.flatMap_nil, List.append_nil, indented, String.toList_append, String.toList_ofList, ht]
  exact trim_of_ends hc rfl

theorem withoutSemicolon_append (t : String) : withoutSemicolon (t ++ ";") = t := by
  have h : (t ++ ";").toList = t.toList ++ [';'] := String.toList_append
  rw [withoutSemicolon, h]
  simp

theorem withoutSemicolon_of_plain {t : String} (h : Plain t) : withoutSemicolon t = t := by
  rw [withoutSemicolon, if_neg]
  intro hlast
  have hmem : ';' ∈ t.toList := List.mem_of_getLast? (by simpa using hlast)
  have hplain : isPlain ';' = false := by simp [isPlain, isWordChar_of_ascii]
  rw [plain_iff.mp h _ hmem] at hplain
  cases hplain

theorem Writes.headed {α : Type} {x : Emit α} {a : α} {lines : ℕ → List String}
    {shown : List String} (h : Writes x a lines shown) (text : String) :
    Writes (do line text; x) a (fun i => indented i text :: lines i) shown :=
  (writesFlat_line text).writes.bind h

theorem writes_pure {α : Type} (a : α) : Writes (pure a) a (fun _ => []) [] := by
  intro p cursors hp
  refine ⟨p.loopIndent, ?_⟩
  rw [List.append_nil, List.append_nil, ← hp]
  rfl

theorem writes_brace {α : Type} (a : α) :
    Writes (do line "\x7d"; return a) a (fun i => [indented i "\x7d"]) [] :=
  (writes_pure a).headed _

/-- An expression writes nothing, so what is done with its text writes everything. -/
theorem Writes.of_expr {α : Type} (h : TranslatesExpr n e) {f : Option String → Emit α} {a : α}
    {lines : ℕ → List String} {shown : List String} (hf : Writes (f (some e.text)) a lines shown) :
    Writes (node .standard n >>= f) a lines shown := by
  intro p cursors hp
  rw [bind_of_ok (node_of_translatesExpr h p)]
  exact hf p cursors hp

/-- A block in braces, after the line that opens it. -/
theorem writes_block {ns : List Node} {ss : List Stmt} {shown : List String}
    (h : Writes (statements .standard ns) () (fun i => Stmt.linesAll i ss) shown) (text : String) :
    Writes (do line text; deeper; statements .standard ns; shallower; line "\x7d"; return none)
      (none : Option String) (fun i => indented i text ::
        (Stmt.linesAll (i + 1) ss ++ [indented i "\x7d"])) shown := by
  have hb := (h.inside (f := fun _ => do line "\x7d"; return none)
    (writes_brace (none : Option String))).headed text
  rw [List.append_nil] at hb
  exact hb

theorem writes_forLoop {init test update : Node} {body : List Node} {init' update' : Simple}
    {test' : Expr} {body' : List Stmt} {shown : List String} (hi : TranslatesStart init init')
    (ht : TranslatesExpr test test') (hu : TranslatesStart update update')
    (hb : Writes (statements .standard body) () (fun i => Stmt.linesAll i body') shown) :
    Writes (node .standard (.forLoop init test update body)) none
      (fun i => (Stmt.forLoop init' test' update' body').lines i) shown := by
  intro p cursors hp
  let begun : Page := ⟨[], p.indent, p.indent, p.shown⟩
  let first : Page := ⟨[indented p.indent (init'.text ++ ";")], p.indent, p.indent, p.shown⟩
  let last : Page := ⟨[indented p.indent (update'.text ++ ";")], p.indent, p.indent, p.shown⟩
  have hinit : node .standard init begun = .ok none first := writesFlat_of_translatesStart hi begun
  have hupdate : node .standard update begun = .ok none last :=
    writesFlat_of_translatesStart hu begun
  have hheader : "for (" ++ first.joined ++ " " ++ withoutSemicolon test'.text ++ "; " ++
      withoutSemicolon last.joined ++ ") \x7b" = "for (" ++ init'.text ++ "; " ++ test'.text ++
        "; " ++
      update'.text ++ ") \x7b" := by
    rw [joined_start hi first _ rfl, joined_start hu last _ rfl, withoutSemicolon_append,
      withoutSemicolon_of_plain (plain_of_translatesExpr ht)]
    apply String.toList_inj.mp
    simp only [String.toList_append, String.reduceToList, List.cons_append, List.nil_append,
      List.append_assoc]
  obtain ⟨k, hk⟩ := writes_block hb ("for (" ++ init'.text ++ "; " ++ test'.text ++ "; " ++
    update'.text ++ ") \x7b") { p with loopIndent := p.indent } cursors hp
  refine ⟨k, ?_⟩
  rw [← hheader] at hk
  change (node .standard init >>= _) begun = _
  rw [bind_of_ok hinit]
  change (node .standard test >>= _) begun = _
  rw [bind_of_ok (node_of_translatesExpr ht _)]
  change (node .standard update >>= _) begun = _
  rw [bind_of_ok hupdate]
  refine hk.trans ?_
  rw [hheader]
  rfl

section

variable {w : String} {m : Value} {ns : List Node} {es : List Expr} {lines : ℕ → List String}
  {shown : List String}

theorem writes_cursorMethod (hn : List.Forall₂ TranslatesExpr ns es)
    (h : Writes (method w m (Expr.texts es)) () lines shown) :
    Writes (node .standard (.cursorMethod w m ns)) none lines shown := by
  intro p cursors hp
  obtain ⟨k, hk⟩ := h p cursors hp
  refine ⟨k, ?_⟩
  exact (bind_of_ok (arguments_of_translates hn p)).trans (bind_of_ok hk)

theorem writes_drawCommand (hn : List.Forall₂ TranslatesExpr ns es)
    (h : Writes (shape w m (Expr.texts es)) () lines shown) :
    Writes (node .standard (.drawCommand w m ns)) none lines shown := by
  intro p cursors hp
  obtain ⟨k, hk⟩ := h p cursors hp
  refine ⟨k, ?_⟩
  exact (bind_of_ok (arguments_of_translates hn p)).trans (bind_of_ok hk)

end

/-- Only the method `visible` shows a cursor. -/
theorem shown_call {m f : String} (h : (m, f, k) ∈ changeCalls ++ drawCalls) (es : List Expr) :
    (Simple.call f es).shown = [] := by
  simp only [changeCalls, drawCalls, List.cons_append, List.nil_append, List.mem_cons,
    Prod.mk.injEq, List.not_mem_nil, or_false] at h
  rcases h with ⟨-, rfl, -⟩ | ⟨-, rfl, -⟩ | ⟨-, rfl, -⟩ | ⟨-, rfl, -⟩ | ⟨-, rfl, -⟩ | ⟨-, rfl, -⟩ |
    ⟨-, rfl, -⟩ | ⟨-, rfl, -⟩ <;> rfl

/-- A branch up to its last block; what follows closes it. -/
theorem writes_branch {test : Node} {body : List Node} {arms : List (Node × List Node)}
    {test' : Expr} {body' : List Stmt} {arms' : List (Expr × List Stmt)} {shown : List String}
    {lines : ℕ → List String} {last : Emit (Option String)} (ht : TranslatesExpr test test')
    (hb : Writes (statements .standard body) () (fun i => Stmt.linesAll i body')
      (Stmt.shownAll body'))
    (ha : Writes (Emit.arms .standard arms) () (fun i => Stmt.armLines i arms')
      (Stmt.shownArms arms')) (hl : Writes last none lines shown) :
    Writes (do
      let test ← node .standard test
      line ("if (" ++ inCode test ++ ") \x7b")
      deeper
      statements .standard body
      shallower
      Emit.arms .standard arms
      last) none (fun i => indented i ("if (" ++ test'.text ++ ") \x7b") ::
        (Stmt.linesAll (i + 1) body' ++ (Stmt.armLines i arms' ++ lines i)))
      (Stmt.shownAll body' ++ (Stmt.shownArms arms' ++ shown)) :=
  .of_expr ht ((hb.inside (f := fun _ => do Emit.arms .standard arms; last)
    (ha.bind (f := fun _ => last) hl)).headed _)

mutual

/-- A translated statement is written as its translation. -/
theorem writes_of_translates {n : Node} {s : Stmt} (h : Translates n s) :
    Writes (node .standard n) none (fun i => s.lines i) s.shown := by
  match h with
  | .start (s := s) h =>
    have hs : (Stmt.simple s).shown = [] := by cases h <;> rfl
    rw [hs]
    exact (writesFlat_of_translatesStart h).writes
  | .creation _ hx hy => exact (writes_creation hx hy).writes
  | @Translates.change w m f k ns es _ hc hn hk =>
    have hs := shown_call (List.mem_append_left _ hc) (.word w :: es.take k)
    rw [Stmt.shown, hs]
    exact writes_cursorMethod hn (writes_change hc (hn.length_eq ▸ hk)).writes
  | .thickness _ hn => exact writes_cursorMethod hn (writes_thickness _ _ _).writes
  | .visible _ hn => exact writes_cursorMethod hn (writes_visible _ _)
  | @Translates.draw w m f k ns es _ hc hn hk =>
    have hs := shown_call (List.mem_append_right _ hc) (.word w :: es.take k)
    rw [Stmt.shown, hs]
    exact writes_drawCommand hn (writes_draw hc (hn.length_eq ▸ hk)).writes
  | .branch ht hb ha ho =>
    have hb := writes_of_translatesAll hb
    have ha := writes_of_translatesArms ha
    match ho with
    | .none => exact writes_branch ht hb ha (writes_brace none)
    | .empty => exact writes_branch ht hb ha (writes_brace none)
    | .some hn => exact writes_branch ht hb ha (writes_block (writes_of_translatesAll hn) _)
  | .whileLoop ht hb => exact .of_expr ht (writes_block (writes_of_translatesAll hb) _)
  | .forLoop hi ht hu hb => exact writes_forLoop hi ht hu (writes_of_translatesAll hb)

theorem writes_of_translatesAll {ns : List Node} {ss : List Stmt} (h : TranslatesAll ns ss) :
    Writes (statements .standard ns) () (fun i => Stmt.linesAll i ss) (Stmt.shownAll ss) := by
  match h with
  | .nil => exact writes_pure ()
  | .cons hn hns => exact (writes_of_translates hn).bind (writes_of_translatesAll hns)

theorem writes_of_translatesArms {arms : List (Node × List Node)} {arms' : List (Expr × List Stmt)}
    (h : TranslatesArms arms arms') : Writes (Emit.arms .standard arms) ()
      (fun i => Stmt.armLines i arms') (Stmt.shownArms arms') := by
  match h with
  | .nil => exact writes_pure ()
  | .cons ht hb ha =>
    exact .of_expr ht (((writes_of_translatesAll hb).inside (f := fun _ => Emit.arms .standard _)
      (writes_of_translatesArms ha)).headed _)

end

/-! ## Writing programs -/

theorem foldl_write (f : String → String) (cursors : List String) (p : Page) :
    cursors.foldl (fun p c => p.write (f c)) p =
      { p with lines := p.lines ++ cursors.map fun c => indented p.indent (f c) } := by
  induction cursors generalizing p with
  | nil => simp
  | cons c cursors ih =>
    rw [List.foldl_cons, ih, List.map_cons]
    simp [Page.write, Page.margin, indented]

theorem showCursors_eq (lines : List String) (k : ℕ) (cursors : List String) :
    showCursors ⟨lines, 1, k, some cursors⟩ =
      .ok () ⟨lines ++ showingLines cursors, 1, k, some cursors⟩ := by
  have ht (c : String) : (Simple.showing c).text ++ ";" =
      "set_cursor_visibility(" ++ c ++ ", true);" := by
    apply String.toList_inj.mp
    simp only [Simple.showing, Simple.text, Expr.texts, Expr.text, String.intercalate_cons_cons,
      String.intercalate_singleton, String.toList_append, String.reduceToList, List.cons_append,
      List.nil_append, List.append_assoc]
  cases cursors with
  | nil => simp [showCursors, Emit.change, showingLines]
  | cons c cursors =>
    simp only [showCursors, Emit.change, showingLines, ht]
    rw [foldl_write]
    simp [Page.write, Page.margin, indented]

theorem closing_eq (lines : List String) (k : ℕ) (shown : Option (List String)) :
    closing ⟨lines, 1, k, shown⟩ = .ok () ⟨lines ++ closingLines, 0, k, shown⟩ := by
  simp only [closing, Emit.change, Page.write, Page.writeInside, List.foldl, Page.deeper,
    Page.shallower, Page.margin]
  simp only [closingLines, List.map, indented, List.append_assoc, List.cons_append, List.nil_append]

/-- The code of a program whose statements are translated is the text of the translation. -/
theorem code_of_translates {ns : List Node} {body : List Stmt} (h : TranslatesAll ns body) :
    (Node.program ns).code .standard = .ok (programText body) := by
  obtain ⟨k, hk⟩ := writes_of_translatesAll h ⟨openingLines, 1, 0, some []⟩ [] rfl
  have hp : Emit.program .standard (.program ns) Page.blank =
      .ok (programText body) ⟨programLines body, 0, k, some (Stmt.shownAll body)⟩ := by
    change (statements .standard ns >>= _) ⟨openingLines, 1, 0, some []⟩ = _
    rw [bind_of_ok hk, bind_of_ok (showCursors_eq _ _ _), bind_of_ok (closing_eq _ _ _)]
    simp only [programText, programLines, List.append_assoc]
    rfl
  rw [Node.code, hp]

end DrawPlus.Target
