import DrawPlus.Proofs.Target.BlockScope

/-!
# Words of the program and words of the code

The generated text mixes the names that a program gives to its variables and cursors with words that
the text brings along: types, functions, colours, and all that stands in the lines at the end.
Nothing in the text tells the two apart, so they are told apart in the program. `Node.spots` goes
through a program in the order of its code and says of each word whether the program names it or the
code relies on it.

The spots of a translated program, taken as marks, are those of its code with all of its words, also
those of functions and types (`renders_programSpots`).
-/

namespace DrawPlus

namespace Target

/-! ## The lines at the end -/

/-- The characters outside of quotation marks. -/
def unquoted : Bool → List Char → List Char
  | _, [] => []
  | inside, c :: rest =>
    if c = '"' then unquoted (!inside) rest
    else if inside then unquoted inside rest
    else c :: unquoted inside rest

/-- The longest runs of letters, digits and underscores, each with the character before it. -/
def runs (before : Char) (run : List Char) : List Char → List (Char × List Char)
  | [] => [(before, run)]
  | c :: rest =>
    if c.isAlphanum || c == '_' then runs before (run ++ [c]) rest
    else (before, run) :: runs c [] rest

/-- The words of a line. What follows an arrow is not among them, since it names the member of a
structure. -/
def lineWords (line : String) : List String :=
  ((runs ' ' [] (unquoted false line.toList)).filter fun r => r.1 != '>' && isAsciiWord r.2).map
    fun r => String.ofList r.2

/-- The words that stand after the statements of every program. -/
def closingWords : List String :=
  ["SDL_Delay", "printf", "SDL_RenderPresent", "renderer", "printf", "SDL_Surface", "surface",
    "SDL_CreateRGBSurfaceWithFormat", "windowWidth", "windowHeight", "SDL_PIXELFORMAT_RGBA8888",
    "if", "surface", "printf", "cleanup_SDL", "return", "if", "SDL_RenderReadPixels", "renderer",
    "NULL", "surface", "surface", "surface", "printf", "SDL_GetError", "else", "if", "SDL_SaveBMP",
    "surface", "printf", "SDL_GetError", "else", "printf", "SDL_FreeSurface", "surface", "printf",
    "cleanup_SDL", "printf", "return"]

theorem flatMap_lineWords_closingLines : closingLines.flatMap lineWords = closingWords := by
  decide +kernel

/-! ## Spots -/

/-- What a place in the text of a program does with blocks and words. -/
inductive Spot where
  | opens
  | closes
  /-- the program declares the name -/
  | declares (w : String)
  /-- the program uses the name -/
  | names (w : String)
  /-- the word was put there for the code to work -/
  | relies (w : String)
deriving DecidableEq

/-- The mark at a spot, which does not tell by whom a word is used. -/
def Spot.mark : Spot → Mark
  | .opens => .opens
  | .closes => .closes
  | .declares w => .declares w
  | .names w => .uses w
  | .relies w => .uses w

/-- The spots of the line that shows a cursor. -/
def showingSpots (cursor : String) : List Spot :=
  [.relies "set_cursor_visibility", .names cursor, .relies "true"]

def dimensions : List String := ["windowWidth", "windowHeight"]

/-- The spots after the statements of every program, which name the size of the window. -/
def closingSpots : List Spot :=
  closingWords.map fun w => if w ∈ dimensions then .names w else .relies w

/-- The function that a method becomes a call of. -/
def functionOf (m : String) : String :=
  ((changeCalls ++ drawCalls).lookup m).elim "" Prod.fst

/-- The words that the code of statements relies on. -/
def statementWords : List String :=
  typeWords.map Prod.snd ++ ((changeCalls ++ drawCalls).map (fun c => c.2.1) ++
    (["Cursor", "create_cursor", "set_cursor_visibility", "custom_color", "Uint8"] ++
      Check.libraryWords))

/-- The words that the code relies on. -/
def ownWords : List String := statementWords ++ closingWords.filter (· ∉ dimensions)

end Target

namespace Node

open Target

mutual

def exprSpots : Node → List Spot
  | .number v => if v.isFinite then [] else [.relies "inf"]
  | .truth (.text w) => [.relies w]
  | .color name none => [.relies (Dialect.standard.colorText name)]
  | .color _ (some components) => .relies "custom_color" :: castSpots components
  | .variable (.text w) => [.names w]
  | .binary left _ right => left.exprSpots ++ right.exprSpots
  | _ => []

/-- The spots of the components of a colour. -/
def castSpots : List Node → List Spot
  | [] => []
  | n :: ns => .relies "Uint8" :: (n.exprSpots ++ castSpots ns)

end

def callSpots (w : String) (method : Value) (arguments : List Node) : List Spot :=
  match method with
  | .text "thickness" => .names w :: .relies "int" :: (kept method arguments).flatMap exprSpots
  | .text "visible" => showingSpots w
  | .text m => .relies (functionOf m) :: .names w :: (kept method arguments).flatMap exprSpots
  | _ => []

mutual

def spots : Node → List Spot
  | .varDecl type (.text w) init =>
    .relies (Dialect.standard.typeText type) :: .declares w :: init.exprSpots
  | .assign (.text w) value => .names w :: value.exprSpots
  | .cursorCreation (.text w) x y =>
    .relies "Cursor" :: .declares w :: .relies "create_cursor" :: (x.exprSpots ++ y.exprSpots)
  | .cursorMethod (.text w) method arguments => callSpots w method arguments
  | .drawCommand (.text w) shape arguments => callSpots w shape arguments
  | .branch test body arms otherwise =>
    test.exprSpots ++ .opens :: (spotsAll body ++ .closes ::
      (armSpots arms ++ otherwiseSpots otherwise))
  | .whileLoop test body => test.exprSpots ++ .opens :: (spotsAll body ++ [.closes])
  | .forLoop init test update body =>
    .opens :: (init.spots ++ (test.exprSpots ++ (update.spots ++
      .opens :: (spotsAll body ++ [.closes, .closes]))))
  | _ => []

def spotsAll : List Node → List Spot
  | [] => []
  | n :: ns => n.spots ++ spotsAll ns

/-- The spots of the further conditions of a branch with their blocks. -/
def armSpots : List (Node × List Node) → List Spot
  | [] => []
  | (test, body) :: arms =>
    test.exprSpots ++ .opens :: (spotsAll body ++ .closes :: armSpots arms)

/-- The spots of the last block of a branch, which is left out if it is empty. -/
def otherwiseSpots : Option (List Node) → List Spot
  | none => []
  | some [] => []
  | some (n :: ns) => .opens :: (n.spots ++ spotsAll ns ++ [.closes])

end

/-- The spots of a program from its first statement on. -/
def programSpots (ns : List Node) : List Spot :=
  spotsAll ns ++ ((flatAll ns).flatMap shows).flatMap showingSpots ++ closingSpots

end Node

namespace Target

open Node

/-! ## The spots of a program are those of its code -/

/-- The marks of the main function from its first statement on. -/
def mainMarks (statements : List Stmt) : List Mark :=
  Stmt.marksAll .all statements ++ (closingLines.flatMap lineWords).map .uses

/-- The spots are places of a text with these marks, and the words relied on are known. -/
structure Renders (spots : List Spot) (ms : List Mark) : Prop where
  marks : spots.map Spot.mark = ms
  relied : ∀ w, .relies w ∈ spots → w ∈ ownWords

section

variable {spots spots' : List Spot} {ms ms' : List Mark} {w : String}

theorem renders_nil : Renders [] [] := ⟨rfl, by simp⟩

theorem Renders.append (h : Renders spots ms) (h' : Renders spots' ms') :
    Renders (spots ++ spots') (ms ++ ms') := by
  refine ⟨by rw [List.map_append, h.marks, h'.marks], ?_⟩
  intro w hw
  rcases List.mem_append.mp hw with hw | hw
  · exact h.relied w hw
  · exact h'.relied w hw

theorem Renders.cons (h : Renders spots ms) {spot : Spot} (hspot : ∀ w, spot ≠ .relies w) :
    Renders (spot :: spots) (spot.mark :: ms) := by
  refine ⟨by rw [List.map_cons, h.marks], ?_⟩
  intro w hw
  rcases List.mem_cons.mp hw with hw | hw
  · exact absurd hw.symm (hspot w)
  · exact h.relied w hw

theorem Renders.opens (h : Renders spots ms) : Renders (.opens :: spots) (.opens :: ms) :=
  h.cons (by simp)

theorem Renders.closes (h : Renders spots ms) : Renders (.closes :: spots) (.closes :: ms) :=
  h.cons (by simp)

theorem Renders.declares (h : Renders spots ms) :
    Renders (.declares w :: spots) (.declares w :: ms) :=
  h.cons (by simp)

theorem Renders.names (h : Renders spots ms) : Renders (.names w :: spots) (.uses w :: ms) :=
  h.cons (by simp)

theorem Renders.relies (h : Renders spots ms) (hw : w ∈ ownWords) :
    Renders (.relies w :: spots) (.uses w :: ms) := by
  refine ⟨by rw [List.map_cons, h.marks]; rfl, ?_⟩
  intro v hv
  rcases List.mem_cons.mp hv with hv | hv
  · obtain rfl := Spot.relies.inj hv
    exact hw
  · exact h.relied v hv

end

theorem mem_ownWords {w : String} (h : w ∈ statementWords) : w ∈ ownWords :=
  List.mem_append_left _ h

theorem mem_ownWords_of_libraryWords {w : String} (h : w ∈ Check.libraryWords) : w ∈ ownWords :=
  mem_ownWords (by simp [statementWords, h])

theorem mem_ownWords_of_typeWords {k : Kind} {t : String} (h : (k, t) ∈ typeWords) :
    t ∈ ownWords :=
  mem_ownWords (List.mem_append_left _ (List.mem_map.mpr ⟨(k, t), h, rfl⟩))

theorem mem_ownWords_of_call {m f : String} {k : ℕ} (h : (m, f, k) ∈ changeCalls ++ drawCalls) :
    f ∈ ownWords := by
  have hf : f ∈ (changeCalls ++ drawCalls).map fun c => c.2.1 :=
    List.mem_map.mpr ⟨(m, f, k), h, rfl⟩
  exact mem_ownWords (List.mem_append_right _ (List.mem_append_left _ hf))

theorem renders_expr {n : Node} {e : Expr} (h : TranslatesExpr n e) :
    Renders n.exprSpots ((e.words .all).map .uses) := by
  induction h with
  | number _ hf => simpa [exprSpots, Expr.words, hf] using renders_nil
  | infinite _ hf =>
    have hinf : "inf" ∈ ownWords := mem_ownWords_of_libraryWords (by decide)
    simpa [exprSpots, Expr.words, hf] using renders_nil.relies hinf
  | @truth w hw =>
    have hlibrary : w ∈ Check.libraryWords := by rcases hw with rfl | rfl <;> decide
    exact renders_nil.relies (mem_ownWords_of_libraryWords hlibrary)
  | hue h =>
    have hown := mem_ownWords_of_libraryWords (Check.constant_mem_libraryWords h)
    simpa [exprSpots, Expr.words, colorText_name] using renders_nil.relies hown
  | mixed _ _ _ hr hg hb =>
    have hcolor : "custom_color" ∈ ownWords := mem_ownWords (by decide)
    have hbyte : "Uint8" ∈ ownWords := mem_ownWords (by decide)
    have hparts := (hr.append ((hg.append ((hb.append renders_nil).relies hbyte)).relies hbyte))
    simpa [exprSpots, castSpots, Expr.words, Expr.wordsAll]
      using (hparts.relies hbyte).relies hcolor
  | name _ => exact renders_nil.names
  | binary _ _ _ _ hl hr =>
    rw [exprSpots, Expr.words, List.map_append]
    exact hl.append hr

theorem renders_arguments {ns : List Node} {es : List Expr}
    (h : List.Forall₂ TranslatesExpr ns es) :
    Renders (ns.flatMap exprSpots) ((Expr.wordsAll .all es).map .uses) := by
  induction h with
  | nil => exact renders_nil
  | cons hn _ ih =>
    rw [List.flatMap_cons, Expr.wordsAll, List.map_append]
    exact (renders_expr hn).append ih

theorem renders_start {n : Node} {s : Simple} (h : TranslatesStart n s) :
    Renders n.spots (s.marks .all) := by
  cases h with
  | declaration hk _ he =>
    rw [spots, typeText_of_typeWords _ hk]
    exact (renders_expr he).declares.relies (mem_ownWords_of_typeWords hk)
  | assignment _ he => exact (renders_expr he).names

theorem callSpots_call {m f : String} {k : ℕ} (h : (m, f, k) ∈ changeCalls ++ drawCalls)
    (w : String) (ns : List Node) :
    callSpots w m ns = .relies f :: .names w :: (ns.take k).flatMap exprSpots := by
  simp only [changeCalls, drawCalls, List.cons_append, List.nil_append, List.mem_cons,
    Prod.mk.injEq, List.not_mem_nil, or_false] at h
  rcases h with ⟨rfl, rfl, rfl⟩ | ⟨rfl, rfl, rfl⟩ | ⟨rfl, rfl, rfl⟩ | ⟨rfl, rfl, rfl⟩ |
    ⟨rfl, rfl, rfl⟩ | ⟨rfl, rfl, rfl⟩ | ⟨rfl, rfl, rfl⟩ | ⟨rfl, rfl, rfl⟩ <;> rfl

theorem renders_call {m f w : String} {k : ℕ} {ns : List Node} {es : List Expr}
    (hf : (m, f, k) ∈ changeCalls ++ drawCalls) (hes : List.Forall₂ TranslatesExpr ns es) :
    Renders (callSpots w m ns) ((Simple.call f (.word w :: es.take k)).marks .all) := by
  rw [callSpots_call hf]
  have hown := mem_ownWords_of_call hf
  exact (renders_arguments (List.forall₂_take k hes)).names.relies hown

theorem renders_showing (w : String) : Renders (showingSpots w) ((Simple.showing w).marks .all) :=
  ((renders_nil.relies (mem_ownWords_of_libraryWords (by decide))).names).relies
    (mem_ownWords (by decide))

mutual

theorem renders_of_translates {n : Node} {s : Stmt} (h : Translates n s) :
    Renders n.spots (s.marks .all) := by
  match h with
  | .start h => exact renders_start h
  | .creation _ hx hy =>
    have hcursor : "Cursor" ∈ ownWords := mem_ownWords (by decide)
    have hcreate : "create_cursor" ∈ ownWords := mem_ownWords (by decide)
    have hparts := ((renders_expr hx).append (renders_expr hy)).relies hcreate
    simpa [spots, Stmt.marks, Simple.marks, Expr.words, Expr.wordsAll]
      using hparts.declares.relies hcursor
  | .change _ hc hn _ => exact renders_call (List.mem_append_left _ hc) hn
  | .thickness _ hn =>
    have hint : "int" ∈ ownWords := mem_ownWords (by decide)
    have hfirst := renders_arguments (List.forall₂_take 1 hn)
    simpa [spots, callSpots, kept_thickness, Stmt.marks, Simple.marks, Expr.words,
      Expr.wordsAll] using (hfirst.relies hint).names
  | @Translates.visible w _ _ _ _ => exact renders_showing w
  | .draw _ hc hn _ => exact renders_call (List.mem_append_right _ hc) hn
  | .branch ht hb ha ho =>
    exact (renders_expr ht).append ((renders_of_translatesAll hb).append
      ((renders_of_translatesArms ha).append (renders_of_translatesOtherwise ho)).closes).opens
  | .whileLoop ht hb =>
    exact (renders_expr ht).append ((renders_of_translatesAll hb).append renders_nil.closes).opens
  | .forLoop hi ht hu hb =>
    exact ((renders_start hi).append ((renders_expr ht).append ((renders_start hu).append
      ((renders_of_translatesAll hb).append renders_nil.closes.closes).opens))).opens

theorem renders_of_translatesAll {ns : List Node} {ss : List Stmt} (h : TranslatesAll ns ss) :
    Renders (spotsAll ns) (Stmt.marksAll .all ss) := by
  match h with
  | .nil => exact renders_nil
  | .cons hn hns => exact (renders_of_translates hn).append (renders_of_translatesAll hns)

theorem renders_of_translatesArms {arms : List (Node × List Node)}
    {arms' : List (Expr × List Stmt)} (h : TranslatesArms arms arms') :
    Renders (armSpots arms) (Stmt.armMarks .all arms') := by
  match h with
  | .nil => exact renders_nil
  | .cons ht hb ha =>
    exact (renders_expr ht).append ((renders_of_translatesAll hb).append
      (renders_of_translatesArms ha).closes).opens

theorem renders_of_translatesOtherwise {otherwise : Option (List Node)}
    {otherwise' : Option (List Stmt)} (h : TranslatesOtherwise otherwise otherwise') :
    Renders (otherwiseSpots otherwise) (Stmt.otherwiseMarks .all otherwise') := by
  match h with
  | .none => exact renders_nil
  | .empty => exact renders_nil
  | .some hn => exact ((renders_of_translatesAll hn).append renders_nil.closes).opens

end

theorem renders_showings (cursors : List String) :
    Renders (cursors.flatMap showingSpots) (Stmt.marksAll .all (showings cursors)) := by
  induction cursors with
  | nil => exact renders_nil
  | cons w cursors ih => exact (renders_showing w).append ih

theorem renders_closingSpots : Renders closingSpots (closingWords.map .uses) := by
  refine ⟨?_, ?_⟩
  · rw [closingSpots, List.map_map]
    refine List.map_congr_left fun w _ => ?_
    simp only [Function.comp_apply]
    split_ifs <;> rfl
  · intro w hw
    obtain ⟨v, hv, heq⟩ := List.mem_map.mp hw
    split_ifs at heq with hdimension
    obtain rfl := Spot.relies.inj heq
    exact List.mem_append_right _ (List.mem_filter.mpr ⟨hv, by simpa using hdimension⟩)

/-- The spots of a program, taken as marks, are those of its code. -/
theorem renders_programSpots {ns : List Node} {body : List Stmt} (h : TranslatesAll ns body) :
    Renders (programSpots ns) (mainMarks (body ++ showings (Stmt.shownAll body))) := by
  rw [programSpots, mainMarks, marksAll_append, flatMap_lineWords_closingLines,
    ← (accounts_of_translatesAll .all h).shown_eq]
  exact ((renders_of_translatesAll h).append (renders_showings _)).append renders_closingSpots

/-- The names that the code declares are those of the program. -/
theorem declared_mainMarks {ns : List Node} {body : List Stmt} (h : TranslatesAll ns body) :
    declared (mainMarks (body ++ showings (Stmt.shownAll body))) = names ns := by
  rw [mainMarks, declared_append, declared_map_uses, List.append_nil, marksAll_append,
    declared_append, declared_marksAll_showings, List.append_nil,
    (accounts_of_translatesAll .all h).declared_eq, names]

end Target

end DrawPlus
