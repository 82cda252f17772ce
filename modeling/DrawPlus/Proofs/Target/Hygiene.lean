import DrawPlus.Proofs.Parsing.ReadBack
import DrawPlus.Proofs.Target.Words

/-!
# Hygiene of the generated text

A program may declare any word that is no keyword of its own language (`exists_names_eq_iff`), so
also one that the generated text relies on. The text is hygienic if this does no harm: every name
that the program declares can be one in the generated language, and wherever the text relies on a
word, no declaration of the program is in force that gives the word another meaning. In particular a
predefined colour is then the colour of the library.

`hygienic` decides this by going through the spots of a program with the names of the open blocks. A
program that declares no reserved word is hygienic.
-/

namespace DrawPlus.Target

open Node

/-! ## Reserved words -/

def targetKeywords : List String :=
  ["auto", "break", "case", "char", "const", "continue", "default", "do", "double", "else", "enum",
    "extern", "float", "for", "goto", "if", "inline", "int", "long", "register", "restrict",
    "return", "short", "signed", "sizeof", "static", "struct", "switch", "typedef", "union",
    "unsigned", "void", "volatile", "while", "_Alignas", "_Alignof", "_Atomic", "_Bool", "_Complex",
    "_Generic", "_Imaginary", "_Noreturn", "_Static_assert", "_Thread_local"]

/-- The macros that the headers of the library define, and those of the system that the text
uses. -/
def macros : List String :=
  ["DRAWPP_H", "DRAWPP_CURSOR_H", "DRAWPP_SHAPES_H", "DRAWPP_COLORS_H", "WINDOW_WIDTH",
    "WINDOW_HEIGHT", "PI", "MAX_CURSORS", "NULL", "bool", "true", "false"]

/-- The parameters of the main function, which are declared in its outermost block. -/
def parameters : List String := ["argc", "argv"]

/-- The words that a program had better not declare. -/
def reservedWords : List String := targetKeywords ++ macros ++ parameters ++ ownWords

/-! ## Hygienic texts -/

/-- The text of a program with the given spots is hygienic. -/
structure Hygienic (spots : List Spot) : Prop where
  /-- a declared name is a name of the generated language -/
  spelled : ∀ w, .declares w ∈ spots → w ∉ targetKeywords ++ macros
  /-- a word that the text relies on is not declared by the program -/
  own : ∀ before w after, spots = before ++ .relies w :: after →
    ¬InScope (before.map Spot.mark) w
  /-- the parameters are not declared again in their block -/
  parameters : ∀ w ∈ parameters, ¬InScope (spots.map Spot.mark) w

/-- The names of the open blocks after a spot, from the innermost block. -/
def passSpot (blocks : List (List String)) : Spot → List (List String)
  | .opens => [] :: blocks
  | .closes => blocks.tail
  | .declares w => (w :: blocks.headD []) :: blocks.tail
  | .names _ => blocks
  | .relies _ => blocks

/-- The spot is as it should be where these names are declared. -/
def Spot.isClean (visible : List String) : Spot → Bool
  | .declares w => decide (w ∉ targetKeywords ++ macros)
  | .relies w => decide (w ∉ visible)
  | _ => true

/-- The spots are as they should be after the names of the open blocks. -/
def hygienicFrom : List (List String) → List Spot → Bool
  | blocks, [] => parameters.all (· ∉ blocks.flatten)
  | blocks, spot :: spots =>
    spot.isClean blocks.flatten && hygienicFrom (passSpot blocks spot) spots

/-- The names of open blocks as frames. -/
def Frames.ofBlocks (blocks : List (List String)) : Frames := fun d => blocks.getD d []

theorem ofBlocks_nil : Frames.ofBlocks [] = .empty := rfl

theorem ofBlocks_passSpot (blocks : List (List String)) (spot : Spot) :
    Frames.ofBlocks (passSpot blocks spot) = (Frames.ofBlocks blocks).pass spot.mark := by
  funext d
  cases spot <;> cases blocks <;> cases d <;> rfl

theorem mem_ofBlocks {blocks : List (List String)} {w : String} :
    (∃ d, w ∈ Frames.ofBlocks blocks d) ↔ w ∈ blocks.flatten := by
  rw [List.mem_flatten]
  constructor
  · rintro ⟨d, hd⟩
    by_cases hlt : d < blocks.length
    · rw [Frames.ofBlocks, List.getD_eq_getElem _ _ hlt] at hd
      exact ⟨blocks[d], List.getElem_mem hlt, hd⟩
    · rw [Frames.ofBlocks, List.getD_eq_default _ _ (Nat.le_of_not_lt hlt)] at hd
      cases hd
  · rintro ⟨block, hblock, hw⟩
    obtain ⟨d, hlt, rfl⟩ := List.getElem_of_mem hblock
    exact ⟨d, by rwa [Frames.ofBlocks, List.getD_eq_getElem _ _ hlt]⟩

/-- The spot is as it should be where the names in the frames are declared. -/
def Spot.Clean (F : Frames) : Spot → Prop
  | .declares w => w ∉ targetKeywords ++ macros
  | .relies w => ¬∃ d, w ∈ F d
  | _ => True

theorem isClean_iff {blocks : List (List String)} {spot : Spot} :
    spot.isClean blocks.flatten = true ↔ spot.Clean (Frames.ofBlocks blocks) := by
  cases spot with
  | relies w => rw [Spot.isClean, Spot.Clean, mem_ofBlocks, decide_eq_true_eq]
  | declares w => rw [Spot.isClean, Spot.Clean, decide_eq_true_eq]
  | _ => exact iff_of_true rfl trivial

/-- Every spot is as it should be after those before it. -/
theorem hygienicFrom_iff {blocks : List (List String)} {spots : List Spot} :
    hygienicFrom blocks spots = true ↔
      (∀ before spot after, spots = before ++ spot :: after →
        spot.Clean ((Frames.ofBlocks blocks).passAll (before.map Spot.mark))) ∧
      ∀ w ∈ parameters, ¬∃ d, w ∈ (Frames.ofBlocks blocks).passAll (spots.map Spot.mark) d := by
  induction spots generalizing blocks with
  | nil =>
    simp only [hygienicFrom, List.all_eq_true, decide_eq_true_eq, List.map_nil,
      Frames.passAll_nil, mem_ofBlocks]
    refine (and_iff_right ?_).symm
    intro before spot after h
    exact absurd h (by simp)
  | cons first spots ih =>
    rw [hygienicFrom, Bool.and_eq_true, isClean_iff, ih, ofBlocks_passSpot, List.map_cons,
      Frames.passAll_cons, ← and_assoc]
    refine and_congr_left fun _ => ?_
    constructor
    · rintro ⟨hfirst, hrest⟩ before spot after h
      cases before with
      | nil =>
        obtain ⟨rfl, -⟩ := List.cons.inj h
        exact hfirst
      | cons b before =>
        obtain ⟨rfl, hspots⟩ := List.cons.inj h
        exact hrest before spot after hspots
    · intro h
      refine ⟨h [] first spots rfl, ?_⟩
      rintro before spot after rfl
      exact h (first :: before) spot after rfl

theorem hygienic_iff {spots : List Spot} :
    Hygienic spots ↔ hygienicFrom [] spots = true := by
  rw [hygienicFrom_iff, ofBlocks_nil]
  simp only [← inScope_iff]
  constructor
  · intro h
    refine ⟨?_, h.parameters⟩
    intro before spot after heq
    cases spot with
    | declares w => exact h.spelled w (heq ▸ by simp)
    | relies w =>
      rw [Spot.Clean, ← inScope_iff]
      exact h.own before w after heq
    | _ => trivial
  · rintro ⟨hclean, hparameters⟩
    refine ⟨?_, ?_, hparameters⟩
    · intro w hw
      obtain ⟨before, after, heq⟩ := List.append_of_mem hw
      exact hclean before _ after heq
    · intro before w after heq
      rw [inScope_iff]
      exact hclean before _ after heq

/-- Where no reserved word is declared, the text is hygienic. -/
theorem hygienic_of_renders {spots : List Spot} {ms : List Mark} (h : Renders spots ms)
    (hreserved : ∀ w ∈ declared ms, w ∉ reservedWords) : Hygienic spots := by
  have hdeclared {w : String} (hw : .declares w ∈ spots) : w ∉ reservedWords := by
    refine hreserved w (mem_declared.mpr ?_)
    rw [← h.marks]
    exact List.mem_map.mpr ⟨.declares w, hw, rfl⟩
  have hscope {before : List Spot} {w : String} (hsub : before ⊆ spots)
      (hw : InScope (before.map Spot.mark) w) : w ∉ reservedWords := by
    obtain ⟨a, b, heq, -⟩ := hw
    have hmem : .declares w ∈ before.map Spot.mark := by simp [heq]
    obtain ⟨spot, hspot, hmark⟩ := List.mem_map.mp hmem
    cases spot <;> cases hmark
    exact hdeclared (hsub hspot)
  simp only [reservedWords, List.mem_append, not_or] at hdeclared hscope
  refine ⟨?_, ?_, ?_⟩
  · intro w hw
    rw [List.mem_append, not_or]
    exact (hdeclared hw).1.1
  · rintro before w after rfl hw
    have hown := h.relied w (by simp)
    exact (hscope (by simp) hw).2 hown
  · intro w hw hscoped
    exact (hscope (List.Subset.refl _) hscoped).1.2 hw

/-! ## Names that programs declare -/

/-- A program that declares whole numbers. The value is one that a window can have. -/
def declarations (ws : List String) : List Node :=
  ws.map fun w : String => .varDecl (some .int) w (.number (.int 400))

theorem names_declarations (ws : List String) : names (declarations ws) = ws := by
  induction ws with
  | nil => rfl
  | cons w ws ih =>
    rw [names] at ih ⊢
    rw [declarations, List.map_cons, ← declarations, flatAll, List.flatMap_append, ih]
    rfl

theorem ofText_declarations {ws : List String} (h : ∀ w ∈ ws, IsName w) :
    Node.ofText (source (.program (declarations ws))) = .ok (.program (declarations ws)) := by
  refine ofText_of_notMem_modulo ?_ ?_
  · intro n hn
    obtain ⟨w, hw, rfl⟩ := List.mem_map.mp hn
    have hrule : NameRule.window.declares .int w (.number (.int 400)) := by
      rintro -
      refine ⟨rfl, ?_⟩
      rintro v ⟨⟩
      decide
    exact .declaration (.intro (by decide) ⟨w, rfl, h w hw⟩ hrule
      (.number ⟨400, rfl, windowSize_lt⟩))
  · rw [lexemes, modulo_mem_lexemesAll]
    rintro ⟨n, hn, hmodulo⟩
    obtain ⟨w, -, rfl⟩ := List.mem_map.mp hn
    simp [lexemes] at hmodulo

def withNumbers (s : Scope) (ws : List String) : Scope where
  declared := s.declared ++ ws.map fun w => (Value.text w, some .int)
  cursors := s.cursors

theorem all_declarations {s : Scope} {ws : List String} (hnodup : ws.Nodup)
    (hfree : ∀ w ∈ ws, s.isFree w = true) :
    Check.all (declarations ws) s = .ok () (withNumbers s ws) := by
  induction ws generalizing s with
  | nil => simp [declarations, withNumbers, Check.all, pure, EStateM.pure]
  | cons w ws ih =>
    rw [List.nodup_cons] at hnodup
    rw [List.forall_mem_cons] at hfree
    have hdeclare : Check.declareVariable (Value.text w) (some .int) s =
        .ok () (withNumbers s [w]) :=
      Check.declareVariable_eq_ok.mpr ⟨hfree.1, rfl⟩
    have hnode : Check.node (.varDecl (some .int) w (.number (.int 400))) s =
        .ok none (withNumbers s [w]) := by
      rw [Check.node_varDecl_eq (by simp), bind_of_ok hdeclare]
      rfl
    rw [declarations, List.map_cons, ← declarations, Check.all, bind_of_ok hnode, ih hnodup.2]
    · simp [withNumbers]
    · intro v hv
      have hne : w ≠ v := fun heq => hnodup.1 (heq ▸ hv)
      have hv := hfree.2 v hv
      simp only [Scope.isFree, Scope.hasVariable, Scope.isCursor] at hv ⊢
      simpa [withNumbers, hne] using hv

theorem lookup_declared {ws : List String} {w : String} (h : w ∈ ws) :
    (ws.map fun w => (Value.text w, some Kind.int)).lookup (.text w) = some (some .int) := by
  induction ws with
  | nil => cases h
  | cons v ws ih =>
    rw [List.map_cons, List.lookup_cons]
    by_cases hv : w = v
    · simp [hv]
    · rw [beq_eq_false_iff_ne.mpr (by simpa using hv)]
      exact ih ((List.mem_cons.mp h).resolve_left hv)

theorem check_declarations {ws : List String} (hnodup : ws.Nodup) (h : dimensions ⊆ ws) :
    (Node.program (declarations ws)).check = .ok () := by
  rw [check_program_eq_ok]
  refine ⟨_, all_declarations hnodup fun w _ => rfl, ?_⟩
  have htype : ∀ w ∈ dimensions, ((withNumbers .empty ws).typeOf? w).isSome = true := by
    intro w hw
    rw [Scope.typeOf?, withNumbers, Scope.empty, List.nil_append, lookup_declared (h hw)]
    rfl
  exact Check.windowDimensions_eq_ok.mpr ⟨⟨htype _ (by decide), htype _ (by decide)⟩, rfl⟩

/-- The lists of names that accepted programs declare are all lists of different words, none of
which is a keyword of the language, that contain the size of the window. -/
theorem exists_names_eq_iff {ws : List String} :
    (∃ source ns, Node.ofText source = .ok (.program ns) ∧ (Node.program ns).check = .ok () ∧
      names ns = ws) ↔ ws.Nodup ∧ (∀ w ∈ ws, IsName w) ∧ dimensions ⊆ ws := by
  constructor
  · rintro ⟨source, ns, hns, hc, rfl⟩
    obtain ⟨ns', heq, hstatements⟩ := isStatement_of_ofText hns
    obtain rfl := Node.program.inj heq
    obtain ⟨body, hbody⟩ := exists_translatesAll_of_check hstatements hc
    have haccounts := accounts_of_translatesAll .names hbody
    have hordered := ordered_programMarks hbody hc
    have hnames : declared (programMarks (body ++ showings (Stmt.shownAll body))) = names ns := by
      rw [programMarks_append_showings, declared_append, declared_map_uses, List.append_nil,
        haccounts.declared_eq, names]
    refine ⟨?_, ?_, ?_⟩
    · simpa [hnames] using hordered.nodup List.nodup_nil
    · rw [names, ← haccounts.declared_eq]
      exact haccounts.isName
    · intro w hw
      have huses : .uses w ∈ programMarks (body ++ showings (Stmt.shownAll body)) := by
        rw [programMarks, List.mem_append]
        exact .inr (by simpa [dimensions] using hw)
      have hlibrary : ∀ w ∈ dimensions, w ∉ Check.libraryWords := by decide
      simpa [hnames] using (hordered.mem_of_uses huses).resolve_left (hlibrary w hw)
  · rintro ⟨hnodup, hisName, hdimensions⟩
    exact ⟨_, _, ofText_declarations hisName, check_declarations hnodup hdimensions,
      names_declarations ws⟩

/-! ## Accepted programs -/

/-- The code of a program is hygienic. -/
def hygienic (ns : List Node) : Bool := hygienicFrom [] (programSpots ns)

/-- A name like a colour in a block, and the colour after the block. -/
def innerRedSource : String :=
  "var int windowWidth=400;var int windowHeight=400;if(true)\x7bvar int red=5;\x7d;var color x=RED;"

/-- A name like a colour with the colour as its initial value. -/
def ownRedSource : String :=
  "var int windowWidth=400;var int windowHeight=400;var color red=RED;"

end DrawPlus.Target
