import DrawPlus.Canvas.Basic
import DrawPlus.Proofs.Scope.Dimensions
import DrawPlus.Proofs.Target.Execution

/-!
# The image at the end of a program

The code of a program ends with lines that make an image of the size of `windowWidth` and
`windowHeight` and read the pixels of the window into it. When these names are declared with numbers
and never changed, the image has that size in every run. The window, however, always has the same
size, and so the image has room for its pixels only when it is high enough.
-/

namespace DrawPlus

variable {ns : List Node} {m : Node} {v : ℤ} {body : List Stmt} {env : Env}

/-! ## Names with a fixed value -/

namespace Node

theorem self_mem_flat (n : Node) : n ∈ n.flat := by
  cases n <;> simp [flat]

theorem mem_flatAll : m ∈ flatAll ns ↔ ∃ n ∈ ns, m ∈ n.flat := by
  induction ns with
  | nil => simp [flatAll]
  | cons n ns ih => simp [flatAll, ih]

theorem mem_flatArms {arms : List (Node × List Node)} :
    m ∈ flatArms arms ↔ ∃ arm ∈ arms, ∃ n ∈ arm.2, m ∈ n.flat := by
  induction arms with
  | nil => simp [flatArms]
  | cons arm arms ih =>
    obtain ⟨test, body⟩ := arm
    simp [flatArms, mem_flatAll, ih]

/-- A statement in another one stands in what that one holds. -/
theorem exists_child_of_mem_flat {n : Node} (h : m ∈ n.flat) :
    m = n ∨ ∃ p k, (p, k) ∈ n.children ∧ m ∈ k.flat := by
  cases n with
  | branch test body arms otherwise =>
    simp only [flat, List.mem_cons, List.mem_append, mem_flatAll, mem_flatArms] at h
    rcases h with rfl | ⟨k, hk, hm⟩ | ⟨arm, harm, k, hk, hm⟩ | h
    · exact .inl rfl
    · exact .inr ⟨.statement, k, by simp [children, hk], hm⟩
    · refine .inr ⟨.statement, k, ?_, hm⟩
      simp only [children, List.cons_append, List.mem_cons, List.mem_append, List.mem_flatMap]
      exact .inr (.inl (.inr ⟨arm, harm, by simp [hk]⟩))
    · cases otherwise with
      | none => cases h
      | some block =>
        obtain ⟨k, hk, hm⟩ := mem_flatAll.mp h
        exact .inr ⟨.statement, k, by simp [children, hk], hm⟩
  | whileLoop test body =>
    simp only [flat, List.mem_cons, mem_flatAll] at h
    rcases h with rfl | ⟨k, hk, hm⟩
    · exact .inl rfl
    · exact .inr ⟨.statement, k, by simp [children, hk], hm⟩
  | forLoop init test update body =>
    simp only [flat, List.mem_cons, mem_flatAll] at h
    rcases h with rfl | rfl | rfl | ⟨k, hk, hm⟩
    · exact .inl rfl
    · exact .inr ⟨.header, m, by simp [children], self_mem_flat m⟩
    · exact .inr ⟨.header, m, by simp [children], self_mem_flat m⟩
    · exact .inr ⟨.statement, k, by simp [children, hk], hm⟩
  | _ =>
    simp only [flat, List.mem_singleton] at h
    exact .inl h

theorem exists_part_of_mem_flat {n : Node} (h : m ∈ n.flat) : m = n ∨ ∃ p, n.Part p m := by
  induction n using induction_children with
  | h n ih =>
    rcases exists_child_of_mem_flat h with rfl | ⟨p, k, hk, hm⟩
    · exact .inl rfl
    · right
      rcases ih p k hk hm with rfl | ⟨q, hq⟩
      · exact ⟨p, .child hk⟩
      · exact ⟨q, hq.of_child hk⟩

theorem exists_part_of_mem_flatAll (h : m ∈ flatAll ns) : ∃ p, (Node.program ns).Part p m := by
  obtain ⟨n, hn, hm⟩ := mem_flatAll.mp h
  have hchild : (Place.statement, n) ∈ (Node.program ns).children := List.mem_map_of_mem hn
  rcases exists_part_of_mem_flat hm with rfl | ⟨p, hp⟩
  · exact ⟨.statement, .child hchild⟩
  · exact ⟨p, hp.of_child hchild⟩

/-- The program declares the name with this number, wherever, and assigns nothing to it. -/
structure Fixed (ns : List Node) (name : String) (v : ℤ) : Prop where
  initial : ∃ type, .varDecl type name (.number (.int v)) ∈ flatAll ns
  unchanged : ∀ e, .assign name e ∉ flatAll ns

/-- When no name is declared twice, the declaration of a fixed name is the only one. -/
theorem Fixed.exists_eq {name : String} (h : Fixed ns name v) (hnodup : (names ns).Nodup) :
    ∃ type, .varDecl type name (.number (.int v)) ∈ flatAll ns ∧
      ∀ n ∈ flatAll ns, name ∈ n.added → n = .varDecl type name (.number (.int v)) := by
  obtain ⟨type, hdeclared⟩ := h.initial
  refine ⟨type, hdeclared, fun n hn hname => ?_⟩
  by_contra hne
  have : Std.Symm (Function.onFun List.Disjoint added) := ⟨fun _ _ h => List.Disjoint.symm h⟩
  have hapart := (List.nodup_flatMap.mp hnodup).2.forall hn hdeclared hne
  exact hapart hname (by simp [added])

end Node

namespace Target

open Node

/-! ## Values in a run -/

mutual

/-- Every simple statement of a translation stands for a statement of the program. -/
theorem exists_of_mem_simples {n : Node} {s : Stmt} (h : Translates n s) {simple : Simple}
    (hs : simple ∈ s.simples) : ∃ m ∈ n.flat, Translates m (.simple simple) := by
  match s, h with
  | .simple _, h =>
    obtain rfl := List.mem_singleton.mp hs
    exact ⟨n, self_mem_flat n, h⟩
  | .branch .., .branch ht hb ha ho =>
    simp only [Stmt.simples, List.mem_append] at hs
    simp only [flat, List.mem_cons, List.mem_append]
    rcases hs with hs | hs | hs
    · obtain ⟨m, hm, htranslates⟩ := exists_of_mem_simplesAll hb hs
      exact ⟨m, .inr (.inl hm), htranslates⟩
    · obtain ⟨m, hm, htranslates⟩ := exists_of_mem_simplesArms ha hs
      exact ⟨m, .inr (.inr (.inl hm)), htranslates⟩
    · obtain ⟨m, hm, htranslates⟩ := exists_of_mem_simplesOtherwise ho hs
      exact ⟨m, .inr (.inr (.inr hm)), htranslates⟩
  | .whileLoop .., .whileLoop ht hb =>
    obtain ⟨m, hm, htranslates⟩ := exists_of_mem_simplesAll hb hs
    exact ⟨m, List.mem_cons_of_mem _ hm, htranslates⟩
  | .forLoop .., .forLoop hi ht hu hb =>
    simp only [Stmt.simples, List.mem_cons] at hs
    simp only [flat, List.mem_cons]
    rcases hs with rfl | rfl | hs
    · exact ⟨_, .inr (.inl rfl), .start hi⟩
    · exact ⟨_, .inr (.inr (.inl rfl)), .start hu⟩
    · obtain ⟨m, hm, htranslates⟩ := exists_of_mem_simplesAll hb hs
      exact ⟨m, .inr (.inr (.inr hm)), htranslates⟩

theorem exists_of_mem_simplesAll {ns : List Node} {ss : List Stmt} (h : TranslatesAll ns ss)
    {simple : Simple} (hs : simple ∈ Stmt.simplesAll ss) :
    ∃ m ∈ flatAll ns, Translates m (.simple simple) := by
  match h with
  | .nil => cases hs
  | .cons hn hns =>
    rw [flatAll]
    rcases List.mem_append.mp hs with hs | hs
    · obtain ⟨m, hm, htranslates⟩ := exists_of_mem_simples hn hs
      exact ⟨m, List.mem_append_left _ hm, htranslates⟩
    · obtain ⟨m, hm, htranslates⟩ := exists_of_mem_simplesAll hns hs
      exact ⟨m, List.mem_append_right _ hm, htranslates⟩

theorem exists_of_mem_simplesArms {arms : List (Node × List Node)}
    {arms' : List (Expr × List Stmt)} (h : TranslatesArms arms arms') {simple : Simple}
    (hs : simple ∈ Stmt.simplesArms arms') :
    ∃ m ∈ flatArms arms, Translates m (.simple simple) := by
  match h with
  | .nil => cases hs
  | .cons ht hb ha =>
    rw [flatArms]
    rcases List.mem_append.mp hs with hs | hs
    · obtain ⟨m, hm, htranslates⟩ := exists_of_mem_simplesAll hb hs
      exact ⟨m, List.mem_append_left _ hm, htranslates⟩
    · obtain ⟨m, hm, htranslates⟩ := exists_of_mem_simplesArms ha hs
      exact ⟨m, List.mem_append_right _ hm, htranslates⟩

theorem exists_of_mem_simplesOtherwise {otherwise : Option (List Node)}
    {otherwise' : Option (List Stmt)} (h : TranslatesOtherwise otherwise otherwise')
    {simple : Simple} (hs : simple ∈ Stmt.simplesOtherwise otherwise') :
    ∃ m ∈ flatOtherwise otherwise, Translates m (.simple simple) := by
  match h with
  | .none => cases hs
  | .empty => cases hs
  | .some hn => exact exists_of_mem_simplesAll hn hs

end

/-- Every variable of this name has this value. -/
def Env.Pins (name : String) (v : ℤ) (env : Env) : Prop := ∀ u, (name, u) ∈ env → u = v

theorem lasting_pins (name : String) (v : ℤ) : Lasting (Env.Pins name v) :=
  fun _ _ h u hu => h u (List.mem_of_mem_drop hu)

theorem mem_of_mem_assign {name target : String} (hne : target ≠ name) {u : ℤ}
    (h : (name, u) ∈ env.assign target v) : (name, u) ∈ env := by
  induction env with
  | nil => cases h
  | cons entry rest ih =>
    rw [Env.assign] at h
    split_ifs at h with heq
    · rcases List.mem_cons.mp h with h | h
      · cases h
        exact absurd heq.symm hne
      · exact List.mem_cons_of_mem _ h
    · rcases List.mem_cons.mp h with h | h
      · exact h ▸ List.mem_cons_self
      · exact List.mem_cons_of_mem _ (ih h)

theorem lookup_of_pins {name : String} (h : env.Pins name v) :
    env.lookup name = if name ∈ env.names then some v else none := by
  induction env with
  | nil => rfl
  | cons entry rest ih =>
    obtain ⟨other, u⟩ := entry
    have hrest : Env.Pins name v rest := fun u hu => h u (List.mem_cons_of_mem _ hu)
    rw [List.lookup_cons]
    by_cases hother : name = other
    · subst hother
      simp [Env.names, h u List.mem_cons_self]
    · have hnames : name ∈ Env.names ((other, u) :: rest) ↔ name ∈ Env.names rest := by
        simp [Env.names, hother]
      simp only [beq_eq_false_iff_ne.mpr hother, ih hrest, hnames]

/-- The declaration of an integer with a number. -/
theorem simple_of_translates {name : String} {simple : Simple}
    (h : Translates (.varDecl (some .int) name (.number (.int v))) (.simple simple)) :
    ∃ n : ℕ, v = n ∧ simple = .declare "int" false name (.constant (Value.int n).display) := by
  cases h with
  | start h =>
    cases h with
    | declaration htype _ he =>
      obtain rfl := (by simpa [typeWords] using htype : _ = "int")
      cases he with
      | number hv _ =>
        cases hv with
        | int n => exact ⟨n, rfl, rfl⟩
      | infinite _ hf => cases hf

/-- A window dimension that is declared with a number and not assigned to has this value in every
run of an accepted program. -/
theorem pins_of_fixed {source : String} {name : String}
    (hns : Node.ofText source = .ok (.program ns)) (hbody : TranslatesAll ns body)
    (hnodup : (names ns).Nodup) (hname : NameRule.IsWindow name) (hfixed : Fixed ns name v) :
    (340 ≤ v ∧ v ≤ 1000) ∧
      ∀ env, Stmt.RunsAll body [] env → env.Pins name v := by
  obtain ⟨type, hmem, honly⟩ := hfixed.exists_eq hnodup
  obtain ⟨p, hp⟩ := exists_part_of_mem_flatAll hmem
  obtain ⟨k, rfl, hdeclares⟩ := hp.declares hns
  obtain ⟨rfl, hrange⟩ := hdeclares hname
  have hv : 340 ≤ v ∧ v ≤ 1000 := by simpa [Value.below?, Value.above?] using hrange _ rfl
  refine ⟨hv, fun env hrun => ?_⟩
  refine invariant_of_runsAll (lasting_pins name v) body (fun simple hsimple env t hdoes henv => ?_)
    hrun (by simp [Env.Pins])
  obtain ⟨n, hn, htranslates⟩ := exists_of_mem_simplesAll hbody hsimple
  cases hdoes with
  | @declare type other isPointer e u _ hvalue =>
    intro u' hu'
    rcases List.mem_cons.mp hu' with heq | hu'
    · obtain ⟨rfl, rfl⟩ := Prod.mk.inj heq
      have hadded : name ∈ n.added := by
        rw [← added_of_translates htranslates]
        exact List.mem_singleton.mpr rfl
      obtain rfl := honly n hn hadded
      obtain ⟨number, rfl, hsimple⟩ := simple_of_translates htranslates
      cases hsimple
      exact hvalue rfl rfl number (by omega) rfl
    · exact henv u' hu'
  | @assign target e u _ =>
    intro u' hu'
    refine henv u' (mem_of_mem_assign ?_ hu')
    rintro rfl
    cases htranslates with
    | start h =>
      cases h with
      | assignment _ _ => exact hfixed.unchanged _ hn
  | assignMember => exact henv
  | call => exact henv

/-! ## Reading the pixels -/

/-- What follows the last occurrence of a word in a text. -/
def afterLast? (word : List Char) : List Char → Option (List Char)
  | [] => none
  | c :: rest => (afterLast? word rest).or ((c :: rest).dropPrefix? word)

theorem afterLast?_append {word text rest : List Char} (h : afterLast? word text = some rest)
    (before : List Char) : afterLast? word (before ++ text) = some rest := by
  induction before with
  | nil => exact h
  | cons c before ih =>
    rw [List.cons_append, afterLast?, ih]
    rfl

/-- The arguments of a call, from its opening parenthesis on. -/
def callArguments (text : List Char) : List String :=
  (Text.pieces ',' (text.takeWhile (· != ')'))).map fun piece => String.ofList (Text.trim piece)

/-- The arguments with which a program makes an image and reads pixels into it: the size of the
image and the bits of a pixel, the area that is read, where the pixels go and how far apart rows
are. -/
structure Capture where
  width : String
  height : String
  bits : String
  area : String
  pixels : String
  pitch : String
deriving DecidableEq

namespace Capture

/-- The last two such calls in the text of a program. -/
def ofText? (text : List Char) : Option Capture := do
  let made ← afterLast? "SDL_CreateRGBSurfaceWithFormat(".toList text
  let read ← afterLast? "SDL_RenderReadPixels(".toList text
  match callArguments made, callArguments read with
  | [_, width, height, bits, _], [_, area, _, pixels, pitch] =>
    some ⟨width, height, bits, area, pixels, pitch⟩
  | _, _ => none

def standard : Capture :=
  ⟨"windowWidth", "windowHeight", "32", "NULL", "surface->pixels", "surface->pitch"⟩

/-- What stands before both calls does not matter. -/
theorem ofText?_append {text : List Char} {c : Capture} (h : ofText? text = some c)
    (before : List Char) : ofText? (before ++ text) = some c := by
  unfold ofText? at h ⊢
  obtain ⟨made, hmade, h⟩ := Option.bind_eq_some_iff.mp h
  obtain ⟨read, hread, h⟩ := Option.bind_eq_some_iff.mp h
  rw [afterLast?_append hmade, afterLast?_append hread]
  exact h

theorem ofText?_closing : ofText? ("\n".intercalate closingLines).toList = some standard := by
  -- texts take long to compute with, lists of characters do not
  simp only [String.toList_intercalate, closingLines, indented, List.map_cons, List.map_nil,
    List.cons_append, List.nil_append, String.toList_append, String.toList_ofList,
    String.reduceToList]
  decide +kernel

theorem ofText?_programText (body : List Stmt) :
    ofText? (programText body).toList = some standard := by
  rw [toList_programText, ← List.append_assoc]
  exact ofText?_append ofText?_closing _

end Capture

/-- An image with four bytes for each pixel and no gaps between its rows. -/
structure Surface where
  width : ℤ
  height : ℤ
deriving DecidableEq

namespace Surface

/-- How far apart rows are, in bytes. -/
def pitch (s : Surface) : ℤ := 4 * s.width

def size (s : Surface) : ℤ := s.pitch * s.height

/-- Where a byte of a pixel is put. -/
def offset (s : Surface) (x y byte : ℕ) : ℤ := y * s.pitch + 4 * x + byte

/-- All bytes of the pixels of an area with this width and height are put inside the image. -/
def HasRoomFor (s : Surface) (area : ℕ × ℕ) : Prop :=
  ∀ x y byte : ℕ, x < area.1 → y < area.2 → byte < 4 → s.offset x y byte < s.size

/-- There is room if the last byte has room. -/
theorem hasRoomFor_iff {s : Surface} (hs : 0 ≤ s.width) (columns rows : ℕ) :
    s.HasRoomFor (columns + 1, rows + 1) ↔ rows * s.width + columns < s.width * s.height := by
  unfold HasRoomFor offset size pitch
  constructor
  · intro h
    have hlast := h columns rows 3 (Nat.lt_succ_self _) (Nat.lt_succ_self _) (by decide)
    push_cast at hlast
    nlinarith
  · intro h x y byte hx hy hbyte
    have hrow : (y : ℤ) * s.width ≤ rows * s.width :=
      mul_le_mul_of_nonneg_right (by exact_mod_cast Nat.lt_succ_iff.mp hy) hs
    have hcolumn : (x : ℤ) ≤ columns := by exact_mod_cast Nat.lt_succ_iff.mp hx
    have hbyte : (byte : ℤ) < 4 := by exact_mod_cast hbyte
    nlinarith

end Surface

/-- The image that is made, if the names for its size are in scope. -/
def Capture.surface? (c : Capture) (env : Env) : Option Surface := do
  let width ← env.lookup c.width
  let height ← env.lookup c.height
  return ⟨width, height⟩

end Target

def Event.windowSize? : Event → Option (ℕ × ℕ)
  | .openWindow _ _ _ width height _ => some (width, height)
  | _ => none

/-- The size of the window that was opened last. -/
def Canvas.windowSize? (c : Canvas) : Option (ℕ × ℕ) :=
  c.events.reverse.findSome? Event.windowSize?

/-- The window has the same size in every program. -/
theorem Canvas.windowSize?_openWindow {refusals : Refusals} {c opened : Canvas}
    (h : c.openWindow refusals = (true, opened)) : opened.windowSize? = some (800, 600) := by
  unfold openWindow at h
  dsimp only at h
  split_ifs at h
  · cases (Prod.mk.inj h).1
  · cases (Prod.mk.inj h).1
  · cases (Prod.mk.inj h).1
  · obtain ⟨-, rfl⟩ := Prod.mk.inj h
    simp only [windowSize?, record, List.reverse_append]
    rfl

namespace Target

/-- The area that is read; no rectangle stands for the whole window. -/
def Capture.area? (c : Capture) (canvas : Canvas) : Option (ℕ × ℕ) :=
  if c.area = "NULL" then canvas.windowSize? else none

open Node

theorem names_nodup_of_check (h : TranslatesAll ns body) (hc : (Node.program ns).check = .ok ()) :
    (names ns).Nodup := by
  have hnodup := (ordered_programMarks h hc).nodup List.nodup_nil
  rwa [programMarks_append_showings, List.nil_append, declared_append, declared_map_uses,
    List.append_nil, (accounts_of_translatesAll .names h).declared_eq] at hnodup

/-- The statements that show cursors once more leave the variables as they are. -/
theorem runsAll_of_append_showings {cursors : List String} {t : Env}
    (h : Stmt.RunsAll (body ++ showings cursors) env t) : Stmt.RunsAll body env t := by
  induction body generalizing env with
  | nil =>
    induction cursors generalizing env with
    | nil => exact h
    | cons cursor cursors ih =>
      obtain ⟨u, hcall, hrest⟩ := h
      cases hcall
      exact ih hrest
  | cons s rest ih =>
    obtain ⟨u, hs, hrest⟩ := h
    exact ⟨u, hs, ih hrest⟩

theorem flatMap_added_of_translatesAll (h : TranslatesAll ns body) :
    body.flatMap Stmt.added = ns.flatMap Node.added := by
  induction ns generalizing body with
  | nil =>
    cases h
    rfl
  | cons n ns ih =>
    cases h with
    | cons hn hns => rw [List.flatMap_cons, List.flatMap_cons, added_of_translates hn, ih hns]

/-- An image of this size has room for the window if it is higher than the window by a row or two,
or as high and as wide. -/
theorem hasRoomFor_window_iff {w h : ℤ} (hw : 340 ≤ w ∧ w ≤ 1000) :
    (Surface.mk w h).HasRoomFor (800, 600) ↔
      602 ≤ h ∨ (h = 601 ∧ 400 ≤ w) ∨ (h = 600 ∧ 800 ≤ w) := by
  rw [@Surface.hasRoomFor_iff ⟨w, h⟩ (by dsimp only; omega) 799 599]
  push_cast
  constructor
  · intro hroom
    have hhigh : 600 ≤ h := by nlinarith
    by_cases hmore : 602 ≤ h
    · exact .inl hmore
    · obtain rfl | rfl : h = 600 ∨ h = 601 := by omega
      · exact .inr (.inr ⟨rfl, by omega⟩)
      · exact .inr (.inl ⟨rfl, by omega⟩)
  · rintro (hhigh | ⟨rfl, hwide⟩ | ⟨rfl, hwide⟩)
    · nlinarith
    · omega
    · omega

/-- At the end of every run, the image has the size that the fixed window dimensions say. -/
theorem surface?_of_fixed {source : String} {w h : ℤ} {cursors : List String}
    (hns : Node.ofText source = .ok (.program ns)) (hbody : TranslatesAll ns body)
    (hc : (Node.program ns).check = .ok ()) (hwidth : Fixed ns "windowWidth" w)
    (hheight : Fixed ns "windowHeight" h) (hrun : Stmt.RunsAll (body ++ showings cursors) [] env) :
    Capture.standard.surface? env =
      if "windowWidth" ∈ ns.flatMap added ∧ "windowHeight" ∈ ns.flatMap added then some ⟨w, h⟩
      else none := by
  have hnodup := names_nodup_of_check hbody hc
  have hrun := runsAll_of_append_showings hrun
  have hnames (name : String) : name ∈ env.names ↔ name ∈ ns.flatMap added := by
    rw [mem_names_of_runsAll body hrun, flatMap_added_of_translatesAll hbody]
    simp [Env.names]
  have hlookupWidth :=
    lookup_of_pins ((pins_of_fixed hns hbody hnodup (.inl rfl) hwidth).2 env hrun)
  have hlookupHeight :=
    lookup_of_pins ((pins_of_fixed hns hbody hnodup (.inr rfl) hheight).2 env hrun)
  simp only [hnames] at hlookupWidth hlookupHeight
  simp only [Capture.surface?, Capture.standard, hlookupWidth, hlookupHeight]
  split_ifs <;> simp_all

/-- The code of an accepted program makes an image as large as its window dimensions say, if these
are numbers that are never changed and are in scope at the end. It then reads the whole window into
the image. The image has room for the pixels exactly if it is high enough, since the window is 800
pixels wide and 600 pixels high in every program. -/
theorem capture_fits_iff {source : String} {ns : List Node} {w h : ℤ}
    (hns : Node.ofText source = .ok (.program ns)) (hc : (Node.program ns).check = .ok ())
    (hwidth : Fixed ns "windowWidth" w) (hheight : Fixed ns "windowHeight" h) :
    ∃ text statements capture, (Node.program ns).code .standard = .ok text ∧
      readProgram text = some statements ∧ Capture.ofText? text.toList = some capture ∧
      capture.bits = "32" ∧ capture.pixels = "surface->pixels" ∧ capture.pitch = "surface->pitch" ∧
      (∃ env, Stmt.RunsAll statements [] env) ∧
      (∀ env, Stmt.RunsAll statements [] env → capture.surface? env =
        if "windowWidth" ∈ ns.flatMap added ∧ "windowHeight" ∈ ns.flatMap added then some ⟨w, h⟩
        else none) ∧
      ∀ refusals canvas opened, Canvas.openWindow refusals canvas = (true, opened) →
        ∃ area, capture.area? opened = some area ∧ ((Surface.mk w h).HasRoomFor area ↔
          602 ≤ h ∨ (h = 601 ∧ 400 ≤ w) ∨ (h = 600 ∧ 800 ≤ w)) := by
  obtain ⟨ns', heq, hstatements⟩ := isStatement_of_ofText hns
  obtain rfl := Node.program.inj heq
  obtain ⟨body, hbody⟩ := exists_translatesAll_of_check hstatements hc
  obtain ⟨hw, -⟩ := pins_of_fixed hns hbody (names_nodup_of_check hbody hc) (.inl rfl) hwidth
  refine ⟨_, _, .standard, code_of_translates hbody, readProgram_of_translates hbody,
    Capture.ofText?_programText body, rfl, rfl, rfl, exists_runsAll _ _,
    fun env hrun => surface?_of_fixed hns hbody hc hwidth hheight hrun,
    fun refusals canvas opened hopened => ?_⟩
  exact ⟨(800, 600), Canvas.windowSize?_openWindow hopened, hasRoomFor_window_iff hw⟩

/-- The program that declares one window dimension with a number, and the other with 400. -/
theorem fixed_sizing {name : String} (hname : NameRule.IsWindow name) (n : ℤ) :
    Fixed (sizing name (.number (.int n))) name n ∧
      Fixed (sizing name (.number (.int n))) (otherDimension name) 400 := by
  rcases hname with hname | hname <;> cases hname <;>
    refine ⟨⟨⟨some .int, ?_⟩, fun e => ?_⟩, ⟨some .int, ?_⟩, fun e => ?_⟩ <;>
    simp [sizing, otherDimension, flatAll, flat]

theorem isConstant_hundreds {n : ℕ} (hn : n < 10 ^ 3) : (Node.number (.int n)).IsConstant n :=
  .number (hn.trans_le (Nat.pow_le_pow_right (by decide) (by decide)))

/-- A window of 400 by 650 pixels. -/
def tallProgram : List Node := sizing "windowHeight" (.number (.int 650))

theorem capture_fits_iff_tall :
    Node.ofText (source (.program tallProgram)) = .ok (.program tallProgram) ∧
      (Node.program tallProgram).check = .ok () ∧ Fixed tallProgram "windowWidth" 400 ∧
      Fixed tallProgram "windowHeight" 650 ∧
      ∃ text statements capture, (Node.program tallProgram).code .standard = .ok text ∧
        readProgram text = some statements ∧ Capture.ofText? text.toList = some capture ∧
        (∀ env, Stmt.RunsAll statements [] env → capture.surface? env = some ⟨400, 650⟩) ∧
        ∀ refusals canvas opened, Canvas.openWindow refusals canvas = (true, opened) →
          ∃ area, capture.area? opened = some area ∧ (Surface.mk 400 650).HasRoomFor area := by
  have hname : NameRule.IsWindow "windowHeight" := .inr rfl
  have hconstant := isConstant_hundreds (by decide : 650 < 10 ^ 3)
  have hns : Node.ofText (source (.program tallProgram)) = .ok (.program tallProgram) :=
    ofText_sizing hname hconstant fun _ => by decide
  have hc : (Node.program tallProgram).check = .ok () := check_sizing hname hconstant
  obtain ⟨hheight, hwidth⟩ := fixed_sizing hname 650
  obtain ⟨text, statements, capture, hcode, hread, hcapture, -, -, -, -, hsurface, hroom⟩ :=
    capture_fits_iff hns hc hwidth hheight
  refine ⟨hns, hc, hwidth, hheight, text, statements, capture, hcode, hread, hcapture,
    fun env hrun => (hsurface env hrun).trans (if_pos (by decide)),
    fun refusals canvas opened hopened => ?_⟩
  obtain ⟨area, harea, hfits⟩ := hroom refusals canvas opened hopened
  exact ⟨area, harea, hfits.mpr (by decide)⟩

/-- A window of 400 by 400 pixels. -/
def squareSource : String := "var int windowWidth = 400 ; var int windowHeight = 400 ; "

/-- The pixels of the window do not fit into the image that a program makes. -/
theorem square_capture_overruns : ∃ tree text statements capture env surface area,
    Node.ofText squareSource = .ok tree ∧ tree.check = .ok () ∧ tree.code .standard = .ok text ∧
      readProgram text = some statements ∧ Capture.ofText? text.toList = some capture ∧
      Stmt.RunsAll statements [] env ∧ capture.surface? env = some surface ∧
      capture.area? (Canvas.fresh.openWindow ⟨false, false, false⟩).2 = some area ∧
      ¬surface.HasRoomFor area := by
  have hname : NameRule.IsWindow "windowWidth" := .inl rfl
  have hconstant := isConstant_hundreds (by decide : 400 < 10 ^ 3)
  have hns := ofText_sizing hname hconstant fun _ => by decide
  have hc := check_sizing hname hconstant
  obtain ⟨hwidth, hheight⟩ := fixed_sizing hname 400
  have hsource : source (.program (sizing "windowWidth" (.number (.int 400)))) = squareSource := by
    decide +kernel
  obtain ⟨ns, heq, hstatements⟩ := isStatement_of_ofText hns
  obtain ⟨body, hbody⟩ := exists_translatesAll_of_check (Node.program.inj heq ▸ hstatements) hc
  obtain ⟨env, hrun⟩ := exists_runsAll (body ++ showings (Stmt.shownAll body)) []
  have hsurface := surface?_of_fixed hns hbody hc hwidth hheight hrun
  have hopened : Canvas.fresh.openWindow ⟨false, false, false⟩ =
      (true, (Canvas.fresh.openWindow ⟨false, false, false⟩).2) := rfl
  refine ⟨_, _, _, .standard, env, ⟨400, 400⟩, (800, 600), hsource ▸ hns, hc,
    code_of_translates hbody, readProgram_of_translates hbody, Capture.ofText?_programText body,
    hrun, hsurface.trans (if_pos (by decide)), Canvas.windowSize?_openWindow hopened, ?_⟩
  rw [hasRoomFor_window_iff (by decide)]
  decide

end Target

end DrawPlus
