import DrawPlus.Proofs.Canvas.Thickness
import DrawPlus.Proofs.Target.Capture
import DrawPlus.Proofs.Target.Markers

/-!
# Code and the cursors of the library

The code of a program keeps the pointers that the library hands out in its variables and calls the
library through them; only the thickness of a cursor it writes itself. `Acts` says what one action
of a trace does to the library and to the pointers in scope, and `Performs` what a trace does.
Numbers that code computes are left open, but a number that is written in it stands for itself.

A pointer is empty when all places of the pool were taken. The functions of the library look at that
and the write does not, so a run ends where code writes through an empty pointer. As long as no more
than ten cursors have been created there is none. Thicknesses stay positive exactly as long as no
other value is written.
-/

namespace DrawPlus.Target

open Node

/-! ## What an action does -/

/-- One thing that code does with cursors. -/
inductive Deed where
  | call (made : Canvas.Call)
  | write (cursor : Option ℕ) (thickness : ℤ)

namespace Deed

/-- The canvas afterwards. There is none if something is written through an empty pointer. -/
def carryOut (c : Canvas) : Deed → Option Canvas
  | .call made => some (c.perform made)
  | .write cursor thickness => c.writeThickness cursor thickness

def carryOutAll (c : Canvas) : List Deed → Option Canvas
  | [] => some c
  | d :: ds => (d.carryOut c).bind fun c' => carryOutAll c' ds

def creates : Deed → Bool
  | .call (.createCursor _ _) => true
  | _ => false

/-- All thicknesses are positive, at the beginning and after each of these. -/
def AllThick (c : Canvas) (ds : List Deed) : Prop :=
  ∀ early, early <+: ds → ∀ c', carryOutAll c early = some c' → c'.Thick

/-- No thickness is written that is not positive. -/
def WritesPositive (ds : List Deed) : Prop := ∀ p n, .write p n ∈ ds → 1 ≤ n

end Deed

/-- The library, and the pointers in scope, block by block from the innermost. -/
structure Machine where
  canvas : Canvas
  blocks : List (List (String × Option ℕ))

namespace Machine

def pointers (m : Machine) : List (String × Option ℕ) := m.blocks.flatten

def pointer? (m : Machine) (w : String) : Option (Option ℕ) := m.pointers.lookup w

/-- The blocks after a pointer has been declared in the innermost one. -/
def declared (m : Machine) (w : String) (p : Option ℕ) : List (List (String × Option ℕ)) :=
  ((w, p) :: m.blocks.headD []) :: m.blocks.tail

/-- The window has been opened, and nothing is declared yet. -/
def start (refusals : Refusals) : Machine := ⟨(Canvas.fresh.openWindow refusals).2, [[]]⟩

end Machine

/-- The call that a function makes for a pointer. Its other arguments are left open. -/
inductive Invokes (p : Option ℕ) : String → Canvas.Call → Prop
  | move (distance : Float) : Invokes p "move_cursor" (.move p distance)
  | rotate (angle : Float) : Invokes p "rotate_cursor" (.rotate p angle)
  | color (color : Color) : Invokes p "set_cursor_color" (.setColor p color)
  | visible : Invokes p "set_cursor_visibility" (.setVisible p true)
  | line (length : Float) : Invokes p "cursor_draw_line" (.drawLine p length)
  | rectangle (width height : Float) (filled : Bool) :
      Invokes p "cursor_draw_rectangle" (.drawRectangle p width height filled)
  | circle (radius : Float) (filled : Bool) :
      Invokes p "cursor_draw_circle" (.drawCircle p radius filled)
  | triangle (base height : Float) (filled : Bool) :
      Invokes p "cursor_draw_triangle" (.drawTriangle p base height filled)
  | ellipse (radiusX radiusY : Float) (filled : Bool) :
      Invokes p "cursor_draw_ellipse" (.drawEllipse p radiusX radiusY filled)

/-- The statement that changes the thickness of a cursor. -/
def Simple.thickening (w : String) (e : Expr) : Simple :=
  .assignMember w "thickness" (.cast "int" e)

/-- What an action does, and the machine afterwards. -/
inductive Acts (m : Machine) : Action → List Deed → Machine → Prop
  | enters : Acts m .enters [] { m with blocks := [] :: m.blocks }
  | leaves : Acts m .leaves [] { m with blocks := m.blocks.tail }
  | creates {w : String} {es : List Expr} (x y : Float) :
      Acts m (.does (.declare "Cursor" true w (.call "create_cursor" es)))
        [.call (.createCursor x y)]
        ⟨(m.canvas.createCursor x y).2, m.declared w (m.canvas.createCursor x y).1⟩
  | writes {w : String} {e : Expr} {p : Option ℕ} {n : ℤ} {c : Canvas} : m.pointer? w = some p →
      e.CanBe n → m.canvas.writeThickness p n = some c →
      Acts m (.does (.thickening w e)) [.write p n] { m with canvas := c }
  | invokes {f w : String} {es : List Expr} {p : Option ℕ} {call : Canvas.Call} :
      m.pointer? w = some p → Invokes p f call →
      Acts m (.does (.call f (.word w :: es))) [.call call]
        { m with canvas := m.canvas.perform call }
  | declares {type w : String} {e : Expr} : Acts m (.does (.declare type false w e)) [] m
  | assigns {w : String} {e : Expr} : Acts m (.does (.assign w e)) [] m

/-- What a trace does, and the machine afterwards. -/
inductive Performs : Machine → List Action → List Deed → Machine → Prop
  | nil {m : Machine} : Performs m [] [] m
  | cons {m m' m'' : Machine} {a : Action} {as : List Action} {ds ds' : List Deed} :
      Acts m a ds m' → Performs m' as ds' m'' → Performs m (a :: as) (ds ++ ds') m''

/-- Statements can do this from the opening of the window on, and leave this machine behind; they
need not have come to their end. -/
def Reaches (refusals : Refusals) (statements : List Stmt) (ds : List Deed) (m : Machine) : Prop :=
  ∃ trace part, Stmt.ExecutesAll statements trace ∧ part <+: trace ∧
    Performs (.start refusals) part ds m

/-! ## Pointers -/

/-- What is known of the pointers in scope, and of those in blocks around, when this many cursors
have been asked for: they lead to active cursors, or are empty and there were too many. -/
structure Machine.Tracks (m : Machine) (created : ℕ) (given : List ℕ) : Prop where
  sound : m.canvas.Sound given
  count : m.canvas.activeCount = min created maxCursors
  pointers : ∀ w p, (w, p) ∈ m.pointers →
    (∃ i ∈ given, p = some i) ∨ p = none ∧ maxCursors < created

section

variable {m m' : Machine} {created : ℕ} {given : List ℕ} {p : Option ℕ} {w : String}

theorem Machine.mem_of_pointer? (h : m.pointer? w = some p) : (w, p) ∈ m.pointers := by
  obtain ⟨before, after, heq, -⟩ := List.lookup_eq_some_iff.mp h
  rw [heq]
  exact List.mem_append_right _ (.head _)

theorem Machine.mem_declared {entry : String × Option ℕ}
    (h : entry ∈ (m.declared w p).flatten) : entry = (w, p) ∨ entry ∈ m.pointers := by
  rw [Machine.declared, List.flatten_cons, List.cons_append, List.mem_cons] at h
  refine h.imp_right fun h => ?_
  rw [Machine.pointers]
  cases hblocks : m.blocks with
  | nil => simp [hblocks] at h
  | cons block blocks => simpa [hblocks] using h

theorem Machine.tracks_start (refusals : Refusals) : (Machine.start refusals).Tracks 0 [] where
  sound := Canvas.sound_run [.openWindow refusals]
  count := by
    cases Canvas.step_openWindow refusals (c := Canvas.fresh) with
    | rest _ hcount => exact hcount
    | change hcall => cases hcall
    | create hcall => cases hcall
  pointers := by simp [Machine.start, Machine.pointers]

/-- A call for a pointer creates no cursor. -/
theorem Invokes.handsOut? {f : String} {call : Canvas.Call} (h : Invokes p f call) (c : Canvas) :
    call.handsOut? c = none ∧ (c.perform call).activeCount = c.activeCount := by
  have hnone : call.handsOut? c = none := by cases h <;> rfl
  refine ⟨hnone, ?_⟩
  cases Canvas.step_perform c call with
  | rest _ hcount => exact hcount
  | change _ _ _ _ _ hcount => exact hcount
  | create hcall => cases h <;> cases hcall

theorem Machine.Tracks.createCursor (h : m.Tracks created given) (w : String) (x y : Float) :
    ∃ given', Machine.Tracks
      ⟨(m.canvas.createCursor x y).2, m.declared w (m.canvas.createCursor x y).1⟩
      (created + 1) given' := by
  have hsound := h.sound.step (Canvas.step_createCursor x y)
  have hcount := h.count
  refine ⟨_, hsound, ?_, ?_⟩
  · rcases h.sound.createCursor_cases x y with ⟨hfull, -, texts, hprints⟩ | ⟨hroom, slot, -, hnew⟩
    · change (m.canvas.createCursor x y).2.activeCount = _
      rw [hprints]
      change m.canvas.activeCount = _
      omega
    · change (m.canvas.createCursor x y).2.activeCount = _
      rw [hnew.count]
      omega
  · intro v p hp
    rcases Machine.mem_declared hp with heq | hold
    · cases heq
      cases hnew : (m.canvas.createCursor x y).1 with
      | some slot =>
        refine .inl ⟨slot, List.mem_append_right _ ?_, rfl⟩
        change slot ∈ (m.canvas.createCursor x y).1.toList
        simp [hnew]
      | none =>
        rcases h.sound.createCursor_cases x y with ⟨hfull, -⟩ | ⟨-, slot, hslot, -⟩
        · exact .inr ⟨rfl, by omega⟩
        · rw [hnew] at hslot
          cases hslot
    · rcases h.pointers v p hold with ⟨i, hi, hpi⟩ | ⟨hnone, hmany⟩
      · exact .inl ⟨i, List.mem_append_left _ hi, hpi⟩
      · exact .inr ⟨hnone, by omega⟩

/-- An action keeps what is known of the pointers. -/
theorem Machine.Tracks.act {a : Action} {ds : List Deed} (h : m.Tracks created given)
    (hact : Acts m a ds m') : ∃ given', m'.Tracks (created + ds.countP Deed.creates) given' := by
  cases hact with
  | enters => exact ⟨given, h.sound, h.count, h.pointers⟩
  | leaves =>
    refine ⟨given, h.sound, h.count, fun w p hp => h.pointers w p ?_⟩
    exact (List.tail_sublist m.blocks).flatten.subset hp
  | @creates w es x y => exact h.createCursor w x y
  | writes _ _ hwrite =>
    have hsound := h.sound.writeThickness hwrite
    exact ⟨given, hsound.1, hsound.2.trans h.count, h.pointers⟩
  | @invokes f w es p call _ hinvokes =>
    obtain ⟨hnone, hcount⟩ := hinvokes.handsOut? m.canvas
    have hsound := h.sound.step (Canvas.step_perform m.canvas call)
    have hcreates : [Deed.call call].countP Deed.creates = 0 := by cases hinvokes <;> rfl
    rw [hnone, Option.toList_none, List.append_nil] at hsound
    rw [hcreates]
    exact ⟨given, hsound, hcount.trans h.count, h.pointers⟩
  | declares | assigns => exact ⟨given, h⟩

theorem Machine.Tracks.performs {as : List Action} {ds : List Deed} (h : m.Tracks created given)
    (hperforms : Performs m as ds m') :
    ∃ given', m'.Tracks (created + ds.countP Deed.creates) given' := by
  induction hperforms generalizing created given with
  | nil => exact ⟨given, h⟩
  | cons hact _ ih =>
    obtain ⟨given', h'⟩ := h.act hact
    rw [List.countP_append, ← Nat.add_assoc]
    exact ih h'

/-- A pointer that is not empty leads to an active cursor. -/
theorem Machine.Tracks.active (h : m.Tracks created given) {i : ℕ}
    (hw : m.pointer? w = some (some i)) :
    ∃ k, m.canvas.slots[i]? = some k ∧ k.active = true := by
  rcases h.pointers w _ (Machine.mem_of_pointer? hw) with ⟨j, hj, heq⟩ | ⟨hnone, -⟩
  · cases heq
    exact h.sound.used i hj
  · cases hnone

/-! ## Thicknesses -/

theorem allThick_nil {c : Canvas} : Deed.AllThick c [] ↔ c.Thick := by
  simp [Deed.AllThick, Deed.carryOutAll]

theorem allThick_cons {c c' : Canvas} {d : Deed} (h : d.carryOut c = some c') (ds : List Deed) :
    Deed.AllThick c (d :: ds) ↔ c.Thick ∧ Deed.AllThick c' ds := by
  have hd (ds : List Deed) : Deed.carryOutAll c (d :: ds) = Deed.carryOutAll c' ds := by
    rw [Deed.carryOutAll, h, Option.bind_some]
  constructor
  · intro hall
    refine ⟨hall [] List.nil_prefix c rfl, fun early hearly c'' hc => ?_⟩
    exact hall (d :: early) (List.cons_prefix_cons.mpr ⟨rfl, hearly⟩) c'' ((hd early).trans hc)
  · rintro ⟨hthick, hall⟩ early hearly c'' hc
    rcases List.prefix_cons_iff.mp hearly with rfl | ⟨rest, rfl, hrest⟩
    · cases hc
      exact hthick
    · rw [hd] at hc
      exact hall rest hrest c'' hc

theorem carryOutAll_of_acts {a : Action} {ds : List Deed} (h : Acts m a ds m') :
    Deed.carryOutAll m.canvas ds = some m'.canvas := by
  cases h with
  | writes _ _ hwrite =>
    rw [Deed.carryOutAll, Deed.carryOut, hwrite]
    rfl
  | _ => rfl

theorem carryOutAll_append {c c' : Canvas} {ds : List Deed} (h : Deed.carryOutAll c ds = some c')
    (ds' : List Deed) : Deed.carryOutAll c (ds ++ ds') = Deed.carryOutAll c' ds' := by
  induction ds generalizing c with
  | nil =>
    cases h
    rfl
  | cons d ds ih =>
    rw [Deed.carryOutAll] at h
    obtain ⟨c'', hd, hds⟩ := Option.bind_eq_some_iff.mp h
    rw [List.cons_append, Deed.carryOutAll, hd, Option.bind_some, ih hds]

/-- What is done on the way leads from the canvas at the beginning to the one at the end. -/
theorem carryOutAll_of_performs {as : List Action} {ds : List Deed} (h : Performs m as ds m') :
    Deed.carryOutAll m.canvas ds = some m'.canvas := by
  induction h with
  | nil => rfl
  | cons hact _ ih => rw [carryOutAll_append (carryOutAll_of_acts hact), ih]

/-- What an action does is one thing at most, and all thicknesses are positive afterwards exactly if
nothing else has been written. -/
theorem Machine.Tracks.deed {a : Action} {ds : List Deed} (h : m.Tracks created given)
    (hthick : m.canvas.Thick) (hact : Acts m a ds m') :
    (ds = [] ∧ m'.canvas = m.canvas) ∨
      ∃ d, ds = [d] ∧ d.carryOut m.canvas = some m'.canvas ∧
        (m'.canvas.Thick ↔ Deed.WritesPositive [d]) := by
  have hcall (call : Canvas.Call) : Deed.WritesPositive [.call call] := by
    simp [Deed.WritesPositive]
  cases hact with
  | enters | leaves | declares | assigns => exact .inl ⟨rfl, rfl⟩
  | creates x y =>
    refine .inr ⟨_, rfl, rfl, iff_of_true ?_ (hcall _)⟩
    exact Canvas.thick_createCursor hthick x y
  | @writes w e p n c hw _ hwrite =>
    refine .inr ⟨_, rfl, hwrite, ?_⟩
    cases p with
    | none => cases hwrite
    | some i =>
      obtain ⟨k, hslot, hactive⟩ := h.active hw
      rw [Canvas.thick_writeThickness_iff hthick hslot hactive hwrite]
      simp [Deed.WritesPositive]
  | @invokes f w es p call hw hinvokes =>
    exact .inr ⟨_, rfl, rfl, iff_of_true (Canvas.thick_perform hthick call) (hcall _)⟩

theorem writesPositive_append {ds ds' : List Deed} :
    Deed.WritesPositive (ds ++ ds') ↔ Deed.WritesPositive ds ∧ Deed.WritesPositive ds' := by
  simp only [Deed.WritesPositive, List.mem_append, or_imp, forall_and]

/-- All thicknesses stay positive in a run exactly if no other ones are written. -/
theorem allThick_iff {as : List Action} {ds : List Deed} (h : m.Tracks created given)
    (hthick : m.canvas.Thick) (hperforms : Performs m as ds m') :
    Deed.AllThick m.canvas ds ↔ Deed.WritesPositive ds := by
  induction hperforms generalizing created given with
  | nil => exact iff_of_true (allThick_nil.mpr hthick) (by simp [Deed.WritesPositive])
  | @cons m m' _ a as ds ds' hact _ ih =>
    obtain ⟨given', h'⟩ := h.act hact
    rw [writesPositive_append]
    rcases h.deed hthick hact with ⟨rfl, hcanvas⟩ | ⟨d, rfl, hd, hiff⟩
    · rw [hcanvas] at ih
      rw [List.nil_append, ih h' hthick]
      simp [Deed.WritesPositive]
    · rw [List.singleton_append, allThick_cons hd]
      by_cases hpos : Deed.WritesPositive [d]
      · rw [ih h' (hiff.mpr hpos)]
        exact and_congr_left' (iff_of_true hthick hpos)
      · refine iff_of_false (fun hall => ?_) fun hall => hpos hall.1
        exact hpos (hiff.mp (hall.2 [] List.nil_prefix _ rfl))

/-! ## Where a run can go on -/

def Simple.cursor? : Simple → Option String
  | .assignMember w _ _ => some w
  | .call _ (.word w :: _) => some w
  | _ => none

theorem canBe_number (n : ℕ) : (Expr.constant (Value.int n).display).CanBe n := by
  intro k _ hk
  exact Value.int.inj (Value.eq_of_display (.int n) (.int k) rfl rfl (Expr.constant.inj hk))

theorem exists_canBe (e : Expr) : ∃ v, e.CanBe v := by
  by_cases hnumber : ∃ n : ℕ, n < 2 ^ 31 ∧ e = .constant (Value.int n).display
  · obtain ⟨n, -, rfl⟩ := hnumber
    exact ⟨n, canBe_number n⟩
  · exact ⟨0, fun n hn he => absurd ⟨n, hn, he⟩ hnumber⟩

theorem exists_invokes {method f : String} {k : ℕ} (h : (method, f, k) ∈ changeCalls ++ drawCalls)
    (p : Option ℕ) : ∃ call, Invokes p f call := by
  simp only [changeCalls, drawCalls, List.cons_append, List.nil_append, List.mem_cons,
    Prod.mk.injEq, List.not_mem_nil, or_false] at h
  rcases h with ⟨-, rfl, -⟩ | ⟨-, rfl, -⟩ | ⟨-, rfl, -⟩ | ⟨-, rfl, -⟩ | ⟨-, rfl, -⟩ | ⟨-, rfl, -⟩ |
    ⟨-, rfl, -⟩ | ⟨-, rfl, -⟩
  · exact ⟨_, .move 0⟩
  · exact ⟨_, .rotate 0⟩
  · exact ⟨_, .color .black⟩
  · exact ⟨_, .line 0⟩
  · exact ⟨_, .rectangle 0 0 true⟩
  · exact ⟨_, .circle 0 true⟩
  · exact ⟨_, .triangle 0 0 true⟩
  · exact ⟨_, .ellipse 0 0 true⟩

theorem acts_of_call {f : String} {es : List Expr}
    (hscope : ∀ v ∈ (Simple.call f (.word w :: es)).cursor?, (m.pointer? v).isSome = true)
    (hinvokes : ∀ p, ∃ call, Invokes p f call) :
    ∃ ds m', Acts m (.does (.call f (.word w :: es))) ds m' := by
  obtain ⟨p, hp⟩ := Option.isSome_iff_exists.mp (hscope w rfl)
  obtain ⟨call, hcall⟩ := hinvokes p
  exact ⟨_, _, .invokes hp hcall⟩

/-- A run can go on with any statement whose cursor is in scope, unless the statement writes through
an empty pointer. -/
theorem Machine.Tracks.exists_acts_iff (h : m.Tracks created given) {s : Simple}
    (hs : (∃ n, Translates n (.simple s)) ∨ ∃ w, s = .showing w)
    (hscope : ∀ w ∈ s.cursor?, (m.pointer? w).isSome = true) :
    (∃ ds m', Acts m (.does s) ds m') ↔ ¬∃ w e, s = .thickening w e ∧ m.pointer? w = some none := by
  have hother (hs : ∀ w e, s ≠ .thickening w e) (hact : ∃ ds m', Acts m (.does s) ds m') :
      (∃ ds m', Acts m (.does s) ds m') ↔
        ¬∃ w e, s = .thickening w e ∧ m.pointer? w = some none := by
    refine iff_of_true hact ?_
    rintro ⟨w, e, heq, -⟩
    exact hs w e heq
  rcases hs with ⟨n, hn⟩ | ⟨w, rfl⟩
  swap
  · exact hother nofun (acts_of_call hscope fun p => ⟨_, .visible⟩)
  cases hn with
  | start hn =>
    cases hn with
    | declaration => exact hother nofun ⟨_, _, .declares⟩
    | assignment => exact hother nofun ⟨_, _, .assigns⟩
  | creation => exact hother nofun ⟨_, _, .creates 0 0⟩
  | change _ hf =>
    exact hother nofun (acts_of_call hscope (exists_invokes (List.mem_append_left _ hf)))
  | draw _ hf =>
    exact hother nofun (acts_of_call hscope (exists_invokes (List.mem_append_right _ hf)))
  | visible => exact hother nofun (acts_of_call hscope fun p => ⟨_, .visible⟩)
  | @thickness w n ns e es _ _ =>
    obtain ⟨p, hp⟩ := Option.isSome_iff_exists.mp (hscope w rfl)
    cases p with
    | none =>
      refine iff_of_false ?_ fun hnot => hnot ⟨w, e, rfl, hp⟩
      rintro ⟨ds, m', hact⟩
      cases hact with
      | writes hw _ hwrite =>
        cases hp.symm.trans hw
        cases hwrite
    | some i =>
      obtain ⟨k, hslot, -⟩ := h.active hp
      obtain ⟨v, hv⟩ := exists_canBe e
      obtain ⟨c, hwrite⟩ : ∃ c, m.canvas.writeThickness (some i) v = some c :=
        ⟨_, Canvas.writeThickness_eq_some.mpr ⟨i, k, rfl, hslot, rfl⟩⟩
      refine iff_of_true ⟨_, _, .writes hp hv hwrite⟩ ?_
      rintro ⟨w', e', heq, hnone⟩
      cases heq
      rw [hp] at hnone
      cases hnone

/-- What is written has been computed by a statement that changes the thickness of a cursor. -/
theorem exists_of_write_mem {as : List Action} {ds : List Deed} (h : Performs m as ds m') {n : ℤ}
    (hn : .write p n ∈ ds) : ∃ w e, .does (.thickening w e) ∈ as ∧ e.CanBe n := by
  induction h with
  | nil => cases hn
  | cons hact _ ih =>
    rcases List.mem_append.mp hn with hn | hn
    · cases hact with
      | @writes w e p n' c _ he _ =>
        cases List.mem_singleton.mp hn
        exact ⟨w, e, .head _, he⟩
      | creates | invokes => cases List.mem_singleton.mp hn
      | _ => cases hn
    · obtain ⟨w, e, hmem, he⟩ := ih hn
      exact ⟨w, e, .tail _ hmem, he⟩

end

/-! ## Programs -/

theorem simplesAll_append (ss ss' : List Stmt) :
    Stmt.simplesAll (ss ++ ss') = Stmt.simplesAll ss ++ Stmt.simplesAll ss' := by
  induction ss with
  | nil => rfl
  | cons s ss ih => rw [List.cons_append, Stmt.simplesAll, Stmt.simplesAll, ih, List.append_assoc]

theorem simplesAll_showings (cursors : List String) :
    Stmt.simplesAll (showings cursors) = cursors.map Simple.showing := by
  induction cursors with
  | nil => rfl
  | cons w cursors ih => exact congrArg (Simple.showing w :: ·) ih

section

variable {ns : List Node} {body : List Stmt}

theorem exists_translates_or_showing (h : TranslatesAll ns body) {cursors : List String}
    {s : Simple} (hs : s ∈ Stmt.simplesAll (body ++ showings cursors)) :
    (∃ n ∈ flatAll ns, Translates n (.simple s)) ∨ ∃ w, s = .showing w := by
  rw [simplesAll_append, simplesAll_showings, List.mem_append, List.mem_map] at hs
  refine hs.imp (exists_of_mem_simplesAll h) ?_
  rintro ⟨w, -, rfl⟩
  exact ⟨w, rfl⟩

theorem exists_of_translates_thickness {w : String} {n : Node} {rest : List Node} {s : Stmt}
    (h : Translates (.cursorMethod w "thickness" (n :: rest)) s) :
    ∃ e, TranslatesExpr n e ∧ s = .simple (.thickening w e) := by
  generalize hnode : Node.cursorMethod w "thickness" (n :: rest) = node at h
  cases h with
  | start h => cases h <;> cases hnode
  | change _ hf =>
    have hall : ∀ entry ∈ changeCalls, entry.1 ≠ "thickness" := by decide
    simp only [Node.cursorMethod.injEq, Value.text.injEq] at hnode
    exact absurd hnode.2.1.symm (hall _ hf)
  | thickness _ hes =>
    cases hnode
    cases hes with
    | cons he => exact ⟨_, he, rfl⟩
  | visible => simp at hnode
  | _ => cases hnode

/-- A program in which only numbers from 1 to 2³¹ - 1 are written as thicknesses. A larger one is
cut to 32 bits when it is written, and may come out negative. -/
def ThickensByNumbers (ns : List Node) : Prop :=
  ∀ w given, .cursorMethod w "thickness" given ∈ flatAll ns →
    ∃ v : ℕ, given = [.number (.int v)] ∧ 1 ≤ v ∧ v < 2 ^ 31

theorem node_of_translates_thickening {n : Node} {w : String} {e : Expr}
    (h : Translates n (.simple (.thickening w e))) :
    ∃ m rest, n = .cursorMethod w "thickness" (m :: rest) ∧ TranslatesExpr m e := by
  cases h with
  | start h => cases h
  | thickness _ hes =>
    cases hes with
    | cons he => exact ⟨_, _, rfl, he⟩

theorem writesPositive_of_numbers (h : TranslatesAll ns body) {cursors : List String}
    (hnumbers : ThickensByNumbers ns) {refusals : Refusals} {ds : List Deed} {m : Machine}
    (hreaches : Reaches refusals (body ++ showings cursors) ds m) : Deed.WritesPositive ds := by
  obtain ⟨trace, part, htrace, hpart, hperforms⟩ := hreaches
  intro p n hn
  obtain ⟨w, e, hdoes, he⟩ := exists_of_write_mem hperforms hn
  have hmem := within_of_executesAll _ htrace _ (hpart.subset hdoes)
  rcases exists_translates_or_showing h hmem with ⟨node, hnode, htranslates⟩ | ⟨v, hv⟩
  · obtain ⟨m, rest, rfl, hm⟩ := node_of_translates_thickening htranslates
    obtain ⟨v, hgiven, hpos, hlt⟩ := hnumbers _ _ hnode
    cases hgiven
    cases hm with
    | number =>
      rw [he v hlt rfl]
      exact_mod_cast hpos
    | infinite _ hf => cases hf
  · cases hv

end

theorem thick_start (refusals : Refusals) : (Machine.start refusals).canvas.Thick :=
  Canvas.thick_run [.openWindow refusals]

section

variable {refusals : Refusals} {statements : List Stmt} {ds : List Deed} {m : Machine}

theorem tracks_of_reaches (h : Reaches refusals statements ds m) :
    ∃ given, m.Tracks (ds.countP Deed.creates) given := by
  obtain ⟨_, _, -, -, hperforms⟩ := h
  have htracks := (Machine.tracks_start refusals).performs hperforms
  rwa [Nat.zero_add] at htracks

theorem carryOutAll_of_reaches (h : Reaches refusals statements ds m) :
    Deed.carryOutAll (Machine.start refusals).canvas ds = some m.canvas := by
  obtain ⟨_, _, -, -, hperforms⟩ := h
  exact carryOutAll_of_performs hperforms

theorem allThick_iff_of_reaches (h : Reaches refusals statements ds m) :
    Deed.AllThick (Machine.start refusals).canvas ds ↔ Deed.WritesPositive ds := by
  obtain ⟨_, _, -, -, hperforms⟩ := h
  exact allThick_iff (Machine.tracks_start refusals) (thick_start refusals) hperforms

/-- As long as only positive values have been written, the next write does what the function of the
library does exactly if the pointer is not empty and the value is positive. -/
theorem writeThickness_iff_of_reaches (h : Reaches refusals statements ds m)
    (hds : Deed.WritesPositive ds) {w : String} {p : Option ℕ} (hw : m.pointer? w = some p)
    (n : ℤ) :
    (∃ c, m.canvas.writeThickness p n = some c ∧ c.OnlyPrints (m.canvas.setThickness p n)) ↔
      p ≠ none ∧ 1 ≤ n := by
  obtain ⟨given, htracks⟩ := tracks_of_reaches h
  have hthick : m.canvas.Thick :=
    (allThick_iff_of_reaches h).mpr hds ds (List.prefix_refl ds) _ (carryOutAll_of_reaches h)
  apply hthick.writeThickness_iff
  rintro i rfl
  exact htracks.active hw

/-- While there is room in the pool, no pointer is empty. -/
theorem pointer_of_reaches (h : Reaches refusals statements ds m)
    (hroom : ds.countP Deed.creates ≤ maxCursors) (w : String) : m.pointer? w ≠ some none := by
  obtain ⟨given, htracks⟩ := tracks_of_reaches h
  intro hw
  rcases htracks.pointers w none (Machine.mem_of_pointer? hw) with ⟨i, -, hi⟩ | ⟨-, hmany⟩
  · cases hi
  · omega

end

/-- Code changes a thickness by a write. Through a pointer that the library has handed out, the
write does what the function of the library does exactly if the pointer is not empty and the value
positive. In the code of an accepted program, all thicknesses stay positive in a run exactly if no
other values are written, which is so if the program gives numbers from 1 to 2³¹ - 1 only, and until
then the same holds of the writes of the code. The run can go on with any statement whose cursor is
in scope, unless it writes through an empty pointer, and there is none while at most ten cursors
have been asked for. -/
theorem thickness_written_iff (calls : List Canvas.Call) (cursor : Option ℕ) (thickness : ℤ) :
    (∀ (w : String) n rest s, Translates (.cursorMethod w "thickness" (n :: rest)) s →
      ∃ e, TranslatesExpr n e ∧ s = .simple (.thickening w e)) ∧
    (cursor = none ∨ (∃ i ∈ Canvas.fresh.handedOut calls, cursor = some i) →
      ((∃ c, (Canvas.fresh.run calls).writeThickness cursor thickness = some c ∧
        c.OnlyPrints ((Canvas.fresh.run calls).setThickness cursor thickness)) ↔
        cursor ≠ none ∧ 1 ≤ thickness)) ∧
    ∀ source ns, Node.ofText source = .ok (.program ns) → (Node.program ns).check = .ok () →
      ∃ body text statements, TranslatesAll ns body ∧ (Node.program ns).code .standard = .ok text ∧
        readProgram text = some statements ∧ statements = body ++ showings (Stmt.shownAll body) ∧
        ∀ refusals ds m, Reaches refusals statements ds m →
          (Deed.AllThick (Machine.start refusals).canvas ds ↔ Deed.WritesPositive ds) ∧
          (ThickensByNumbers ns → Deed.WritesPositive ds) ∧
          (Deed.WritesPositive ds → ∀ w p n, m.pointer? w = some p →
            ((∃ c, m.canvas.writeThickness p n = some c ∧
              c.OnlyPrints (m.canvas.setThickness p n)) ↔ p ≠ none ∧ 1 ≤ n)) ∧
          (∀ s ∈ Stmt.simplesAll statements, (∀ w ∈ s.cursor?, (m.pointer? w).isSome = true) →
            ((∃ ds' m', Acts m (.does s) ds' m') ↔
              ¬∃ w e, s = .thickening w e ∧ m.pointer? w = some none)) ∧
          (ds.countP Deed.creates ≤ maxCursors → ∀ w, m.pointer? w ≠ some none) := by
  refine ⟨fun w n rest s h => exists_of_translates_thickness h, fun h => ?_, ?_⟩
  · exact (Canvas.thick_run calls).writeThickness_iff (Canvas.active_of_handedOut h)
  intro source ns h hc
  obtain ⟨body, hbody⟩ := exists_translatesAll_of_ofText h hc
  refine ⟨body, _, _, hbody, code_of_translates hbody, readProgram_of_translates hbody, rfl, ?_⟩
  intro refusals ds m hreaches
  refine ⟨allThick_iff_of_reaches hreaches, fun hnumbers => ?_, fun hds w p n hw => ?_, ?_,
    pointer_of_reaches hreaches⟩
  · exact writesPositive_of_numbers hbody hnumbers hreaches
  · exact writeThickness_iff_of_reaches hreaches hds hw n
  · intro s hs hscope
    obtain ⟨given, htracks⟩ := tracks_of_reaches hreaches
    apply htracks.exists_acts_iff _ hscope
    refine (exists_translates_or_showing hbody hs).imp_left ?_
    rintro ⟨n, -, hn⟩
    exact ⟨n, hn⟩

/-! ## A program that changes a thickness -/

def thickened (v : ℕ) : List Node := drawing [.cursorMethod "c" "thickness" [.number (.int v)]]

def thickenedSimples (v : ℕ) : List Simple :=
  [.declare "int" false "windowWidth" (.constant (Value.int 400).display),
    .declare "int" false "windowHeight" (.constant (Value.int 400).display),
    .declare "Cursor" true "c" (.call "create_cursor"
      [.constant (Value.int 1).display, .constant (Value.int 2).display]),
    .thickening "c" (.constant (Value.int v).display)]

def thickenedCode (v : ℕ) : List Stmt := (thickenedSimples v).map .simple

theorem executesAll_simples (ss : List Simple) :
    Stmt.ExecutesAll (ss.map .simple) (ss.map .does) := by
  induction ss with
  | nil => rfl
  | cons s ss ih => exact ⟨[.does s], ss.map .does, rfl, ih, rfl⟩

theorem ofText_thickened {v : ℕ} (h : v < 10) :
    Node.ofText (Node.source (.program (thickened v))) = .ok (.program (thickened v)) := by
  have hname : IsName "c" := isName_of_isAsciiWord (by decide) (by decide)
  have hbegins : NameRule.window.begins "c" := by simp [NameRule.window, NameRule.IsWindow]
  apply ofText_drawing
  · rw [List.forall_mem_singleton]
    exact .change ⟨"c", rfl, hname⟩ hbegins ⟨"thickness", by decide, rfl⟩
      (by simpa using isExpr_figure h)
  · simp [lexemes, lexemesListed]

theorem translatesAll_thickened (v : ℕ) : TranslatesAll (thickened v) (thickenedCode v) := by
  have hname : IsName "windowWidth" ∧ IsName "windowHeight" ∧ IsName "c" :=
    ⟨isName_of_isAsciiWord (by decide) (by decide), isName_of_isAsciiWord (by decide) (by decide),
      isName_of_isAsciiWord (by decide) (by decide)⟩
  have hnumber (n : ℕ) : TranslatesExpr (.number (.int n)) (.constant (Value.int n).display) :=
    .number (.int n) rfl
  have hint : (Kind.int, "int") ∈ typeWords := by decide
  exact .cons (.start (.declaration hint hname.1 (hnumber 400)))
    (.cons (.start (.declaration hint hname.2.1 (hnumber 400)))
    (.cons (.creation hname.2.2 (hnumber 1) (hnumber 2))
    (.cons (.thickness hname.2.2 (.cons (hnumber v) .nil)) .nil)))

theorem exists_reaches_thickened (v : ℕ) :
    ∃ m, Reaches ⟨false, false, false⟩ (thickenedCode v)
      [.call (.createCursor 1 2), .write (some 0) v] m := by
  let first := Machine.start ⟨false, false, false⟩
  let created : Machine := ⟨(first.canvas.createCursor 1 2).2, first.declared "c" (some 0)⟩
  have hpointer : created.pointer? "c" = some (some 0) := rfl
  obtain ⟨c, hwrite⟩ : ∃ c, created.canvas.writeThickness (some 0) v = some c := ⟨_, rfl⟩
  have hwrites : Performs created [.does (.thickening "c" (.constant (Value.int v).display))]
      [.write (some 0) v] { created with canvas := c } :=
    .cons (.writes hpointer (canBe_number v) hwrite) .nil
  have hall : Performs first ((thickenedSimples v).map .does)
      [.call (.createCursor 1 2), .write (some 0) v] { created with canvas := c } :=
    .cons .declares (.cons .declares (.cons (.creates 1 2) hwrites))
  exact ⟨_, _, _, executesAll_simples (thickenedSimples v), List.prefix_refl _, hall⟩

theorem readProgram_thickened (v : ℕ) :
    readProgram (programText (thickenedCode v)) = some (thickenedCode v) := by
  have hshown : Stmt.shownAll (thickenedCode v) = [] := by
    simp [thickenedCode, thickenedSimples, Stmt.shownAll, Stmt.shown, Simple.shown,
      Simple.thickening]
  rw [readProgram_of_translates (translatesAll_thickened v), hshown, showings, List.map_nil,
    List.append_nil]

theorem thickness_written_iff_three : ∃ text m,
    Node.ofText (Node.source (.program (thickened 3))) = .ok (.program (thickened 3)) ∧
      (Node.program (thickened 3)).check = .ok () ∧
      (Node.program (thickened 3)).code .standard = .ok text ∧
      readProgram text = some (thickenedCode 3) ∧
      Reaches ⟨false, false, false⟩ (thickenedCode 3)
        [.call (.createCursor 1 2), .write (some 0) 3] m ∧
      Deed.AllThick (Machine.start ⟨false, false, false⟩).canvas
        [.call (.createCursor 1 2), .write (some 0) 3] ∧ m.pointer? "c" ≠ some none ∧
      ∃ c, (Canvas.fresh.run Canvas.tenCursors).writeThickness (some 9) 2 = some c ∧
        c.OnlyPrints ((Canvas.fresh.run Canvas.tenCursors).setThickness (some 9) 2) := by
  obtain ⟨-, hlibrary, hprograms⟩ := thickness_written_iff Canvas.tenCursors (some 9) 2
  have hsource := ofText_thickened (show 3 < 10 by decide)
  obtain ⟨_, text, statements, -, hcode, hread, -, hruns⟩ := hprograms _ _ hsource rfl
  obtain rfl : programText (thickenedCode 3) = text :=
    Except.ok.inj ((code_of_translates (translatesAll_thickened 3)).symm.trans hcode)
  obtain rfl : thickenedCode 3 = statements :=
    Option.some.inj ((readProgram_thickened 3).symm.trans hread)
  obtain ⟨m, hreaches⟩ := exists_reaches_thickened 3
  obtain ⟨hthick, hnumbers, -, -, hroom⟩ := hruns _ _ m hreaches
  have hpositive : ThickensByNumbers (thickened 3) := by
    intro w given hmem
    have hgiven : given = [.number (.int 3)] := by
      simp_all [thickened, drawing, Node.flatAll, Node.flat]
    exact ⟨3, hgiven, by decide, by decide⟩
  refine ⟨_, m, hsource, rfl, hcode, hread, hreaches, hthick.mpr (hnumbers hpositive),
    hroom (by decide) "c", ?_⟩
  exact (hlibrary (.inr ⟨9, by decide, rfl⟩)).mpr ⟨Option.some_ne_none 9, by decide⟩

/-- A thickness of zero is written as it is given, and a full pool gives the null pointer, where
nothing can be written. -/
theorem thickness_written_zero :
    Node.ofText (Node.source (.program (thickened 0))) = .ok (.program (thickened 0)) ∧
      (Node.program (thickened 0)).check = .ok () ∧
      (Node.program (thickened 0)).code .standard = .ok (programText (thickenedCode 0)) ∧
      readProgram (programText (thickenedCode 0)) = some (thickenedCode 0) ∧
      (∃ m, Reaches ⟨false, false, false⟩ (thickenedCode 0)
        [.call (.createCursor 1 2), .write (some 0) 0] m) ∧
      ¬Deed.AllThick (Machine.start ⟨false, false, false⟩).canvas
        [.call (.createCursor 1 2), .write (some 0) 0] ∧
      ((Canvas.fresh.run Canvas.tenCursors).createCursor 1 2).1 = none ∧
      (Canvas.fresh.run Canvas.tenCursors).writeThickness none 1 = none := by
  obtain ⟨m, hreaches⟩ := exists_reaches_thickened 0
  refine ⟨ofText_thickened (by decide), rfl, code_of_translates (translatesAll_thickened 0),
    readProgram_thickened 0, ⟨m, hreaches⟩, fun hthick => ?_, by decide, rfl⟩
  have hwrites := (allThick_iff_of_reaches hreaches).mp hthick
  exact absurd (hwrites (some 0) 0 (by simp)) (by decide)

end DrawPlus.Target
