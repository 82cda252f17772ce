import DrawPlus.Proofs.Canvas.Calls

/-!
# Every primitive is drawn in its own colour

The display draws in the colour that was set last, whoever set it. Every call that draws sets its
colour before the first primitive and sets no other until the last one, so what earlier calls left
does not matter. `Call.color?` says which colour a call is to draw in. The main result finds, for
each primitive in the record of a run, the call that it belongs to, and says that the colour set
last before the primitive is the colour of that call.

Clearing an area is the only operation that gives back the colour it found. That colour is the one
set last in the record, since the canvas keeps it up to date (`color_run`).
-/

namespace DrawPlus

namespace Event

/-- The event makes something visible: a line, a point, or a rectangle, outlined or filled. -/
def isPrimitive : Event → Bool
  | .line .. | .outline .. | .fill .. | .point .. => true
  | _ => false

def setsColor : Event → Bool
  | .setColor _ => true
  | _ => false

variable {events : List Event} {color : Color}

theorem lastColor_append (color : Color) (first second : List Event) :
    lastColor color (first ++ second) = lastColor (lastColor color first) second :=
  List.foldl_append

/-- Events that set no colour leave the one that was set before. -/
theorem lastColor_of_setsColor (h : ∀ e ∈ events, e.setsColor = false) (color : Color) :
    lastColor color events = color := by
  induction events with
  | nil => rfl
  | cons e events ih =>
    obtain ⟨he, hevents⟩ := List.forall_mem_cons.mp h
    cases e with
    | setColor _ => cases he
    | _ => exact ih hevents

/-- Each primitive among the events comes after one that sets this colour, and no other colour is
set in between; where there is no colour, there are no primitives. -/
def Paints (color? : Option Color) (events : List Event) : Prop :=
  ∀ before e after, events = before ++ e :: after → e.isPrimitive = true →
    ∃ color, color? = some color ∧ ∀ earlier, lastColor earlier before = color

theorem paints_of_isPrimitive (h : ∀ e ∈ events, e.isPrimitive = false) (color? : Option Color) :
    Paints color? events := by
  rintro before e after rfl he
  have hfalse := h e (by simp)
  rw [he] at hfalse
  cases hfalse

/-- A colour that is set first and not changed is the colour of all that follows. -/
theorem paints_setColor (h : ∀ e ∈ events, e.setsColor = false) :
    Paints (some color) (.setColor color :: events) := by
  intro before e after heq he
  refine ⟨color, rfl, fun earlier => ?_⟩
  cases before with
  | nil =>
    obtain ⟨rfl, -⟩ := List.cons.inj heq
    cases he
  | cons first before =>
    obtain ⟨rfl, rfl⟩ := List.cons.inj heq
    exact lastColor_of_setsColor (fun e he => h e (List.mem_append_left _ he)) color

/-- What follows the last primitive does not matter. -/
theorem Paints.append {color? : Option Color} (h : Paints color? events) {more : List Event}
    (hmore : ∀ e ∈ more, e.isPrimitive = false) : Paints color? (events ++ more) := by
  intro before e after heq he
  rcases List.append_eq_append_iff.mp heq with ⟨rest, rfl, hrest⟩ | ⟨rest, rfl, hrest⟩
  · have hfalse := hmore e (by simp [hrest])
    rw [he] at hfalse
    cases hfalse
  · cases rest with
    | nil =>
      have hfalse := hmore e (by rw [← List.nil_append more, ← hrest]; exact List.mem_cons_self)
      rw [he] at hfalse
      cases hfalse
    | cons first rest =>
      obtain ⟨rfl, -⟩ := List.cons.inj hrest
      exact h before e rest rfl he

end Event

open Event

/-! ## Shapes -/

namespace Shape

section

variable {filled : Bool} {color : Color} {thickness : ℤ}

theorem paints_line {x1 y1 x2 y2 : ℤ} : Paints (some color) (line x1 y1 x2 y2 color thickness) := by
  apply paints_setColor
  rw [List.forall_mem_map]
  intro i _
  rfl

theorem paints_rectangle {x y width height : ℤ} :
    Paints (some color) (rectangle x y width height filled color thickness) := by
  apply paints_setColor
  cases filled with
  | true => simp [setsColor]
  | false =>
    rw [if_neg Bool.false_ne_true, List.forall_mem_map]
    intro i _
    rfl

theorem setsColor_of_mem_dots {x y : ℤ} {radiusX radiusY : ℤ → ℤ} {rings : List ℤ} {e : Event}
    (h : e ∈ rings.flatMap fun t => dots x y (radiusX t) (radiusY t)) : e.setsColor = false := by
  obtain ⟨t, -, he⟩ := List.mem_flatMap.mp h
  obtain ⟨angle, -, rfl⟩ := List.mem_map.mp he
  rfl

theorem paints_circle {x y radius : ℤ} :
    Paints (some color) (circle x y radius filled color thickness) := by
  apply paints_setColor
  cases filled with
  | true =>
    rw [if_pos rfl, List.forall_mem_map]
    intro dx _
    rfl
  | false =>
    intro e he
    exact setsColor_of_mem_dots he

theorem setsColor_of_mem_triangleRow {x1 y1 x2 y2 x3 y3 y : ℤ} {e : Event}
    (h : e ∈ triangleRow x1 y1 x2 y2 x3 y3 y) : e.setsColor = false := by
  unfold triangleRow at h
  split at h
  · obtain rfl := List.mem_singleton.mp h
    rfl
  · cases h

theorem paints_triangle {x1 y1 x2 y2 x3 y3 : ℤ} :
    Paints (some color) (triangle x1 y1 x2 y2 x3 y3 filled color thickness) := by
  apply paints_setColor
  intro e he
  cases filled with
  | true =>
    obtain ⟨y, -, hy⟩ := List.mem_flatMap.mp he
    exact setsColor_of_mem_triangleRow hy
  | false =>
    obtain ⟨i, -, hi⟩ := List.mem_flatMap.mp he
    simp only [List.mem_cons, List.not_mem_nil, or_false] at hi
    rcases hi with rfl | rfl | rfl <;> rfl

theorem paints_ellipse {x y radiusX radiusY : ℤ} :
    Paints (some color) (ellipse x y radiusX radiusY filled color thickness) := by
  apply paints_setColor
  cases filled with
  | true =>
    rw [if_pos rfl, List.forall_mem_map]
    intro dx _
    rfl
  | false =>
    intro e he
    exact setsColor_of_mem_dots he

end

end Shape

namespace Canvas

/-! ## One call -/

/-- The colour in which a call draws, if it draws at all: the one it is given, that of its cursor at
the time of the call, black for the mark of a cursor, or white for what is wiped. -/
def Call.color? (c : Canvas) : Call → Option Color
  | .setVisible cursor visible =>
    (c.active? cursor).map fun _ => if visible then .black else .white
  | .clearArea .. => some .white
  | .drawLine cursor _ | .drawRectangle cursor _ _ _ | .drawCircle cursor _ _
  | .drawTriangle cursor _ _ _ | .drawEllipse cursor _ _ _ =>
    (c.active? cursor).map fun (_, cursor) => cursor.color
  | .line _ _ _ _ color _ | .rectangle _ _ _ _ _ color _ | .circle _ _ _ _ color _
  | .triangle _ _ _ _ _ _ _ color _ | .ellipse _ _ _ _ _ color _ => some color
  | _ => none

/-- The second canvas has some more events than the first and has kept track of the colour that they
set. The primitives among them are in the given colour. -/
def Adds (c c' : Canvas) (color? : Option Color) : Prop :=
  ∃ events, c'.events = c.events ++ events ∧ c'.color = lastColor c.color events ∧
    Paints color? events

section

variable {c c' : Canvas} {color? : Option Color}

theorem adds_record {events : List Event} (h : Paints color? events) :
    c.Adds (c.record events) color? :=
  ⟨events, rfl, rfl, h⟩

theorem adds_of_same (hevents : c'.events = c.events) (hcolor : c'.color = c.color) :
    c.Adds c' color? :=
  ⟨[], by rw [hevents, List.append_nil], hcolor, paints_of_isPrimitive (by simp) _⟩

/-- Calls that add nothing visible can be made one after the other. -/
theorem Adds.trans {c'' : Canvas} (h : c.Adds c' none) (h' : c'.Adds c'' none) :
    c.Adds c'' none := by
  obtain ⟨events, hevents, hcolor, hpaints⟩ := h
  obtain ⟨events', hevents', hcolor', hpaints'⟩ := h'
  refine ⟨events ++ events', by rw [hevents', hevents, List.append_assoc],
    by rw [hcolor', hcolor, lastColor_append], hpaints.append fun e he => ?_⟩
  by_contra hprimitive
  obtain ⟨before, after, rfl⟩ := List.append_of_mem he
  obtain ⟨_, hnone, -⟩ := hpaints' before e after rfl (by simpa using hprimitive)
  cases hnone

theorem adds_update (cursor : Option ℕ) (change : Cursor Float → Cursor Float) :
    c.Adds (c.update cursor change) color? := by
  unfold update
  split <;> exact adds_of_same rfl rfl

theorem adds_drawWith (cursor : Option ℕ) {shape : Cursor Float → List Event}
    (h : ∀ k : Cursor Float, Paints (some k.color) (shape k)) :
    c.Adds (c.drawWith cursor shape) ((c.active? cursor).map fun (_, k) => k.color) := by
  unfold drawWith
  cases c.active? cursor with
  | none => exact adds_of_same rfl rfl
  | some found => exact adds_record (h found.2)

theorem adds_note (c : Canvas) {events : List Event} (h : ∀ e ∈ events, e.isPrimitive = false) :
    c.Adds (c.record events) none :=
  adds_record (paints_of_isPrimitive h none)

theorem adds_openWindow (refusals : Refusals) : c.Adds (c.openWindow refusals).2 none := by
  unfold openWindow
  split_ifs
  · exact (adds_note c (by simp [isPrimitive])).trans (adds_note _ (by simp [isPrimitive]))
  · exact (adds_note c (by simp [isPrimitive])).trans
      ((adds_note _ (by simp [isPrimitive])).trans (adds_note _ (by simp [isPrimitive])))
  · exact (adds_note c (by simp [isPrimitive])).trans ((adds_note _ (by simp [isPrimitive])).trans
      ((adds_note _ (by simp [isPrimitive])).trans (adds_note _ (by simp [isPrimitive]))))
  · exact (adds_note c (by simp [isPrimitive])).trans ((adds_note _ (by simp [isPrimitive])).trans
      ((adds_note _ (by simp [isPrimitive])).trans (adds_note _ (by simp [isPrimitive]))))

theorem adds_close : c.Adds c.close none := by
  apply adds_note
  cases c.hasRenderer <;> cases c.hasWindow <;> simp [isPrimitive]

theorem adds_createCursor (x y : Float) : c.Adds (c.createCursor x y).2 none := by
  unfold createCursor
  split_ifs
  · exact adds_note c (by simp [isPrimitive])
  · split <;> exact adds_of_same rfl rfl

/-- Without a renderer nothing is wiped, and a message is no primitive. -/
theorem adds_clearArea (x y width height : ℤ) :
    c.Adds (c.clearArea x y width height) (some .white) := by
  unfold clearArea
  split_ifs
  · have hfill : Paints (some .white) [.setColor .white, .fill x y width height] :=
      paints_setColor (by simp [setsColor])
    exact adds_record (hfill.append (by simp [isPrimitive]))
  · exact adds_record (paints_of_isPrimitive (by simp [isPrimitive]) _)

theorem adds_setVisible (cursor : Option ℕ) (visible : Bool) :
    c.Adds (c.setVisible cursor visible)
      ((c.active? cursor).map fun _ => if visible then .black else .white) := by
  unfold setVisible
  cases c.active? cursor with
  | none => exact adds_of_same rfl rfl
  | some found =>
    cases visible with
    | true => exact adds_record Shape.paints_rectangle
    | false => exact adds_clearArea _ _ 10 10

theorem adds_setThickness (cursor : Option ℕ) (thickness : ℤ) :
    c.Adds (c.setThickness cursor thickness) none := by
  unfold setThickness
  split
  · exact adds_note c (by simp [isPrimitive])
  · split_ifs
    · exact adds_note c (by simp [isPrimitive])
    · exact (adds_update cursor _).trans (adds_note _ (by simp [isPrimitive]))

/-- Every call adds to the record, and what it adds is in its own colour. -/
theorem adds_perform (c : Canvas) (call : Call) : c.Adds (c.perform call) (call.color? c) := by
  cases call with
  | openWindow refusals => exact adds_openWindow refusals
  | close => exact adds_close
  | createCursor x y => exact adds_createCursor x y
  | move cursor distance => exact adds_update cursor _
  | rotate cursor angle => exact adds_update cursor _
  | setColor cursor color => exact adds_update cursor _
  | setVisible cursor visible => exact adds_setVisible cursor visible
  | setThickness cursor thickness => exact adds_setThickness cursor thickness
  | clearArea x y width height => exact adds_clearArea x y width height
  | drawLine cursor length => exact adds_drawWith cursor fun _ => Shape.paints_line
  | drawRectangle cursor width height filled =>
    exact adds_drawWith cursor fun _ => Shape.paints_rectangle
  | drawCircle cursor radius filled => exact adds_drawWith cursor fun _ => Shape.paints_circle
  | drawTriangle cursor base height filled =>
    exact adds_drawWith cursor fun _ => Shape.paints_triangle
  | drawEllipse cursor radiusX radiusY filled =>
    exact adds_drawWith cursor fun _ => Shape.paints_ellipse
  | line x1 y1 x2 y2 color thickness => exact adds_record Shape.paints_line
  | rectangle x y width height filled color thickness =>
    exact adds_record Shape.paints_rectangle
  | circle x y radius filled color thickness => exact adds_record Shape.paints_circle
  | triangle x1 y1 x2 y2 x3 y3 filled color thickness =>
    exact adds_record Shape.paints_triangle
  | ellipse x y radiusX radiusY filled color thickness =>
    exact adds_record Shape.paints_ellipse

end

/-! ## Runs -/

/-- The colour that the canvas keeps is the one set last in its record. -/
theorem color_run (calls : List Call) :
    (fresh.run calls).color = lastColor .unset (fresh.run calls).events := by
  induction calls using List.reverseRecOn with
  | nil => rfl
  | append_singleton calls call ih =>
    obtain ⟨events, hevents, hcolor, -⟩ := adds_perform (fresh.run calls) call
    rw [run_concat, hcolor, hevents, lastColor_append, ih]

/-- Wiping an area gives back the colour that was set last before it. -/
theorem lastColor_clearArea {c : Canvas} (h : c.color = lastColor .unset c.events)
    (x y width height : ℤ) :
    lastColor .unset (c.clearArea x y width height).events = lastColor .unset c.events := by
  unfold clearArea
  split_ifs
  · exact (lastColor_append ..).trans h
  · exact lastColor_append ..

/-- The call is the one that put the event `e` into the record after the events `before`: they are
there after the call, and before it only a part of `before` was. -/
structure Issues (c : Canvas) (call : Call) (before : List Event) (e : Event) : Prop where
  starts : c.events <+: before
  reaches : before ++ [e] <+: (c.perform call).events

/-- A primitive in the record after one more call was there before or is one that the call adds. -/
theorem issues_or_eq {c : Canvas} {call : Call} {before after : List Event} {e : Event}
    (h : (c.perform call).events = before ++ e :: after) (he : e.isPrimitive = true) :
    (∃ rest, c.events = before ++ e :: rest) ∨
      c.Issues call before e ∧
        ∃ color, call.color? c = some color ∧ ∀ earlier, lastColor earlier before = color := by
  obtain ⟨events, hevents, -, hpaints⟩ := adds_perform c call
  have hreaches : before ++ [e] <+: (c.perform call).events := ⟨after, by rw [h]; simp⟩
  rw [hevents] at h
  rcases List.append_eq_append_iff.mp h with ⟨rest, rfl, hrest⟩ | ⟨rest, hrest, hafter⟩
  · obtain ⟨color, hcolor, hlast⟩ := hpaints rest e after hrest he
    refine .inr ⟨⟨List.prefix_append _ _, hreaches⟩, color, hcolor, fun earlier => ?_⟩
    rw [lastColor_append]
    exact hlast _
  · cases rest with
    | nil =>
      rw [List.append_nil] at hrest
      obtain ⟨color, hcolor, hlast⟩ := hpaints [] e after hafter.symm he
      exact .inr ⟨⟨hrest ▸ List.prefix_rfl, hreaches⟩, color, hcolor, fun earlier => hlast _⟩
    | cons first rest =>
      obtain ⟨rfl, -⟩ := List.cons.inj hafter
      exact .inl ⟨rest, hrest⟩

/-- Every primitive in the record of a run was put there by one of the calls, and the colour set
last before it is the colour in which this call draws. Wiping an area after the run leaves the
colour that was set last as it was. -/
theorem primitives_in_own_color (calls : List Call) :
    (∀ before e after, (fresh.run calls).events = before ++ e :: after → e.isPrimitive = true →
      ∃ earlier call later color, calls = earlier ++ call :: later ∧
        (fresh.run earlier).Issues call before e ∧ call.color? (fresh.run earlier) = some color ∧
        ∀ first, lastColor first before = color) ∧
    ∀ x y width height, lastColor .unset ((fresh.run calls).clearArea x y width height).events =
      lastColor .unset (fresh.run calls).events := by
  refine ⟨?_, fun x y width height => lastColor_clearArea (color_run calls) x y width height⟩
  intro before e after h he
  induction calls using List.reverseRecOn generalizing after with
  | nil => simp [fresh] at h
  | append_singleton calls call ih =>
    rw [run_concat] at h
    rcases issues_or_eq h he with ⟨rest, hrest⟩ | ⟨hissues, color, hcolor, hlast⟩
    · obtain ⟨earlier, call', later, color, rfl, hissues, hcolor, hlast⟩ := ih rest hrest
      exact ⟨earlier, call', later ++ [call], color, by simp, hissues, hcolor, hlast⟩
    · exact ⟨calls, call, [], color, rfl, hissues, hcolor, hlast⟩

/-- A red cursor draws after something golden was drawn and a part of it wiped. -/
def redAfterGold : List Call :=
  [.openWindow ⟨false, false, false⟩, .createCursor 1 2, .setColor (some 0) Hue.red.color,
    .rectangle 0 0 9 9 true Hue.gold.color 1, .clearArea 3 3 2 2, .drawRectangle (some 0) 4 5 true]

theorem primitives_in_own_color_of_red : ∃ before e, e.isPrimitive = true ∧
    (fresh.run redAfterGold).events = before ++ [e] ∧
    lastColor .unset before = Hue.red.color ∧
    ∃ earlier call later color, redAfterGold = earlier ++ call :: later ∧
      (fresh.run earlier).Issues call before e ∧ call.color? (fresh.run earlier) = some color ∧
      ∀ first, lastColor first before = color := by
  have hevents : (fresh.run redAfterGold).events =
      [.start 32, .openWindow "Draw++ Window" 805240832 805240832 800 600 4, .openRenderer (-1) 6,
        .setColor .white, .clear, .present, .setColor Hue.gold.color, .fill 0 0 9 9,
        .setColor .white, .fill 3 3 2 2, .setColor Hue.gold.color, .setColor Hue.red.color] ++
      [.fill (Shape.truncate 1) (Shape.truncate 2) (Shape.truncate 4) (Shape.truncate 5)] := rfl
  exact ⟨_, _, rfl, hevents, rfl, (primitives_in_own_color redAfterGold).1 _ _ [] hevents rfl⟩

end Canvas

end DrawPlus
