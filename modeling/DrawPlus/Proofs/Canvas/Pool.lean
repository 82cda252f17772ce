import DrawPlus.Proofs.Canvas.Calls

/-!
# The pool of cursors

The canvas finds a free place by looking at the pool and tells whether there is one by its count of
cursors. The two agree in every run: the count is the number of places in use, so that a free place
is found whenever the count is below the size of the pool, and no place is handed out twice.

`step_perform` says once what a call can do to the pool: nothing, a change of the cursor that the
call names, or a new cursor at a free place. The invariant `Sound` and the frame of each call follow
from it.
-/

namespace DrawPlus.Canvas

/-- The cursor that a call is made on, which can be no cursor; other calls name none. -/
def Call.cursor? : Call → Option (Option ℕ)
  | .move cursor _ | .rotate cursor _ | .setColor cursor _ | .setVisible cursor _
  | .setThickness cursor _ | .drawLine cursor _ | .drawRectangle cursor _ _ _
  | .drawCircle cursor _ _ | .drawTriangle cursor _ _ _ | .drawEllipse cursor _ _ _ => some cursor
  | _ => none

/-- The place that a call hands out. -/
def Call.handsOut? (c : Canvas) : Call → Option ℕ
  | .createCursor x y => (c.createCursor x y).1
  | _ => none

/-- The places that are handed out in a run, in order. -/
def handedOut (c : Canvas) : List Call → List ℕ
  | [] => []
  | call :: calls => (call.handsOut? c).toList ++ (c.perform call).handedOut calls

theorem handedOut_concat (c : Canvas) (calls : List Call) (call : Call) :
    c.handedOut (calls ++ [call]) =
      c.handedOut calls ++ (call.handsOut? (c.run calls)).toList := by
  induction calls generalizing c with
  | nil => simp [handedOut]
  | cons first calls ih =>
    rw [List.cons_append, handedOut, handedOut, ih, List.append_assoc]
    rfl

/-- Nothing has changed but for messages. -/
def OnlyPrints (c c' : Canvas) : Prop :=
  ∃ texts : List String, c' = { c with events := c.events ++ texts.map .print }

/-! ## One call -/

/-- What a call can do to the pool. -/
inductive PoolStep (c : Canvas) (call : Call) (c' : Canvas) : Prop
  | rest : c'.slots = c.slots → c'.activeCount = c.activeCount → call.handsOut? c = none →
      PoolStep c call c'
  | change {i : ℕ} {k k' : Cursor Float} : call.cursor? = some (some i) → c.slots[i]? = some k →
      k.active = true → k'.active = true → c'.slots = c.slots.set i k' →
      c'.activeCount = c.activeCount → call.handsOut? c = none → PoolStep c call c'
  | create {x y : Float} {slot : ℕ} : call = .createCursor x y → c.activeCount < maxCursors →
      c.freeSlot? = some slot → c'.slots = c.slots.set slot (.new x y) →
      c'.activeCount = c.activeCount + 1 → call.handsOut? c = some slot → PoolStep c call c'

section

variable {c : Canvas} {call : Call} {cursor : Option ℕ}

/-- An active cursor is named by its place in the pool. -/
theorem active?_eq_some {i : ℕ} {k : Cursor Float} :
    c.active? cursor = some (i, k) ↔ cursor = some i ∧ c.slots[i]? = some k ∧ k.active = true := by
  cases cursor with
  | none => simp [active?]
  | some j =>
    cases hk : c.slots[j]? with
    | none =>
      simp only [active?, hk, Option.bind_eq_bind, Option.bind_some, Option.bind_none, reduceCtorEq,
        Option.some.injEq, false_iff, not_and]
      rintro rfl
      simp [hk]
    | some found =>
      simp only [active?, hk, Option.bind_eq_bind, Option.bind_some, Option.some.injEq]
      constructor
      · intro h
        split_ifs at h with hactive
        cases h
        exact ⟨rfl, hk, hactive⟩
      · rintro ⟨rfl, hslot, hactive⟩
        obtain rfl := Option.some.inj (hk.symm.trans hslot)
        rw [if_pos hactive]

theorem step_update (hcall : call.cursor? = some cursor) (hnew : call.handsOut? c = none)
    {change : Cursor Float → Cursor Float} (h : ∀ k, (change k).active = k.active) :
    PoolStep c call (c.update cursor change) := by
  unfold update
  cases hfound : c.active? cursor with
  | some found =>
    obtain ⟨rfl, hslot, hactive⟩ := active?_eq_some.mp hfound
    exact .change hcall hslot hactive ((h found.2).trans hactive) rfl rfl hnew
  | none => exact .rest rfl rfl hnew

theorem step_drawWith (hnew : call.handsOut? c = none) (shape : Cursor Float → List Event) :
    PoolStep c call (c.drawWith cursor shape) := by
  unfold drawWith
  split <;> exact .rest rfl rfl hnew

/-- What is recorded afterwards does not matter to the pool. -/
theorem PoolStep.record {c' : Canvas} (h : PoolStep c call c') (events : List Event) :
    PoolStep c call (c'.record events) := by
  cases h with
  | rest hslots hcount hnew => exact .rest hslots hcount hnew
  | change hcall hslot hactive hstays hslots hcount hnew =>
    exact .change hcall hslot hactive hstays hslots hcount hnew
  | create hcall hroom hfree hslots hcount hnew =>
    exact .create hcall hroom hfree hslots hcount hnew

theorem slots_clearArea (c : Canvas) (x y width height : ℤ) :
    (c.clearArea x y width height).slots = c.slots ∧
      (c.clearArea x y width height).activeCount = c.activeCount := by
  unfold clearArea
  split_ifs <;> exact ⟨rfl, rfl⟩

theorem step_setVisible (visible : Bool) :
    PoolStep c (.setVisible cursor visible) (c.setVisible cursor visible) := by
  unfold setVisible
  split
  case h_1 => exact .rest rfl rfl rfl
  case h_2 i k hfound =>
    obtain ⟨rfl, hslot, hactive⟩ := active?_eq_some.mp hfound
    have hstays : { k with visible := visible }.active = true := hactive
    cases visible with
    | true => exact .change rfl hslot hactive hstays rfl rfl rfl
    | false =>
      obtain ⟨hslots, hcount⟩ := slots_clearArea
        { c with slots := c.slots.set i { k with visible := false } }
        (Shape.truncate k.x - markerReach) (Shape.truncate k.y - markerReach) 10 10
      exact .change rfl hslot hactive hstays hslots hcount rfl

theorem step_setThickness (thickness : ℤ) :
    PoolStep c (.setThickness cursor thickness) (c.setThickness cursor thickness) := by
  unfold setThickness
  split
  · exact .rest rfl rfl rfl
  · split_ifs
    · exact .rest rfl rfl rfl
    · have hupdate : PoolStep c (.setThickness cursor thickness)
          (c.update cursor fun k => { k with thickness := thickness }) :=
        step_update rfl rfl fun _ => rfl
      exact hupdate.record _

theorem createCursor_of_full (h : maxCursors ≤ c.activeCount) (x y : Float) :
    c.createCursor x y =
      (none, c.record [.print "Error: Maximum number of cursors reached"]) :=
  if_pos h

theorem createCursor_of_free {slot : ℕ} (h : c.activeCount < maxCursors)
    (hfree : c.freeSlot? = some slot) (x y : Float) :
    c.createCursor x y = (some slot, { c with
      slots := c.slots.set slot (.new x y), activeCount := c.activeCount + 1 }) := by
  simp only [createCursor, if_neg (not_le.mpr h), hfree]

theorem step_createCursor (x y : Float) :
    PoolStep c (.createCursor x y) (c.createCursor x y).2 := by
  rcases le_or_gt maxCursors c.activeCount with hfull | hroom
  · have hcreate := createCursor_of_full hfull x y
    have hnew : (Call.createCursor x y).handsOut? c = none := congrArg Prod.fst hcreate
    rw [hcreate]
    exact .rest rfl rfl hnew
  · cases hfree : c.freeSlot? with
    | none =>
      have hcreate : c.createCursor x y = (none, c) := by
        simp only [createCursor, if_neg (not_le.mpr hroom), hfree]
      have hnew : (Call.createCursor x y).handsOut? c = none := congrArg Prod.fst hcreate
      rw [hcreate]
      exact .rest rfl rfl hnew
    | some slot =>
      have hcreate := createCursor_of_free hroom hfree x y
      have hnew : (Call.createCursor x y).handsOut? c = some slot := congrArg Prod.fst hcreate
      rw [hcreate]
      exact .create rfl hroom hfree rfl rfl hnew

theorem step_openWindow (refusals : Refusals) :
    PoolStep c (.openWindow refusals) (c.openWindow refusals).2 := by
  unfold openWindow
  split_ifs <;> exact .rest rfl rfl rfl

/-- Every call is a step of the pool. -/
theorem step_perform (c : Canvas) (call : Call) : PoolStep c call (c.perform call) := by
  cases call with
  | openWindow refusals => exact step_openWindow refusals
  | createCursor x y => exact step_createCursor x y
  | move | rotate | setColor => exact step_update rfl rfl fun _ => rfl
  | setVisible cursor visible => exact step_setVisible visible
  | setThickness cursor thickness => exact step_setThickness thickness
  | clearArea x y width height =>
    obtain ⟨hslots, hcount⟩ := slots_clearArea c x y width height
    exact .rest hslots hcount rfl
  | drawLine | drawRectangle | drawCircle | drawTriangle | drawEllipse => exact step_drawWith rfl _
  | _ => exact .rest rfl rfl rfl

/-- A call on one cursor leaves all others as they are. -/
theorem slots_perform_of_ne {i j : ℕ} (hcall : call.cursor? = some (some i)) (hj : j ≠ i) :
    (c.perform call).slots[j]? = c.slots[j]? := by
  cases step_perform c call with
  | rest hslots => rw [hslots]
  | change hcall' _ _ _ hslots =>
    obtain rfl := Option.some.inj (Option.some.inj (hcall.symm.trans hcall'))
    rw [hslots, List.getElem?_set_ne (Ne.symm hj)]
  | create hcreate =>
    rw [hcreate] at hcall
    cases hcall

theorem onlyPrints_refl (c : Canvas) : c.OnlyPrints c := ⟨[], by simp⟩

theorem onlyPrints_record (c : Canvas) (text : String) : c.OnlyPrints (c.record [.print text]) :=
  ⟨[text], rfl⟩

/-- A call on no cursor does nothing, except that it may say so. -/
theorem onlyPrints_perform (h : call.cursor? = some none) : c.OnlyPrints (c.perform call) := by
  cases call with
  | setThickness cursor thickness =>
    obtain rfl := Option.some.inj h
    exact onlyPrints_record c _
  | move cursor | rotate cursor | setColor cursor | setVisible cursor | drawLine cursor
  | drawRectangle cursor | drawCircle cursor | drawTriangle cursor | drawEllipse cursor =>
    obtain rfl := Option.some.inj h
    exact onlyPrints_refl c
  | _ => cases h

end

/-! ## Runs -/

/-- The pool has its size, the count of cursors is the number of places in use, and the places that
were handed out are in use. -/
structure Sound (c : Canvas) (given : List ℕ) : Prop where
  size : c.slots.length = maxCursors
  count : c.activeCount = c.slots.countP (·.active)
  used : ∀ i ∈ given, ∃ k, c.slots[i]? = some k ∧ k.active = true

section

variable {c c' : Canvas} {given : List ℕ}

/-- The place that is found is one of the pool, and it is not in use. -/
theorem freeSlot?_eq_some {slot : ℕ} (h : c.freeSlot? = some slot) :
    ∃ k, c.slots[slot]? = some k ∧ k.active = false := by
  obtain ⟨hlt, hfree, -⟩ := List.findIdx?_eq_some_iff_getElem.mp h
  exact ⟨c.slots[slot], List.getElem?_eq_getElem hlt, by simpa using hfree⟩

/-- Replacing a cursor changes the number of places in use by the two cursors alone. -/
theorem countP_set_active {slots : List (Cursor Float)} {i : ℕ} {k : Cursor Float}
    (h : slots[i]? = some k) (k' : Cursor Float) :
    (slots.set i k').countP (·.active) + k.active.toNat =
      slots.countP (·.active) + k'.active.toNat := by
  obtain ⟨hlt, rfl⟩ := List.getElem?_eq_some_iff.mp h
  rw [List.countP_set hlt]
  cases hold : slots[i].active with
  | false => cases k'.active <;> simp
  | true =>
    have hpos : 0 < slots.countP (·.active) :=
      List.countP_pos_iff.mpr ⟨slots[i], List.getElem_mem hlt, hold⟩
    cases k'.active <;> simp <;> omega

theorem Sound.count_le (h : c.Sound given) : c.activeCount ≤ maxCursors := by
  rw [h.count, ← h.size]
  exact List.countP_le_length

/-- The search finds a place exactly when the count says that there is one. -/
theorem Sound.exists_freeSlot (h : c.Sound given) :
    (∃ slot, c.freeSlot? = some slot) ↔ c.activeCount < maxCursors := by
  rw [h.count, ← h.size, List.countP_lt_length_iff, ← Option.isSome_iff_exists, freeSlot?,
    List.findIdx?_isSome, List.any_eq_true]
  simp

theorem sound_fresh : fresh.Sound [] :=
  ⟨rfl, rfl, by simp⟩

theorem used_set {slots : List (Cursor Float)} {i j : ℕ} {k' : Cursor Float}
    (hactive : k'.active = true) (h : ∃ k, slots[j]? = some k ∧ k.active = true) :
    ∃ k, (slots.set i k')[j]? = some k ∧ k.active = true := by
  obtain ⟨k, hk, hkactive⟩ := h
  by_cases hij : i = j
  · obtain ⟨hlt, -⟩ := List.getElem?_eq_some_iff.mp hk
    rw [hij, List.getElem?_set_self hlt]
    exact ⟨k', rfl, hactive⟩
  · rw [List.getElem?_set_ne hij]
    exact ⟨k, hk, hkactive⟩

/-- A step keeps the pool sound, and the place that it hands out counts as given. -/
theorem Sound.step {call : Call} (h : c.Sound given) (hstep : PoolStep c call c') :
    c'.Sound (given ++ (call.handsOut? c).toList) := by
  cases hstep with
  | rest hslots hcount hnew =>
    rw [hnew, Option.toList_none, List.append_nil]
    exact ⟨hslots ▸ h.size, by rw [hcount, hslots, h.count], by rw [hslots]; exact h.used⟩
  | @change _ _ k' _ hslot hactive hstays hslots hcount hnew =>
    have hsame := countP_set_active hslot k'
    rw [hactive, hstays] at hsame
    rw [hnew, Option.toList_none, List.append_nil]
    refine ⟨?_, ?_, ?_⟩
    · rw [hslots, List.length_set, h.size]
    · rw [hcount, hslots, h.count]
      exact (Nat.add_right_cancel hsame).symm
    · intro i hi
      rw [hslots]
      exact used_set hstays (h.used i hi)
  | @create x y slot _ _ hfree hslots hcount hnew =>
    obtain ⟨k, hk, hunused⟩ := freeSlot?_eq_some hfree
    have hmore := countP_set_active hk (.new x y)
    rw [hunused] at hmore
    rw [hnew, Option.toList_some]
    refine ⟨?_, ?_, ?_⟩
    · rw [hslots, List.length_set, h.size]
    · rw [hcount, hslots, h.count]
      exact hmore.symm
    · intro i hi
      rw [hslots]
      rcases List.mem_append.mp hi with hi | hi
      · exact used_set rfl (h.used i hi)
      · obtain rfl := List.mem_singleton.mp hi
        obtain ⟨hlt, -⟩ := List.getElem?_eq_some_iff.mp hk
        exact ⟨_, List.getElem?_set_self hlt, rfl⟩

end

theorem sound_run (calls : List Call) : (fresh.run calls).Sound (fresh.handedOut calls) := by
  induction calls using List.reverseRecOn with
  | nil => exact sound_fresh
  | append_singleton calls call ih =>
    rw [run_concat, handedOut_concat]
    exact ih.step (step_perform _ call)

/-- What creating a cursor has done when it hands out a place: the place is one of the pool that was
not handed out before, the new cursor stands there, and all others are as they were. -/
structure Creates (c : Canvas) (given : List ℕ) (x y : Float) (slot : ℕ) (c' : Canvas) : Prop where
  inside : slot < maxCursors
  unused : slot ∉ given
  cursor : ∃ k, c'.slots[slot]? = some k ∧ k.x = x ∧ k.y = y ∧ k.angle = 0 ∧ k.thickness = 1 ∧
    k.color = Hue.blue.color ∧ k.visible = true ∧ k.active = true
  others : ∀ j, j ≠ slot → c'.slots[j]? = c.slots[j]?
  count : c'.activeCount = c.activeCount + 1

/-- With room in the pool a cursor is created, and without it there is a message. -/
theorem Sound.createCursor_cases {c : Canvas} {given : List ℕ} (h : c.Sound given) (x y : Float) :
    (c.activeCount = maxCursors ∧ (c.createCursor x y).1 = none ∧
      c.OnlyPrints (c.createCursor x y).2) ∨
    (c.activeCount < maxCursors ∧ ∃ slot, (c.createCursor x y).1 = some slot ∧
      c.Creates given x y slot (c.createCursor x y).2) := by
  rcases h.count_le.eq_or_lt with hfull | hroom
  · rw [createCursor_of_full hfull.ge]
    exact .inl ⟨hfull, rfl, onlyPrints_record c _⟩
  · obtain ⟨slot, hfree⟩ := h.exists_freeSlot.mpr hroom
    obtain ⟨k, hk, hunused⟩ := freeSlot?_eq_some hfree
    obtain ⟨hlt, -⟩ := List.getElem?_eq_some_iff.mp hk
    rw [createCursor_of_free hroom hfree]
    refine .inr ⟨hroom, slot, rfl, h.size ▸ hlt, ?_, ?_, ?_, rfl⟩
    · intro hgiven
      obtain ⟨k', hk', hactive⟩ := h.used slot hgiven
      obtain rfl := Option.some.inj (hk.symm.trans hk')
      rw [hunused] at hactive
      cases hactive
    · exact ⟨_, List.getElem?_set_self hlt, rfl, rfl, rfl, rfl, rfl, rfl, rfl⟩
    · intro j hj
      exact List.getElem?_set_ne (Ne.symm hj)

/-- After every run the count of cursors is the number of places in use and at most the size of the
pool. A cursor cannot be created exactly when the count has reached the size, and then nothing
changes; otherwise it is created at a place of the pool that was never handed out. A call on one
cursor leaves the others alone, and a call on no cursor neither changes the canvas nor asks anything
of the display. -/
theorem pool_sound (calls : List Call) :
    let c := fresh.run calls
    c.activeCount = c.slots.countP (·.active) ∧ c.activeCount ≤ maxCursors ∧
    (∀ x y, ((c.createCursor x y).1 = none ↔ c.activeCount = maxCursors) ∧
      ((c.createCursor x y).1 = none → c.OnlyPrints (c.createCursor x y).2) ∧
      ∀ slot, (c.createCursor x y).1 = some slot →
        c.Creates (fresh.handedOut calls) x y slot (c.createCursor x y).2) ∧
    (∀ call i, call.cursor? = some (some i) →
      ∀ j, j ≠ i → (c.perform call).slots[j]? = c.slots[j]?) ∧
    ∀ call, call.cursor? = some none → c.OnlyPrints (c.perform call) := by
  intro c
  have hsound := sound_run calls
  refine ⟨hsound.count, hsound.count_le, ?_, fun call i hcall j hj => slots_perform_of_ne hcall hj,
    fun call hcall => onlyPrints_perform hcall⟩
  intro x y
  rcases hsound.createCursor_cases x y with ⟨hfull, hnone, hprints⟩ | ⟨hroom, slot, hslot, hcreates⟩
  · refine ⟨iff_of_true hnone hfull, fun _ => hprints, fun slot hslot => ?_⟩
    cases hnone.symm.trans hslot
  · refine ⟨iff_of_false (by rw [hslot]; simp) hroom.ne, fun hnone => ?_, fun slot' hslot' => ?_⟩
    · cases hnone.symm.trans hslot
    · obtain rfl := Option.some.inj (hslot.symm.trans hslot')
      exact hcreates

/-- Ten cursors have been created, one of them has turned, and nothing is known of an eleventh. -/
def tenCursors : List Call :=
  List.replicate 10 (.createCursor 1 2) ++ [.rotate (some 3) 45, .setThickness none 2]

theorem pool_sound_of_ten : (fresh.run tenCursors).activeCount = maxCursors ∧
    fresh.handedOut tenCursors = [0, 1, 2, 3, 4, 5, 6, 7, 8, 9] ∧
    (∀ x y, ((fresh.run tenCursors).createCursor x y).1 = none) ∧
    ∃ slot, (fresh.createCursor 1 2).1 = some slot ∧
      fresh.Creates [] 1 2 slot (fresh.createCursor 1 2).2 := by
  have hfull : (fresh.run tenCursors).activeCount = maxCursors := rfl
  refine ⟨hfull, rfl, fun x y => ?_, 0, rfl, ?_⟩
  · exact (((pool_sound tenCursors).2.2.1 x y).1).mpr hfull
  · exact ((pool_sound []).2.2.1 1 2).2.2 0 rfl

end DrawPlus.Canvas
