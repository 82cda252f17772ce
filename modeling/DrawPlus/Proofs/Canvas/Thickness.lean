import DrawPlus.Proofs.Canvas.Pool

/-!
# Writing a thickness

The library changes the thickness of a cursor by a function that looks at the cursor and at the new
value first. A program can also write the thickness through the pointer that it was given
(`writeThickness`), and then nothing is looked at. `writeThickness_setter_iff` says when that makes
no difference.

The calls of the library keep all thicknesses positive (`thick_perform`), and a write does so
exactly if it writes a positive one (`thick_writeThickness_iff`).
-/

namespace DrawPlus.Canvas

/-- Write the thickness of a cursor through a pointer. There is no result if the pointer leads
nowhere. -/
def writeThickness (c : Canvas) (cursor : Option ℕ) (thickness : ℤ) : Option Canvas := do
  let slot ← cursor
  let k ← c.slots[slot]?
  return { c with slots := c.slots.set slot { k with thickness := thickness } }

/-- Every active cursor has a positive thickness. -/
def Thick (c : Canvas) : Prop := ∀ k ∈ c.slots, k.active = true → 1 ≤ k.thickness

section

variable {c c' : Canvas} {cursor : Option ℕ} {thickness : ℤ}

theorem writeThickness_eq_some : c.writeThickness cursor thickness = some c' ↔
    ∃ i k, cursor = some i ∧ c.slots[i]? = some k ∧
      c' = { c with slots := c.slots.set i { k with thickness := thickness } } := by
  cases cursor with
  | none => simp [writeThickness]
  | some i => cases hk : c.slots[i]? <;> simp [writeThickness, hk, eq_comm]

/-! ## The write and the function -/

/-- The function has only something to say when the cursor is not active or the value not
positive. -/
theorem onlyPrints_setThickness (h : c.active? cursor = none ∨ thickness ≤ 0) :
    c.OnlyPrints (c.setThickness cursor thickness) := by
  unfold setThickness
  cases hfound : c.active? cursor with
  | none => exact onlyPrints_record c _
  | some found =>
    rw [hfound] at h
    dsimp only
    rw [if_pos (h.resolve_left (Option.some_ne_none _))]
    exact onlyPrints_record c _

theorem setThickness_of_active {i : ℕ} {k : Cursor Float} (h : c.active? cursor = some (i, k))
    (hpos : 1 ≤ thickness) : c.setThickness cursor thickness =
      { c with slots := c.slots.set i { k with thickness := thickness } }.record
        [.print ("Cursor thickness set to " ++ toString thickness)] := by
  have hpos' : ¬thickness ≤ 0 := by omega
  simp only [setThickness, update, h, if_neg hpos']

theorem OnlyPrints.slots_eq (h : c.OnlyPrints c') : c'.slots = c.slots := by
  obtain ⟨texts, rfl⟩ := h
  rfl

theorem refused_of_not {i : ℕ} {k : Cursor Float} (hslot : c.slots[i]? = some k)
    (h : ¬(k.active = true ∧ 1 ≤ thickness)) : c.active? (some i) = none ∨ thickness ≤ 0 := by
  rw [not_and_or, not_le] at h
  refine h.imp (fun hactive => ?_) fun hneg => by omega
  rw [Option.eq_none_iff_forall_ne_some]
  rintro ⟨j, l⟩ hfound
  obtain ⟨hj, hl, hlactive⟩ := active?_eq_some.mp hfound
  cases hj
  cases hslot.symm.trans hl
  exact hactive hlactive

/-- The write does what the function does, apart from what is printed, exactly if the pointer leads
to a cursor that is active while the value is positive, or that has this thickness already. -/
theorem writeThickness_setter_iff :
    (∃ c', c.writeThickness cursor thickness = some c' ∧
      c'.OnlyPrints (c.setThickness cursor thickness)) ↔
    ∃ i k, cursor = some i ∧ c.slots[i]? = some k ∧
      (k.active = true ∧ 1 ≤ thickness ∨ k.thickness = thickness) := by
  constructor
  · rintro ⟨c', hwrite, hprints⟩
    obtain ⟨i, k, rfl, hslot, rfl⟩ := writeThickness_eq_some.mp hwrite
    refine ⟨i, k, rfl, hslot, ?_⟩
    by_cases hgood : k.active = true ∧ 1 ≤ thickness
    · exact .inl hgood
    -- the function leaves the pool, so the write has not changed it either
    have hsame : c.slots = c.slots.set i { k with thickness := thickness } :=
      (onlyPrints_setThickness (refused_of_not hslot hgood)).slots_eq.symm.trans hprints.slots_eq
    have hlt := (List.getElem?_eq_some_iff.mp hslot).1
    rw [hsame, List.getElem?_set_self hlt] at hslot
    exact .inr (congrArg Cursor.thickness (Option.some.inj hslot)).symm
  · rintro ⟨i, k, rfl, hslot, hgood⟩
    refine ⟨_, writeThickness_eq_some.mpr ⟨i, k, rfl, hslot, rfl⟩, ?_⟩
    by_cases hboth : k.active = true ∧ 1 ≤ thickness
    · have hfound : c.active? (some i) = some (i, k) := active?_eq_some.mpr ⟨rfl, hslot, hboth.1⟩
      rw [setThickness_of_active hfound hboth.2]
      exact onlyPrints_record _ _
    · obtain rfl := hgood.resolve_left hboth
      obtain ⟨hlt, rfl⟩ := List.getElem?_eq_some_iff.mp hslot
      rw [List.set_getElem_self hlt]
      exact onlyPrints_setThickness (refused_of_not hslot hboth)

/-! ## Calls keep thicknesses positive -/

theorem thick_of_slots (h : c.Thick) (hslots : c'.slots = c.slots) : c'.Thick := by
  rw [Thick, hslots]
  exact h

theorem thick_set {i : ℕ} {k : Cursor Float} (h : c.Thick)
    (hk : k.active = true → 1 ≤ k.thickness) :
    { c with slots := c.slots.set i k }.Thick := by
  intro l hl
  rcases List.mem_or_eq_of_mem_set hl with hl | rfl
  · exact h l hl
  · exact hk

theorem thick_fresh : fresh.Thick := by
  intro k hk
  obtain rfl := List.eq_of_mem_replicate hk
  intro hactive
  cases hactive

theorem thick_update {change : Cursor Float → Cursor Float} (h : c.Thick)
    (hchange : ∀ k, (change k).active = k.active ∧ (change k).thickness = k.thickness) :
    (c.update cursor change).Thick := by
  unfold update
  cases hfound : c.active? cursor with
  | some found =>
    obtain ⟨-, hslot, hactive⟩ := active?_eq_some.mp hfound
    have hk := h found.2 (List.mem_of_getElem? hslot) hactive
    refine thick_set h fun _ => ?_
    rw [(hchange found.2).2]
    exact hk
  | none => exact h

theorem thick_setVisible (h : c.Thick) (visible : Bool) : (c.setVisible cursor visible).Thick := by
  unfold setVisible
  split
  case h_1 => exact h
  case h_2 i k hfound =>
    obtain ⟨-, hslot, hactive⟩ := active?_eq_some.mp hfound
    have hset : { c with slots := c.slots.set i { k with visible := visible } }.Thick :=
      thick_set h fun _ => h k (List.mem_of_getElem? hslot) hactive
    dsimp only
    split_ifs
    · exact hset
    · exact thick_of_slots hset (slots_clearArea _ _ _ _ _).1

theorem thick_drawWith (h : c.Thick) (shape : Cursor Float → List Event) :
    (c.drawWith cursor shape).Thick := by
  unfold drawWith
  split <;> exact h

theorem thick_createCursor (h : c.Thick) (x y : Float) : (c.createCursor x y).2.Thick := by
  cases step_createCursor x y with
  | rest hslots => exact thick_of_slots h hslots
  | change hcall => cases hcall
  | @create x' y' slot _ _ _ hslots =>
    have hset : { c with slots := c.slots.set slot (.new x' y') }.Thick :=
      thick_set h fun _ => le_refl 1
    exact thick_of_slots hset hslots

theorem thick_setThickness (h : c.Thick) : (c.setThickness cursor thickness).Thick := by
  by_cases hrefused : c.active? cursor = none ∨ thickness ≤ 0
  · exact thick_of_slots h (onlyPrints_setThickness hrefused).slots_eq
  · rw [not_or, not_le, ← ne_eq, Option.ne_none_iff_exists'] at hrefused
    obtain ⟨⟨⟨i, k⟩, hfound⟩, hpos⟩ := hrefused
    rw [setThickness_of_active hfound (by omega)]
    have hset : { c with slots := c.slots.set i { k with thickness := thickness } }.Thick :=
      thick_set h fun _ => by dsimp only; omega
    exact hset

theorem thick_perform (h : c.Thick) (call : Call) : (c.perform call).Thick := by
  cases call with
  | openWindow refusals =>
    change (c.openWindow refusals).2.Thick
    unfold openWindow
    split_ifs <;> exact h
  | createCursor x y => exact thick_createCursor h x y
  | move | rotate | setColor => exact thick_update h fun _ => ⟨rfl, rfl⟩
  | setVisible cursor visible => exact thick_setVisible h visible
  | setThickness cursor thickness => exact thick_setThickness h
  | clearArea x y width height => exact thick_of_slots h (slots_clearArea c x y width height).1
  | drawLine | drawRectangle | drawCircle | drawTriangle | drawEllipse =>
    exact thick_drawWith h _
  | _ => exact thick_of_slots h rfl

theorem thick_run (calls : List Call) : (fresh.run calls).Thick := by
  induction calls using List.reverseRecOn with
  | nil => exact thick_fresh
  | append_singleton calls call ih =>
    rw [run_concat]
    exact thick_perform ih call

/-- Through a pointer that is empty or leads to an active cursor, the write does what the function
does exactly if the pointer is not empty and the value is positive. -/
theorem Thick.writeThickness_iff (h : c.Thick)
    (hcursor : ∀ i, cursor = some i → ∃ k, c.slots[i]? = some k ∧ k.active = true) :
    (∃ c', c.writeThickness cursor thickness = some c' ∧
      c'.OnlyPrints (c.setThickness cursor thickness)) ↔ cursor ≠ none ∧ 1 ≤ thickness := by
  rw [writeThickness_setter_iff]
  cases cursor with
  | none => simp
  | some i =>
    obtain ⟨k, hslot, hactive⟩ := hcursor i rfl
    have hthick := h k (List.mem_of_getElem? hslot) hactive
    constructor
    · rintro ⟨j, l, hj, hl, hgood⟩
      cases hj
      cases hslot.symm.trans hl
      exact ⟨Option.some_ne_none i, hgood.elim And.right fun heq => heq ▸ hthick⟩
    · rintro ⟨-, hpos⟩
      exact ⟨i, k, rfl, hslot, .inl ⟨hactive, hpos⟩⟩

theorem active_of_handedOut {calls : List Call}
    (h : cursor = none ∨ ∃ i ∈ fresh.handedOut calls, cursor = some i) (i : ℕ)
    (hi : cursor = some i) : ∃ k, (fresh.run calls).slots[i]? = some k ∧ k.active = true := by
  rcases h with rfl | ⟨j, hj, rfl⟩
  · cases hi
  · cases hi
    exact (sound_run calls).used i hj

/-! ## Writes -/

/-- A write through a pointer to an active cursor keeps thicknesses positive exactly if it writes a
positive one. -/
theorem thick_writeThickness_iff {i : ℕ} {k : Cursor Float} (h : c.Thick)
    (hslot : c.slots[i]? = some k) (hactive : k.active = true)
    (hwrite : c.writeThickness (some i) thickness = some c') : c'.Thick ↔ 1 ≤ thickness := by
  obtain ⟨j, l, hj, hl, rfl⟩ := writeThickness_eq_some.mp hwrite
  cases hj
  cases hslot.symm.trans hl
  constructor
  · intro hthick
    have hlt := (List.getElem?_eq_some_iff.mp hslot).1
    exact hthick { k with thickness := thickness } (List.mem_set hlt _) hactive
  · intro hpos
    exact thick_set h fun _ => hpos

/-- A write leaves the pool as it is, apart from the thickness. -/
theorem Sound.writeThickness {given : List ℕ} (h : c.Sound given)
    (hwrite : c.writeThickness cursor thickness = some c') :
    c'.Sound given ∧ c'.activeCount = c.activeCount := by
  obtain ⟨i, k, -, hslot, rfl⟩ := writeThickness_eq_some.mp hwrite
  have hcount := countP_set_active hslot { k with thickness := thickness }
  refine ⟨⟨?_, ?_, ?_⟩, rfl⟩
  · rw [List.length_set]
    exact h.size
  · rw [h.count]
    exact (Nat.add_right_cancel hcount).symm
  · intro j hj
    obtain ⟨l, hl, hactive⟩ := h.used j hj
    by_cases hij : i = j
    · subst hij
      cases hslot.symm.trans hl
      exact ⟨_, List.getElem?_set_self (List.getElem?_eq_some_iff.mp hslot).1, hactive⟩
    · exact ⟨l, by rw [List.getElem?_set_ne hij, hl], hactive⟩

end

end DrawPlus.Canvas
