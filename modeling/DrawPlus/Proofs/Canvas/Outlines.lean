import DrawPlus.Proofs.Canvas.Discs

/-!
# Thick outlines

A thick line is made of copies that are moved up and down, and so is each edge of a triangle.
`Stroked` says that there are `n` copies, one below the other. They reach equally far up and down,
so that their number is odd, and for an even thickness there is one too many (`length_offsets`). A
thick rectangle grows outward instead, and has as many outlines as it should.
-/

namespace DrawPlus.Shape

variable {thickness : ℤ} {edges lines : List Event} {n : ℕ}

/-! ## Copies of lines -/

/-- The same event, further down. -/
def lowered (distance : ℤ) : Event → Event
  | .line x1 y1 x2 y2 => .line x1 (y1 + distance) x2 (y2 + distance)
  | event => event

/-- The lines are copies of edges, at `n` consecutive heights. -/
def Stroked (edges : List Event) (n : ℕ) (lines : List Event) : Prop :=
  ∃ first : ℤ, lines = (List.range n).flatMap fun k : ℕ => edges.map (lowered (first + (k : ℤ)))

theorem Stroked.length_eq (h : Stroked edges n lines) : lines.length = n * edges.length := by
  obtain ⟨first, rfl⟩ := h
  simp [List.length_flatMap]

theorem stroked_offsets (edges : List Event) (thickness : ℤ) :
    Stroked edges (offsets thickness).length
      ((offsets thickness).flatMap fun i => edges.map (lowered i)) := by
  rw [offsets, length_span]
  exact ⟨_, List.flatMap_map ..⟩

theorem length_offsets (h : 0 ≤ thickness) :
    ((offsets thickness).length : ℤ) = 2 * (thickness / 2) + 1 := by
  rw [offsets, length_span, Int.neg_tdiv, Int.tdiv_eq_ediv_of_nonneg h]
  omega

theorem length_offsets_eq_iff (h : 0 ≤ thickness) :
    ((offsets thickness).length : ℤ) = thickness ↔ Odd thickness := by
  rw [length_offsets h, Int.odd_iff]
  omega

theorem length_offsets_of_even (h : 0 ≤ thickness) (heven : Even thickness) :
    ((offsets thickness).length : ℤ) = thickness + 1 := by
  rw [length_offsets h]
  rw [Int.even_iff] at heven
  omega

/-! ## Nested outlines -/

/-- An outline lies inside another one on all four sides. -/
def Encloses : (outer inner : Event) → Prop
  | .outline x y width height, .outline x' y' width' height' =>
    x < x' ∧ y < y' ∧ x' + width' < x + width ∧ y' + height' < y + height
  | _, _ => False

theorem pairwise_encloses (x y width height first last : ℤ) :
    ((span first last).map fun i =>
      Event.outline (x - i) (y - i) (width + 2 * i) (height + 2 * i)).Pairwise
        fun inner outer => Encloses outer inner := by
  rw [List.pairwise_map]
  refine (pairwise_span first last).imp fun {i j} hij => ?_
  exact ⟨by omega, by omega, by omega, by omega⟩

theorem head?_span {first last : ℤ} (h : first ≤ last) : (span first last).head? = some first := by
  have hpos : (last - first + 1).toNat ≠ 0 := by omega
  rw [span, List.head?_map, List.head?_range, if_neg hpos, Option.map_some, Nat.cast_zero, add_zero]

/-! ## Thickness -/

theorem line_eq (x1 y1 x2 y2 : ℤ) (color : Color) (thickness : ℤ) :
    line x1 y1 x2 y2 color thickness = .setColor color ::
      (offsets thickness).flatMap fun i => [Event.line x1 y1 x2 y2].map (lowered i) := by
  rw [line, List.map_eq_flatMap]
  rfl

theorem triangle_eq (x1 y1 x2 y2 x3 y3 : ℤ) (color : Color) (thickness : ℤ) :
    triangle x1 y1 x2 y2 x3 y3 false color thickness = .setColor color ::
      (offsets thickness).flatMap fun i =>
        [Event.line x1 y1 x2 y2, .line x2 y2 x3 y3, .line x3 y3 x1 y1].map (lowered i) := rfl

/-- For every thickness there is a number of copies such that a line consists of so many copies of
itself, and the outline of a triangle of so many copies of each edge, at consecutive heights. The
number is the thickness if and only if that is odd, and one more otherwise. The outline of a
rectangle always consists of as many outlines as its thickness says, from the rectangle itself
outward, each of them inside all that follow. -/
theorem copies_eq_thickness_iff_odd (x1 y1 x2 y2 x3 y3 width height : ℤ) (color : Color)
    {thickness : ℤ} (h : 1 ≤ thickness) :
    (∃ n : ℕ, ((n : ℤ) = thickness ↔ Odd thickness) ∧ (Even thickness → (n : ℤ) = thickness + 1) ∧
      (∃ lines, line x1 y1 x2 y2 color thickness = .setColor color :: lines ∧
        lines.length = n ∧ Stroked [.line x1 y1 x2 y2] n lines) ∧
      ∃ lines, triangle x1 y1 x2 y2 x3 y3 false color thickness = .setColor color :: lines ∧
        lines.length = 3 * n ∧
        Stroked [.line x1 y1 x2 y2, .line x2 y2 x3 y3, .line x3 y3 x1 y1] n lines) ∧
    ∃ borders, rectangle x1 y1 width height false color thickness = .setColor color :: borders ∧
      (borders.length : ℤ) = thickness ∧ borders.head? = some (.outline x1 y1 width height) ∧
      borders.Pairwise fun inner outer => Encloses outer inner := by
  have hnonneg : 0 ≤ thickness := by omega
  constructor
  · have hline := stroked_offsets [.line x1 y1 x2 y2] thickness
    have htriangle :=
      stroked_offsets [.line x1 y1 x2 y2, .line x2 y2 x3 y3, .line x3 y3 x1 y1] thickness
    refine ⟨(offsets thickness).length, length_offsets_eq_iff hnonneg,
      length_offsets_of_even hnonneg, ⟨_, line_eq .., ?_, hline⟩, _, triangle_eq .., ?_, htriangle⟩
    · rw [hline.length_eq, List.length_singleton, mul_one]
    · rw [htriangle.length_eq]
      exact mul_comm _ 3
  · refine ⟨_, rfl, ?_, ?_, pairwise_encloses x1 y1 width height 0 (thickness - 1)⟩
    · rw [if_neg Bool.false_ne_true, List.length_map, rings, length_span]
      omega
    · rw [if_neg Bool.false_ne_true, List.head?_map, rings, head?_span (by omega), Option.map_some]
      norm_num

/-- At thickness three, three copies of a line are drawn, and nine lines for a triangle. -/
theorem copies_eq_thickness_three : Odd (3 : ℤ) ∧
    (∃ lines, line 0 0 10 5 .black 3 = .setColor .black :: lines ∧ lines.length = 3) ∧
    ∃ lines, triangle 0 0 10 5 (-7) 2 false .black 3 = .setColor .black :: lines ∧
      lines.length = 9 := by
  have hodd : Odd (3 : ℤ) := by decide
  obtain ⟨⟨n, hn, -, ⟨lines, hline, hlines, -⟩, edges, htriangle, hedges, -⟩, -⟩ :=
    copies_eq_thickness_iff_odd 0 0 10 5 (-7) 2 4 4 .black (show (1 : ℤ) ≤ 3 by decide)
  have hthree := hn.mpr hodd
  exact ⟨hodd, ⟨lines, hline, by omega⟩, edges, htriangle, by omega⟩

/-- At thickness two there are three copies as well, and the triangle has nine lines instead of
six. -/
theorem copies_thickness_two :
    line 0 0 10 0 .black 2 =
      [.setColor .black, .line 0 (-1) 10 (-1), .line 0 0 10 0, .line 0 1 10 1] ∧
    ∃ lines, triangle 0 0 4 0 0 4 false .black 2 = .setColor .black :: lines ∧ lines.length = 9 :=
  ⟨rfl, _, rfl, rfl⟩

end DrawPlus.Shape
