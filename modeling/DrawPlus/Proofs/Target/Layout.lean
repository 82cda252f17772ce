import DrawPlus.Proofs.Scope.Growth
import DrawPlus.Proofs.Target.Emission

/-!
# The layout of the code

The code of a statement is added to the page line by line. Each line is indented by four blanks for
every brace that is open before it, one less if it begins with a closing brace, and no brace is ever
closed that is not open. `LaidOut` says this of lines, and lines that go on where others have left
off are laid out together (`LaidOut.append`).

An action on a page lays out what it adds (`Lays`). Writing can fail in one way, at a call with too
few arguments. It then leaves open the braces around the call, and the level of the page with them;
what is on the page is still laid out. Nothing of this depends on the dialect, as long as its
spellings keep to a line and have no braces (`Dialect.Tidy`).
-/

namespace DrawPlus

variable {t s : String} {ns body : List Node} {test : Node}

namespace Target

open Emit Node

/-! ## Lines and braces -/

/-- The braces that a text opens, less those that it closes. -/
def net (cs : List Char) : ℤ := cs.count '\x7b' - cs.count '\x7d'

/-- The characters of lines, one line after the other. -/
def charsOf (lines : List String) : List Char := lines.flatMap String.toList

/-- The number of blanks with which a line begins. -/
def margin (line : String) : ℕ := (line.toList.takeWhile (· == ' ')).length

/-- What follows the blanks at the beginning of a line begins with a closing brace. -/
def beginsClosing (line : String) : Bool :=
  (line.toList.dropWhile (· == ' ')).head? == some '\x7d'

/-- The lines go on at a level with `k` braces open, and leave `m` braces open. -/
structure LaidOut (level k m : ℕ) (lines : List String) : Prop where
  feedless : ∀ line ∈ lines, '\n' ∉ line.toList
  /-- at no character are there more braces closed than opened -/
  opened : ∀ read, read <+: charsOf lines → 0 ≤ k + net read
  left : k + net (charsOf lines) = m
  /-- four blanks for each brace that is open before the line, or is so after it has closed one -/
  indented : ∀ (i : ℕ) (line : String), lines[i]? = some line →
    (margin line : ℤ) = 4 * (level + k + net (charsOf (lines.take i)) -
      if beginsClosing line then 1 else 0)

@[simp] theorem net_nil : net [] = 0 := rfl

@[simp] theorem net_append (cs ds : List Char) : net (cs ++ ds) = net cs + net ds := by
  simp only [net, List.count_append, Nat.cast_add]
  ring

@[simp] theorem charsOf_append (xs ys : List String) :
    charsOf (xs ++ ys) = charsOf xs ++ charsOf ys :=
  List.flatMap_append

theorem laidOut_nil (level k : ℕ) : LaidOut level k k [] where
  feedless := by simp
  opened read h := by
    rw [charsOf, List.flatMap_nil, List.prefix_nil] at h
    simp [h]
  left := by simp [charsOf]
  indented i line h := by simp at h

/-- Lines after lines. -/
theorem LaidOut.append {level k m n : ℕ} {xs ys : List String} (h : LaidOut level k m xs)
    (h' : LaidOut level m n ys) : LaidOut level k n (xs ++ ys) where
  feedless := by
    intro line hline
    rcases List.mem_append.mp hline with hline | hline
    · exact h.feedless line hline
    · exact h'.feedless line hline
  opened read hread := by
    rw [charsOf_append] at hread
    rcases List.prefix_or_prefix_of_prefix hread (List.prefix_append _ _) with hfirst | ⟨rest, rfl⟩
    · exact h.opened read hfirst
    · have hrest := h'.opened rest ((List.prefix_append_right_inj _).mp hread)
      have hleft := h.left
      rw [net_append]
      omega
  left := by
    have hleft := h.left
    have hleft' := h'.left
    rw [charsOf_append, net_append]
    omega
  indented i line hline := by
    by_cases hi : i < xs.length
    · rw [List.getElem?_append_left hi] at hline
      rw [h.indented i line hline, List.take_append_of_le_length hi.le]
    · rw [List.getElem?_append_right (not_lt.mp hi)] at hline
      have hleft := h.left
      rw [h'.indented _ line hline, List.take_append, List.take_of_length_le (not_lt.mp hi),
        charsOf_append, net_append]
      omega

/-- What is laid out at a deeper level is laid out inside the braces that lead there. -/
theorem LaidOut.inside {level j k m : ℕ} {xs : List String} (h : LaidOut (level + j) k m xs) :
    LaidOut level (j + k) (j + m) xs where
  feedless := h.feedless
  opened read hread := by
    have hopened := h.opened read hread
    omega
  left := by
    have hleft := h.left
    omega
  indented i line hline := by
    rw [h.indented i line hline]
    omega

/-- A line that closes a brace or not, at its beginning, and opens one or not. -/
theorem laidOut_line (level : ℕ) (closes opens : Bool) {text : String}
    (hfeed : '\n' ∉ text.toList) (hblank : text.toList.head? ≠ some ' ')
    (hfirst : (text.toList.head? == some '\x7d') = closes)
    (hclose : text.toList.count '\x7d' = closes.toNat)
    (hopen : text.toList.count '\x7b' = opens.toNat) :
    LaidOut level closes.toNat opens.toNat [indented level text] := by
  have hchars : (indented level text).toList = List.replicate (4 * level) ' ' ++ text.toList := by
    rw [indented, String.toList_append, String.toList_ofList]
  have htake : text.toList.takeWhile (· == ' ') = [] := by
    cases htext : text.toList <;> simp_all
  have hdrop : text.toList.dropWhile (· == ' ') = text.toList := by
    cases htext : text.toList <;> simp_all
  have hcountClose : (indented level text).toList.count '\x7d' = closes.toNat := by
    simp [hchars, hclose, List.count_replicate]
  have hcountOpen : (indented level text).toList.count '\x7b' = opens.toNat := by
    simp [hchars, hopen, List.count_replicate]
  have hmargin : margin (indented level text) = 4 * level := by
    rw [margin, hchars, List.takeWhile_append_of_pos (by simp), htake]
    simp
  have hclosing : beginsClosing (indented level text) = closes := by
    rw [beginsClosing, hchars, List.dropWhile_append_of_pos (by simp), hdrop, hfirst]
  constructor
  · simp [hchars, hfeed]
  · intro read hread
    simp only [charsOf, List.flatMap_cons, List.flatMap_nil, List.append_nil] at hread
    have hle := hread.sublist.count_le '\x7d'
    rw [hcountClose] at hle
    rw [net]
    omega
  · simp only [charsOf, List.flatMap_cons, List.flatMap_nil, List.append_nil, net, hcountClose,
      hcountOpen]
    omega
  · intro i line hline
    obtain ⟨rfl, rfl⟩ : i = 0 ∧ indented level text = line := by
      cases i <;> simp_all
    rw [hmargin, hclosing]
    cases closes <;> simp [charsOf]

/-! ## Texts inside a line -/

/-- The characters of text that keeps to its line and has no braces. -/
def isTame (c : Char) : Bool := c ∉ ['\n', '\x7b', '\x7d']

/-- The text keeps to its line and has no braces. -/
def Tame (text : String) : Prop := text.toList.all isTame = true

instance : DecidablePred Tame := fun text =>
  inferInstanceAs (Decidable (text.toList.all isTame = true))

theorem tame_iff {text : String} : Tame text ↔ ∀ c ∈ text.toList, isTame c = true :=
  List.all_eq_true

@[simp] theorem tame_append : Tame (s ++ t) ↔ Tame s ∧ Tame t := by
  simp [Tame]

theorem Tame.sublist (h : Tame t) (hs : s.toList.Sublist t.toList) : Tame s :=
  tame_iff.mpr fun c hc => tame_iff.mp h c (hs.subset hc)

theorem Tame.not_mem (h : Tame t) {c : Char} (hc : isTame c = false) : c ∉ t.toList := by
  intro hmem
  rw [tame_iff.mp h c hmem] at hc
  cases hc

theorem Tame.count (h : Tame t) {c : Char} (hc : isTame c = false) : t.toList.count c = 0 :=
  List.count_eq_zero.mpr (h.not_mem hc)

theorem tame_of_plain (h : Plain t) : Tame t := by
  rw [tame_iff]
  intro c hc
  have hplain := plain_iff.mp h c hc
  by_contra htame
  have hbad : c ∈ ['\n', '\x7b', '\x7d'] := not_not.mp fun h => htame (decide_eq_true h)
  have hnot : ∀ c ∈ ['\n', '\x7b', '\x7d'], isPlain c = false := by
    simp [isPlain, isWordChar_of_ascii]
  rw [hnot c hbad] at hplain
  cases hplain

theorem tame_join {texts : List String} (h : ∀ t ∈ texts, Tame t) : Tame (String.join texts) := by
  rw [tame_iff]
  intro c hc
  rw [String.toList_join, List.mem_flatMap] at hc
  obtain ⟨t, ht, hc⟩ := hc
  exact tame_iff.mp (h t ht) c hc

theorem tame_intercalate {texts : List String} (h : ∀ t ∈ texts, Tame t) :
    Tame (", ".intercalate texts) := by
  induction texts with
  | nil => decide
  | cons t texts ih =>
    rw [List.forall_mem_cons] at h
    cases texts with
    | nil =>
      rw [String.intercalate_singleton]
      exact h.1
    | cons u texts =>
      rw [String.intercalate_cons_cons, tame_append, tame_append]
      exact ⟨⟨h.1, by decide⟩, ih h.2⟩

theorem tame_indented {level : ℕ} {text : String} (h : Tame text) : Tame (indented level text) := by
  rw [indented, tame_append]
  refine ⟨tame_iff.mpr ?_, h⟩
  intro c hc
  rw [String.toList_ofList] at hc
  rw [List.eq_of_mem_replicate hc]
  rfl

theorem tame_joined {p : Page} (h : ∀ line ∈ p.lines, Tame line) : Tame p.joined := by
  apply (tame_join h).sublist
  rw [Page.joined, String.toList_ofList, Text.trim, Text.trimRight]
  have hright := (List.dropWhile_sublist (l := (Text.trimLeft (String.join p.lines).toList).reverse)
    (p := Text.isBlank)).reverse
  rw [List.reverse_reverse] at hright
  exact hright.trans (List.dropWhile_sublist _)

theorem tame_withoutSemicolon (h : Tame t) : Tame (withoutSemicolon t) := by
  simp only [withoutSemicolon]
  split_ifs
  · apply h.sublist
    rw [String.toList_ofList]
    exact List.dropLast_sublist _
  · exact h

/-- There is text, and it does not begin with a blank. -/
def Begins (text : String) : Prop := text.toList.head? ∉ [none, some ' ']

instance : DecidablePred Begins := fun text =>
  inferInstanceAs (Decidable (text.toList.head? ∉ [none, some ' ']))

theorem head?_append_of_begins (h : Begins s) : (s ++ t).toList.head? = s.toList.head? := by
  rw [String.toList_append]
  cases hs : s.toList with
  | nil => simp [Begins, hs] at h
  | cons c cs => rfl

theorem Begins.append (h : Begins s) (t : String) : Begins (s ++ t) := by
  rw [Begins, head?_append_of_begins h]
  exact h

theorem Begins.ne_blank {text : String} (h : Begins text) : text.toList.head? ≠ some ' ' := by
  intro hhead
  simp [Begins, hhead] at h

theorem begins_of_isName {w : String} (h : IsName w) : Begins w := by
  obtain ⟨⟨c, rest, hw, hstart, -⟩, -⟩ := h
  have hc : c ≠ ' ' := by
    rintro rfl
    exact absurd (isBlank_of_isWordStart hstart) (by decide)
  simp [Begins, hw, hc]

/-- A line without braces. -/
theorem laidOut_tame (level : ℕ) {text : String} (h : Tame text) (hbegins : Begins text) :
    LaidOut level 0 0 [indented level text] := by
  have hfirst : (text.toList.head? == some '\x7d') = false := by
    rw [beq_eq_false_iff_ne]
    intro hhead
    exact h.not_mem rfl (List.mem_of_head? hhead)
  exact laidOut_line level false false (h.not_mem rfl) hbegins.ne_blank hfirst (h.count rfl)
    (h.count rfl)

/-- A line that opens a block, with a text in it between fixed ones. -/
theorem laidOut_header (level : ℕ) (before : String) (closes : Bool) (ht : Tame t)
    (hbefore : Begins before ∧ '\n' ∉ before.toList ∧
      (before.toList.head? == some '\x7d') = closes ∧ before.toList.count '\x7d' = closes.toNat ∧
      before.toList.count '\x7b' = 0) :
    LaidOut level closes.toNat 1 [indented level (before ++ t ++ ") \x7b")] := by
  obtain ⟨hbegins, hfeed, hfirst, hclose, hopen⟩ := hbefore
  have hchars :
      (before ++ t ++ ") \x7b").toList = before.toList ++ t.toList ++ [')', ' ', '\x7b'] := by
    simp only [String.toList_append, String.reduceToList]
  have hhead : (before ++ t ++ ") \x7b").toList.head? = before.toList.head? := by
    rw [head?_append_of_begins (hbegins.append t), head?_append_of_begins hbegins]
  have hfeed' := ht.not_mem (c := '\n') rfl
  have hclose' := ht.count (c := '\x7d') rfl
  have hopen' := ht.count (c := '\x7b') rfl
  apply laidOut_line level closes true
  · simp [hchars, hfeed, hfeed']
  · rw [hhead]
    exact hbegins.ne_blank
  · rw [hhead, hfirst]
  · simp [hchars, hclose, hclose']
  · simp [hchars, hopen, hopen']

/-! ## What actions lay out -/

/-- The action adds lines that go on with `k` braces open. It has two ends: when it is ready for
it, with `m` braces open and the page at its old level; and otherwise with an error, for want of
arguments, and the page as much deeper as there are braces left open. -/
def Lays {α : Type} (ready : Prop) (k m : ℕ) (x : Emit α) : Prop :=
  ∀ p : Page, p.shown.isSome → ∃ (q : Page) (added : List String) (left : ℕ),
    q.lines = p.lines ++ added ∧ LaidOut p.indent k left added ∧ q.shown.isSome ∧
      ((ready ∧ left = m ∧ q.indent = p.indent ∧ ∃ a, x p = .ok a q) ∨
        (¬ready ∧ q.indent = p.indent + left ∧ x p = .error .tooFewParts q))

section

variable {α β : Type} {x : Emit α} {f : α → Emit β} {P Q : Prop} {k m n : ℕ}

theorem Lays.congr (h : Lays P k m x) (hPQ : P ↔ Q) : Lays Q k m x := by
  rwa [← hPQ]

theorem lays_pure (a : α) (k : ℕ) : Lays True k k (pure a : Emit α) := by
  intro p hp
  exact ⟨p, [], k, (List.append_nil _).symm, laidOut_nil _ _, hp, .inl ⟨trivial, rfl, rfl, a, rfl⟩⟩

theorem lays_line {text : String} (h : ∀ level, LaidOut level k m [indented level text]) :
    Lays True k m (line text) := by
  intro p hp
  exact ⟨p.write text, [indented p.indent text], m, rfl, h _, hp, .inl ⟨trivial, rfl, rfl, (), rfl⟩⟩

theorem Lays.bind (h : Lays P k m x) (h' : ∀ a, Lays Q m n (f a)) :
    Lays (P ∧ Q) k n (x >>= f) := by
  intro p hp
  obtain ⟨q, added, left, hlines, hlaid, hshown, hend⟩ := h p hp
  rcases hend with ⟨hP, rfl, hq, a, hx⟩ | ⟨hP, hq, hx⟩
  · obtain ⟨r, added', left', hlines', hlaid', hshown', hend'⟩ := h' a q hshown
    rw [hq] at hlaid'
    refine ⟨r, added ++ added', left', ?_, hlaid.append hlaid', hshown', ?_⟩
    · rw [hlines', hlines, List.append_assoc]
    rw [bind_of_ok hx, ← hq]
    rcases hend' with ⟨hQ, hleft, hr, b, hf⟩ | ⟨hQ, hr, hf⟩
    · exact .inl ⟨⟨hP, hQ⟩, hleft, hr, b, hf⟩
    · exact .inr ⟨fun h => hQ h.2, hr, hf⟩
  · exact ⟨q, added, left, hlines, hlaid, hshown, .inr ⟨fun h => hP h.1, hq, bind_of_error hx⟩⟩

/-- A block one level deeper, after the line that opens it. Where the block fails, its own brace is
left open too. -/
theorem Lays.block {x : Emit Unit} {y : Emit β} {text : String}
    (hheader : ∀ level, LaidOut level k 1 [indented level text]) (h : Lays P 0 0 x)
    (h' : Lays Q 1 n y) :
    Lays (P ∧ Q) k n (do line text; deeper; x; shallower; y) := by
  intro p hp
  let begun : Page := (p.write text).deeper
  have hbegin : (do line text; deeper; x; shallower; y : Emit β) p = (do x; shallower; y) begun :=
    rfl
  rw [hbegin]
  obtain ⟨q, added, left, hlines, hlaid, hshown, hend⟩ := h begun hp
  have hinside : LaidOut p.indent k (1 + left) (indented p.indent text :: added) :=
    (hheader p.indent).append hlaid.inside
  have hwritten : q.lines = p.lines ++ indented p.indent text :: added := by
    rw [hlines, List.append_cons]
    rfl
  rcases hend with ⟨hP, rfl, hq, a, hx⟩ | ⟨hP, hq, hx⟩
  · obtain ⟨r, added', left', hlines', hlaid', hshown', hend'⟩ := h' q.shallower hshown
    have hback : q.shallower.indent = p.indent := by
      change q.indent - 1 = p.indent
      rw [hq]
      rfl
    rw [hback] at hlaid' hend'
    refine ⟨r, (indented p.indent text :: added) ++ added', left', ?_, hinside.append hlaid',
      hshown', ?_⟩
    · rw [hlines', ← List.append_assoc, ← hwritten]
      rfl
    have hs : shallower q = .ok () q.shallower := rfl
    rw [bind_of_ok hx, bind_of_ok hs]
    rcases hend' with ⟨hQ, hleft, hr, b, hf⟩ | ⟨hQ, hr, hf⟩
    · exact .inl ⟨⟨hP, hQ⟩, hleft, hr, b, hf⟩
    · exact .inr ⟨fun h => hQ h.2, hr, hf⟩
  · refine ⟨q, _, 1 + left, hwritten, hinside, hshown, .inr ⟨fun h => hP h.1, ?_, bind_of_error hx⟩⟩
    rw [hq]
    change p.indent + 1 + left = _
    omega

/-- The line that closes a block. -/
theorem lays_brace (a : α) : Lays True 1 0 (do line "\x7d"; return a) := by
  have hline : Lays True 1 0 (line "\x7d") := lays_line fun level =>
    laidOut_line level true false (by decide) (by decide) (by decide) (by decide) (by decide)
  exact (hline.bind (f := fun _ => pure a) fun _ => lays_pure a 0).congr (and_self_iff)

/-- A statement of one line. -/
theorem lays_of_writesFlat {a : α} {text : String}
    (h : WritesFlat x a fun i => [indented i text]) (ht : Tame text)
    (hbegins : Begins text) : Lays True 0 0 x := by
  intro p hp
  exact ⟨{ p with lines := p.lines ++ [indented p.indent text] }, [indented p.indent text], 0, rfl,
    laidOut_tame _ ht hbegins, hp, .inl ⟨trivial, rfl, rfl, a, h p⟩⟩

end

/-! ## Expressions and lines of calls -/

/-- The spellings of the dialect are tame, and a line can begin with the spelling of a type. -/
structure Tidy (d : Dialect) : Prop where
  types : ∀ e ∈ d.types, Tame e.2 ∧ Begins e.2
  operators : ∀ e ∈ d.operators, Tame e.2
  colors : ∀ e ∈ d.colors, Tame e.2

/-- What holds of the entries of a table and of the default holds of what is found. -/
theorem getD_lookup {P : String → Prop} {table : List (String × String)} {key other : String}
    (h : ∀ e ∈ table, P e.2) (hother : P other) : P ((table.lookup key).getD other) := by
  cases hlookup : table.lookup key with
  | none => exact hother
  | some text =>
    obtain ⟨before, after, rfl, -⟩ := List.lookup_eq_some_iff.mp hlookup
    exact h (key, text) (by simp)

theorem tidy_standard : Tidy .standard := by
  constructor <;> decide

section

variable {d : Dialect} (hd : Tidy d)

include hd

theorem Tidy.typeText (type : Option Kind) :
    Tame (d.typeText type) ∧ Begins (d.typeText type) :=
  getD_lookup (P := fun text => Tame text ∧ Begins text) hd.types (by decide)

theorem Tidy.operatorText (op : Kind) : Tame (d.operatorText op) :=
  getD_lookup hd.operators (by decide)

theorem Tidy.colorText (name : String) : Tame (d.colorText name) :=
  getD_lookup hd.colors (by decide)

/-- The code of an expression is a tame text, and nothing is written. -/
theorem exists_text {n : Node} (h : n.IsExpr .lexed) :
    ∃ t, Tame t ∧ ∀ p, node d n p = .ok (some t) p := by
  induction h with
  | @number v hv =>
    refine ⟨v.display, ?_, fun p => rfl⟩
    cases hf : v.isFinite with
    | true =>
      exact tame_of_plain (plain_iff.mpr (isPlain_of_isNumeral (Value.isNumeral_display hv hf)))
    | false =>
      rw [Value.display_of_infinite hv hf]
      decide
  | @truth v hv =>
    obtain ⟨w, rfl, hw⟩ : ∃ w, v = .text w ∧ (w = "true" ∨ w = "false") := by
      rcases hv with rfl | rfl
      · exact ⟨_, rfl, .inl rfl⟩
      · exact ⟨_, rfl, .inr rfl⟩
    refine ⟨w, ?_, fun p => ?_⟩
    · rcases hw with rfl | rfl <;> decide
    · change (Emit.truth w >>= fun text => pure (some text)) p = _
      rw [truth_of_word hw]
      rfl
  | hue hv =>
    obtain ⟨h, rfl⟩ := hv
    refine ⟨d.colorText h.name, hd.colorText h.name, fun p => ?_⟩
    change (if (Value.text h.name).isVoid then _ else
      pure (some (d.colorText h.name)) : Emit (Option String)) p = _
    rw [isVoid_name]
    rfl
  | mixed _ _ _ hr hg hb =>
    obtain ⟨r, htr, hr⟩ := hr
    obtain ⟨g, htg, hg⟩ := hg
    obtain ⟨b, htb, hb⟩ := hb
    refine ⟨Emit.mixed r g b, ?_, fun p => ?_⟩
    · have hl : Tame "custom_color((Uint8)" ∧ Tame ", (Uint8)" ∧ Tame ", 255)" := by decide
      delta Emit.mixed
      simp only [tame_append, htr, htg, htb, hl, and_self]
    · change (components d _ >>= fun text => pure (some text)) p = _
      rw [components, bind_of_ok (t := p) (a := Emit.mixed r g b)]
      · rfl
      rw [bind_of_ok (hr p), bind_of_ok (hg p), bind_of_ok (hb p)]
      rfl
  | name hx =>
    obtain ⟨w, rfl, hw⟩ := hx
    exact ⟨w, tame_of_plain (plain_of_isName hw), fun p => rfl⟩
  | @binary _ _ op _ _ _ hl hr =>
    obtain ⟨l, htl, hl⟩ := hl
    obtain ⟨r, htr, hr⟩ := hr
    refine ⟨"(" ++ l ++ " " ++ d.operatorText op ++ " " ++ r ++ ")", ?_, fun p => ?_⟩
    · have hp : Tame "(" ∧ Tame " " ∧ Tame ")" := by decide
      simp only [tame_append, htl, htr, hp, hd.operatorText op, and_self]
    · exact (bind_of_ok (hl p)).trans ((bind_of_ok (hr p)).trans rfl)

theorem exists_texts (h : ∀ n ∈ ns, n.IsExpr .lexed) :
    ∃ texts : List String, texts.length = ns.length ∧ (∀ t ∈ texts, Tame t) ∧
      ∀ p, arguments d ns p = .ok texts p := by
  induction ns with
  | nil => exact ⟨[], rfl, by simp, fun p => rfl⟩
  | cons n ns ih =>
    rw [List.forall_mem_cons] at h
    obtain ⟨t, ht, hn⟩ := exists_text hd h.1
    obtain ⟨texts, hlength, htexts, hns⟩ := ih h.2
    refine ⟨t :: texts, congrArg (· + 1) hlength, List.forall_mem_cons.mpr ⟨ht, htexts⟩,
      fun p => ?_⟩
    rw [arguments, bind_of_ok (hn p), bind_of_ok (hns p)]
    rfl

theorem Lays.of_expr {α : Type} {n : Node} {f : Option String → Emit α} {P : Prop} {k m : ℕ}
    (h : n.IsExpr .lexed) (hf : ∀ t, Tame t → Lays P k m (f (some t))) :
    Lays P k m (node d n >>= f) := by
  obtain ⟨t, ht, hn⟩ := exists_text hd h
  intro p hp
  rw [bind_of_ok (hn p)]
  exact hf t ht p hp

theorem Lays.of_test {α : Type} {n : Node} {f : Option String → Emit α} {P : Prop} {k m : ℕ}
    (h : n.IsTest .lexed) (hf : ∀ t, Tame t → Lays P k m (f (some t))) :
    Lays P k m (node d n >>= f) :=
  .of_expr hd (h.isExpr Vocabulary.isCoarse_lexed) hf

/-- A declaration or an assignment is one line. -/
theorem exists_startText {n : Node} (h : n.IsStart .lexed) : ∃ text, Tame text ∧ Begins text ∧
    WritesFlat (node d n) none fun i => [indented i text] := by
  have hl : Tame " " ∧ Tame " = " ∧ Tame ";" := by decide
  cases h with
  | declaration h =>
    obtain @⟨k, x, e, -, ⟨w, rfl, hw⟩, -, he⟩ := h
    obtain ⟨t, ht, hn⟩ := exists_text hd he
    have hnode : node d (.varDecl (some k) w e) = (do
        let value ← node d e
        line (d.typeText (some k) ++ " " ++ w ++ " = " ++ inCode value ++ ";")
        return none) := by
      cases e with
      | absent => cases he
      | _ => rfl
    obtain ⟨htype, hbegins⟩ := hd.typeText (some k)
    refine ⟨d.typeText (some k) ++ " " ++ w ++ " = " ++ t ++ ";", ?_, ?_, fun p => ?_⟩
    · simp only [tame_append, htype, tame_of_plain (plain_of_isName hw), ht, hl, and_self]
    · simp only [String.append_assoc]
      exact hbegins.append _
    · rw [hnode, bind_of_ok (hn p)]
      exact bind_of_ok (writesFlat_line _ p)
  | assignment h =>
    obtain @⟨x, e, ⟨w, rfl, hw⟩, he⟩ := h
    obtain ⟨t, ht, hn⟩ := exists_text hd he
    refine ⟨w ++ " = " ++ t ++ ";", ?_, ?_, fun p => ?_⟩
    · simp only [tame_append, tame_of_plain (plain_of_isName hw), ht, hl, and_self]
    · simp only [String.append_assoc]
      exact (begins_of_isName hw).append _
    · exact (bind_of_ok (hn p)).trans (bind_of_ok (writesFlat_line _ p))

end

theorem lays_call {f : String} {args : List String} (hf : Tame f ∧ Begins f)
    (hargs : ∀ t ∈ args, Tame t) : Lays True 0 0 (call f args) := by
  have hl : Tame "(" ∧ Tame ");" := by decide
  apply lays_of_writesFlat (writesFlat_line _)
  · simp only [tame_append, hf.1, tame_intercalate hargs, hl, and_self]
  · simp only [String.append_assoc]
    exact hf.2.append _

theorem lays_remember (cursor : String) : Lays True 0 0 (remember cursor) := by
  intro p hp
  obtain ⟨cursors, hshown⟩ := Option.isSome_iff_exists.mp hp
  refine ⟨{ p with shown := some (cursors ++ [cursor]) }, [], 0, (List.append_nil _).symm,
    laidOut_nil _ _, rfl, .inl ⟨trivial, rfl, rfl, (), ?_⟩⟩
  simp only [remember, hshown]

theorem lays_visible {w : String} (hw : IsName w) (texts : List String) :
    Lays True 0 0 (method w "visible" texts) := by
  have hcall : Lays True 0 0 (call "set_cursor_visibility" [w, "true"]) := by
    apply lays_call (by decide)
    rw [List.forall_mem_cons, List.forall_mem_singleton]
    exact ⟨tame_of_plain (plain_of_isName hw), by decide⟩
  exact (hcall.bind (f := fun _ => remember w) fun _ => lays_remember w).congr and_self_iff

section

variable {w m : String} {texts : List String} (hw : IsName w) (ht : ∀ t ∈ texts, Tame t)

include ht

/-- The arguments that are not there stop the writing before anything is written. -/
theorem lays_firstOf {k : ℕ} {f : List String → Emit Unit}
    (hf : ∀ given, (∀ t ∈ given, Tame t) → Lays True 0 0 (f given)) :
    Lays (k ≤ texts.length) 0 0 (firstOf k texts >>= f) := by
  intro p hp
  by_cases hk : k ≤ texts.length
  · have hfirst : firstOf k texts p = .ok (texts.take k) p := by
      rw [firstOf, if_pos hk]
      rfl
    rw [bind_of_ok hfirst]
    exact ((hf (texts.take k) fun t h => ht t (List.mem_of_mem_take h)).congr
      (iff_of_true trivial hk)) p hp
  · have hfirst : firstOf k texts p = .error .tooFewParts p := by
      rw [firstOf, if_neg hk]
      rfl
    exact ⟨p, [], 0, (List.append_nil _).symm, laidOut_nil _ _, hp,
      .inr ⟨hk, rfl, bind_of_error hfirst⟩⟩

include hw

theorem lays_firstOf_call {f : String} (k : ℕ) (hf : Tame f ∧ Begins f) :
    Lays (k ≤ texts.length) 0 0 (do call f (w :: (← firstOf k texts))) := by
  apply lays_firstOf ht
  intro given hgiven
  exact lays_call hf (List.forall_mem_cons.mpr ⟨tame_of_plain (plain_of_isName hw), hgiven⟩)

theorem lays_thickness : Lays (1 ≤ texts.length) 0 0 (method w "thickness" texts) := by
  have hl : Tame "->thickness = (int)" ∧ Tame ";" := by decide
  apply lays_firstOf ht
  intro given hgiven
  apply lays_of_writesFlat (writesFlat_line _)
  · simp only [tame_append, tame_of_plain (plain_of_isName hw), tame_join hgiven, hl, and_self]
  · simp only [String.append_assoc]
    exact (begins_of_isName hw).append _

theorem lays_method (hm : m ∈ changeWords) :
    Lays (∀ k, (m, k) ∈ takes → k ≤ texts.length) 0 0 (method w m texts) := by
  have hcall {f : String} (k : ℕ) (hf : Tame f ∧ Begins f) := lays_firstOf_call hw ht k hf
  simp only [changeWords, List.mem_cons, List.not_mem_nil, or_false] at hm
  rcases hm with rfl | rfl | rfl | rfl | rfl
  · exact (hcall (f := "set_cursor_color") 1 (by decide)).congr (by simp [takes])
  · exact (lays_thickness hw ht).congr (by simp [takes])
  · exact (hcall (f := "move_cursor") 1 (by decide)).congr (by simp [takes])
  · exact (hcall (f := "rotate_cursor") 1 (by decide)).congr (by simp [takes])
  · exact (lays_visible hw texts).congr (by simp [takes])

theorem lays_shape (hm : m ∈ drawWords) :
    Lays (∀ k, (m, k) ∈ takes → k ≤ texts.length) 0 0 (shape w m texts) := by
  have hcall {f : String} (k : ℕ) (hf : Tame f ∧ Begins f) := lays_firstOf_call hw ht k hf
  simp only [drawWords, List.mem_cons, List.not_mem_nil, or_false] at hm
  rcases hm with rfl | rfl | rfl | rfl | rfl
  · exact (hcall (f := "cursor_draw_line") 1 (by decide)).congr (by simp [takes])
  · exact (hcall (f := "cursor_draw_rectangle") 3 (by decide)).congr (by simp [takes])
  · exact (hcall (f := "cursor_draw_circle") 2 (by decide)).congr (by simp [takes])
  · exact (hcall (f := "cursor_draw_triangle") 3 (by decide)).congr (by simp [takes])
  · exact (hcall (f := "cursor_draw_ellipse") 3 (by decide)).congr (by simp [takes])

end

/-! ## Statements -/

/-- A call has the arguments that are written for it. -/
def HasEnough : Node → Prop
  | .cursorMethod _ (.text m) ns | .drawCommand _ (.text m) ns =>
    ∀ k, (m, k) ∈ takes → k ≤ ns.length
  | _ => True

/-- All calls in a tree have the arguments that are written for them. -/
def IsSupplied (n : Node) : Prop := ∀ m ∈ n.preorder, HasEnough m

theorem isSupplied_iff {n : Node} :
    IsSupplied n ↔ HasEnough n ∧ ∀ c ∈ n.children, IsSupplied c.2 := by
  rw [IsSupplied, preorder_eq, List.forall_mem_cons, List.forall_mem_flatMap]
  rfl

theorem isSupplied_of_isExpr {V : Vocabulary} {n : Node} (h : n.IsExpr V) : IsSupplied n := by
  induction h with
  | number | truth | hue | name =>
    rw [isSupplied_iff]
    simp [HasEnough, children]
  | mixed _ _ _ hr hg hb =>
    rw [isSupplied_iff]
    simp [HasEnough, children, hr, hg, hb]
  | binary _ _ _ hl hr =>
    rw [isSupplied_iff]
    simp [HasEnough, children, hl, hr]

theorem isSupplied_of_isTest {n : Node} (h : n.IsTest .lexed) : IsSupplied n :=
  isSupplied_of_isExpr (h.isExpr Vocabulary.isCoarse_lexed)

theorem isSupplied_of_isStart {V : Vocabulary} {n : Node} (h : n.IsStart V) : IsSupplied n := by
  rw [isSupplied_iff]
  cases h with
  | declaration h =>
    obtain ⟨-, -, -, he⟩ := h
    simp [HasEnough, children, isSupplied_of_isExpr he]
  | assignment h =>
    obtain ⟨-, he⟩ := h
    simp [HasEnough, children, isSupplied_of_isExpr he]

theorem isSupplied_creation {w : String} {x y : Node} (hx : x.IsExpr .lexed)
    (hy : y.IsExpr .lexed) :
    IsSupplied (.cursorCreation w x y) := by
  rw [isSupplied_iff]
  simp [HasEnough, children, isSupplied_of_isExpr hx, isSupplied_of_isExpr hy]

theorem isSupplied_change_iff {w m : String} (h : ∀ n ∈ ns, n.IsExpr .lexed) :
    IsSupplied (.cursorMethod w m ns) ↔ ∀ k, (m, k) ∈ takes → k ≤ ns.length := by
  rw [isSupplied_iff, and_iff_left]
  · rfl
  · simpa [children] using fun n hn => isSupplied_of_isExpr (h n hn)

theorem isSupplied_draw_iff {w m : String} (h : ∀ n ∈ ns, n.IsExpr .lexed) :
    IsSupplied (.drawCommand w m ns) ↔ ∀ k, (m, k) ∈ takes → k ≤ ns.length := by
  rw [isSupplied_iff, and_iff_left]
  · rfl
  · simpa [children] using fun n hn => isSupplied_of_isExpr (h n hn)

theorem isSupplied_whileLoop_iff (ht : test.IsTest .lexed) :
    IsSupplied (.whileLoop test body) ↔ ∀ n ∈ body, IsSupplied n := by
  rw [isSupplied_iff]
  simp [HasEnough, children, isSupplied_of_isTest ht]

theorem isSupplied_forLoop_iff {init update : Node} (hi : init.IsStart .lexed)
    (ht : test.IsTest .lexed) (hu : update.IsAssignment .lexed) :
    IsSupplied (.forLoop init test update body) ↔ ∀ n ∈ body, IsSupplied n := by
  rw [isSupplied_iff]
  simp [HasEnough, children, isSupplied_of_isStart hi, isSupplied_of_isTest ht,
    isSupplied_of_isStart (.assignment hu)]

theorem isSupplied_branch_iff {arms : List (Node × List Node)} {otherwise : Option (List Node)}
    (ht : test.IsTest .lexed) (hts : ∀ arm ∈ arms, arm.1.IsTest .lexed) :
    IsSupplied (.branch test body arms otherwise) ↔ (∀ n ∈ body, IsSupplied n) ∧
      (∀ arm ∈ arms, ∀ n ∈ arm.2, IsSupplied n) ∧ ∀ n ∈ otherwise.getD [], IsSupplied n := by
  have harm : ∀ arm ∈ arms, IsSupplied arm.1 := fun arm h => isSupplied_of_isTest (hts arm h)
  rw [isSupplied_iff]
  simp only [HasEnough, children, List.cons_append, List.forall_mem_cons, List.forall_mem_append,
    List.forall_mem_map, List.forall_mem_flatMap, isSupplied_of_isTest ht, true_and, and_assoc]
  grind

section

variable {d : Dialect} (hd : Tidy d)

theorem lays_statements (h : ∀ n ∈ ns, Lays (IsSupplied n) 0 0 (node d n)) :
    Lays (∀ n ∈ ns, IsSupplied n) 0 0 (statements d ns) := by
  induction ns with
  | nil => exact (lays_pure () 0).congr (by simp)
  | cons n ns ih =>
    rw [List.forall_mem_cons] at h
    exact (h.1.bind (f := fun _ => statements d ns) fun _ => ih h.2).congr
      List.forall_mem_cons.symm

include hd

/-- Every further block of a branch begins and ends with one brace open. -/
theorem lays_arms {as : List (Node × List Node)} (ht : ∀ arm ∈ as, arm.1.IsTest .lexed)
    (h : ∀ arm ∈ as, ∀ n ∈ arm.2, Lays (IsSupplied n) 0 0 (node d n)) :
    Lays (∀ arm ∈ as, ∀ n ∈ arm.2, IsSupplied n) 1 1 (arms d as) := by
  induction as with
  | nil => exact (lays_pure () 1).congr (by simp)
  | cons arm as ih =>
    obtain ⟨test, body⟩ := arm
    rw [List.forall_mem_cons] at ht h ⊢
    refine Lays.of_test hd ht.1 fun t htame => ?_
    exact (lays_statements h.1).block
      (fun level => laidOut_header level "\x7d else if (" true htame (by decide)) (ih ht.2 h.2)

theorem lays_whileLoop (ht : test.IsTest .lexed)
    (h : ∀ n ∈ body, Lays (IsSupplied n) 0 0 (node d n)) :
    Lays (∀ n ∈ body, IsSupplied n) 0 0 (node d (.whileLoop test body)) := by
  refine Lays.of_test hd ht fun t htame => ?_
  exact ((lays_statements h).block
    (fun level => laidOut_header level "while (" false htame (by decide)) (lays_brace none)).congr
      (and_iff_left trivial)

theorem Lays.of_arguments {x : List String → Emit Unit} {P : Prop} (h : ∀ n ∈ ns, n.IsExpr .lexed)
    (hx : ∀ texts : List String, texts.length = ns.length → (∀ t ∈ texts, Tame t) →
      Lays P 0 0 (x texts)) : Lays P 0 0 (do
      let texts ← arguments d ns
      x texts
      return (none : Option String)) := by
  obtain ⟨texts, hlength, htame, hargs⟩ := exists_texts hd h
  intro p hp
  rw [bind_of_ok (hargs p)]
  exact ((hx texts hlength htame).bind fun _ => lays_pure none 0).congr (and_iff_left trivial) p hp

/-- The header of a loop over a range is put together on a page of its own, on which its parts are
lines at the level of the loop. -/
theorem lays_forLoop {init update : Node} (hi : init.IsStart .lexed) (ht : test.IsTest .lexed)
    (hu : update.IsAssignment .lexed) (h : ∀ n ∈ body, Lays (IsSupplied n) 0 0 (node d n)) :
    Lays (∀ n ∈ body, IsSupplied n) 0 0 (node d (.forLoop init test update body)) := by
  obtain ⟨initText, hinitTame, -, hinit⟩ := exists_startText hd hi
  obtain ⟨testText, htestTame, htest⟩ := exists_text hd (ht.isExpr Vocabulary.isCoarse_lexed)
  obtain ⟨updateText, hupdateTame, -, hupdate⟩ := exists_startText hd (.assignment hu)
  intro p hp
  let begun : Page := ⟨[], p.indent, p.indent, p.shown⟩
  let first : Page := ⟨[indented p.indent initText], p.indent, p.indent, p.shown⟩
  let last : Page := ⟨[indented p.indent updateText], p.indent, p.indent, p.shown⟩
  have hfirst : node d init begun = .ok none first := hinit begun
  have hlast : node d update begun = .ok none last := hupdate begun
  let parts := first.joined ++ " " ++ withoutSemicolon testText ++ "; " ++
    withoutSemicolon last.joined
  have hparts : Tame parts := by
    have hl : Tame " " ∧ Tame "; " := by decide
    have hfirstTame : Tame first.joined :=
      tame_joined (by simpa [first] using tame_indented hinitTame)
    have hlastTame : Tame last.joined :=
      tame_joined (by simpa [last] using tame_indented hupdateTame)
    simp only [parts, tame_append, hfirstTame, tame_withoutSemicolon htestTame,
      tame_withoutSemicolon hlastTame, hl, and_self]
  have hblock := ((lays_statements h).block
    (fun level => laidOut_header level "for (" false hparts (by decide))
    (lays_brace (none : Option String))).congr (and_iff_left trivial)
  have hnode : node d (.forLoop init test update body) p = (do
      line ("for (" ++ parts ++ ") \x7b")
      deeper
      statements d body
      shallower
      line "\x7d"
      return none : Emit (Option String)) { p with loopIndent := p.indent } := by
    change (node d init >>= _) begun = _
    rw [bind_of_ok hfirst]
    change (node d test >>= _) begun = _
    rw [bind_of_ok (htest _)]
    change (node d update >>= _) begun = _
    rw [bind_of_ok hlast]
    simp only [parts, ← String.append_assoc]
    rfl
  rw [hnode]
  exact hblock { p with loopIndent := p.indent } hp

/-- A branch up to its last block; what follows closes it. -/
theorem lays_branch {as : List (Node × List Node)} {P Q : Prop} {last : Emit (Option String)}
    (ht : test.IsTest .lexed) (hb : Lays P 0 0 (statements d body)) (ha : Lays Q 1 1 (arms d as))
    {R : Prop} (hl : Lays R 1 0 last) : Lays (P ∧ Q ∧ R) 0 0 (do
      let test ← node d test
      line ("if (" ++ inCode test ++ ") \x7b")
      deeper
      statements d body
      shallower
      arms d as
      last) := by
  refine Lays.of_test hd ht fun t htame => ?_
  exact hb.block (fun level => laidOut_header level "if (" false htame (by decide))
    (ha.bind fun _ => hl)

theorem lays_of_isStart {n : Node} (h : n.IsStart .lexed) : Lays (IsSupplied n) 0 0 (node d n) := by
  obtain ⟨text, htame, hbegins, hwrites⟩ := exists_startText hd h
  exact (lays_of_writesFlat hwrites htame hbegins).congr
    (iff_of_true trivial (isSupplied_of_isStart h))

/-- Writing a statement lays out its lines. -/
theorem lays_of_isStatement {n : Node} (h : n.IsStatement .lexed) :
    Lays (IsSupplied n) 0 0 (node d n) := by
  induction h with
  | declaration h => exact lays_of_isStart hd (.declaration h)
  | assignment hx _ he => exact lays_of_isStart hd (.assignment (.intro hx he))
  | creation hw hx hy =>
    obtain ⟨w, rfl, hw⟩ := hw
    refine Lays.congr (Lays.of_expr hd hx fun x' hx' => Lays.of_expr hd hy fun y' hy' => ?_)
      (iff_of_true trivial (isSupplied_creation hx hy))
    have hl : Tame "Cursor* " ∧ Tame " = create_cursor(" ∧ Tame ", " ∧ Tame ");" := by decide
    refine @lays_of_writesFlat _ _ none
      ("Cursor* " ++ w ++ " = create_cursor(" ++ x' ++ ", " ++ y' ++ ");")
      (fun p => bind_of_ok (writesFlat_line _ p)) ?_ ?_
    · simp only [tame_append, tame_of_plain (plain_of_isName hw), hx', hy', hl, and_self]
    · simp only [String.append_assoc]
      exact Begins.append (by decide) _
  | change hw _ hm hns =>
    obtain ⟨w, rfl, hw⟩ := hw
    obtain ⟨m, hm, rfl⟩ := hm
    rw [isSupplied_change_iff hns]
    exact .of_arguments hd hns fun texts hlength ht => hlength ▸ lays_method hw ht hm
  | draw hw _ hm hns =>
    obtain ⟨w, rfl, hw⟩ := hw
    obtain ⟨m, hm, rfl⟩ := hm
    rw [isSupplied_draw_iff hns]
    exact .of_arguments hd hns fun texts hlength ht => hlength ▸ lays_shape hw ht hm
  | @branch test body as otherwise ht _ hts _ _ ihb ihbs iho =>
    rw [isSupplied_branch_iff ht hts]
    have hb := lays_statements ihb
    have ha := lays_arms hd hts ihbs
    have hnone : Lays (∀ n ∈ ([] : List Node), IsSupplied n) 1 0
        (do line "\x7d"; return (none : Option String)) := (lays_brace none).congr (by simp)
    rcases otherwise with _ | _ | ⟨m, ms⟩
    · exact lays_branch hd ht hb ha hnone
    · exact lays_branch hd ht hb ha hnone
    · refine lays_branch hd ht hb ha (R := ∀ n ∈ m :: ms, IsSupplied n) ?_
      exact ((lays_statements (iho _ rfl)).block (fun level => laidOut_line level true true
        (by decide) (by decide) (by decide) (by decide) (by decide)) (lays_brace none)).congr
          (and_iff_left trivial)
  | whileLoop ht _ ihb => exact (lays_whileLoop hd ht ihb).congr (isSupplied_whileLoop_iff ht).symm
  | forLoop hi ht hu _ ihb =>
    exact (lays_forLoop hd hi ht hu ihb).congr (isSupplied_forLoop_iff hi ht hu).symm

end

theorem supplied_isSupplied : Supplied IsSupplied where
  body_of_branch h n hn := (isSupplied_iff.mp h).2 (.statement, n) (by simp [children, hn])
  arms_of_branch h arm harm n hn := by
    refine (isSupplied_iff.mp h).2 (.statement, n) ?_
    simp only [children, List.mem_append, List.mem_flatMap]
    exact .inl (.inr ⟨arm, harm, .tail _ (List.mem_map_of_mem hn)⟩)
  otherwise_of_branch h block hblock n hn := by
    obtain rfl := Option.mem_def.mp hblock
    exact (isSupplied_iff.mp h).2 (.statement, n) (by simp [children, hn])
  body_of_whileLoop h n hn := (isSupplied_iff.mp h).2 (.statement, n) (by simp [children, hn])
  body_of_forLoop h n hn := (isSupplied_iff.mp h).2 (.statement, n) (by simp [children, hn])
  enough_of_change h _ hk := (isSupplied_iff.mp h).1 _ hk
  enough_of_draw h _ hk := (isSupplied_iff.mp h).1 _ hk

/-- A program for which there is code is translated. -/
theorem exists_translatesAll_of_code {text : String} (hns : ∀ n ∈ ns, n.IsStatement .lexed)
    (h : (Node.program ns).code .standard = .ok text) :
    ∃ body, TranslatesAll ns body ∧ text = programText body := by
  have hlays := lays_statements fun n hn => lays_of_isStatement tidy_standard (hns n hn)
  obtain ⟨q, -, -, -, -, -, ⟨hsupplied, -⟩ | ⟨-, -, herror⟩⟩ :=
    hlays ⟨openingLines, 1, 0, some []⟩ rfl
  · obtain ⟨body, hbody⟩ := exists_translatesAll fun n hn =>
      exists_translates supplied_isSupplied (hns n hn) (hsupplied n hn)
    rw [code_of_translates hbody, Except.ok.injEq] at h
    exact ⟨body, hbody, h.symm⟩
  · have hp : Emit.program .standard (.program ns) Page.blank = .error .tooFewParts q := by
      change (statements .standard ns >>= _) ⟨openingLines, 1, 0, some []⟩ = _
      exact bind_of_error herror
    rw [Node.code, hp] at h
    cases h

/-- Writing a part of a program that is not an operand lays out its lines. -/
theorem lays_of_part {d : Dialect} (hd : Tidy d) {tokens : List Token} (hl : Token.Lexed tokens)
    {tree n : Node} (ht : Node.ofTokens tokens = .ok tree) {place : Place} (hn : tree.Part place n)
    (hplace : place ≠ .operand) : Lays (IsSupplied n) 0 0 (node d n) := by
  obtain ⟨ns, rfl, hns⟩ := isStatement_of_lexed hl ht
  have hform := hn.formIn Vocabulary.isCoarse_lexed hns
  cases place with
  | statement => exact lays_of_isStatement hd hform
  | header => exact lays_of_isStart hd hform
  | operand => exact absurd rfl hplace

/-- Writing any statement of a program adds lines to the page that are laid out, whatever the level
of the page is. Where all calls have their arguments the writing succeeds, all its braces are closed
and the page is at its old level; otherwise it stops for want of arguments, and the page is as much
deeper as there are braces left open. -/
theorem statement_keeps_layout {d : Dialect} (hd : Tidy d) {tokens : List Token}
    (hl : Token.Lexed tokens) {tree n : Node} (ht : Node.ofTokens tokens = .ok tree) {place : Place}
    (hn : tree.Part place n) (hplace : place ≠ .operand) {p : Page} {cursors : List String}
    (hp : p.shown = some cursors) :
    ∃ (q : Page) (added : List String) (left : ℕ),
      q.lines = p.lines ++ added ∧ LaidOut p.indent 0 left added ∧ q.indent = p.indent + left ∧
        ((IsSupplied n ∧ left = 0 ∧ ∃ a, node d n p = .ok a q) ∨
          (¬IsSupplied n ∧ node d n p = .error .tooFewParts q)) := by
  obtain ⟨q, added, left, hlines, hlaid, -, hend⟩ :=
    lays_of_part hd hl ht hn hplace p (by simp [hp])
  refine ⟨q, added, left, hlines, hlaid, ?_⟩
  rcases hend with ⟨hready, rfl, hq, hok⟩ | ⟨hready, hq, herror⟩
  · exact ⟨hq, .inl ⟨hready, rfl, hok⟩⟩
  · exact ⟨hq, .inr ⟨hready, herror⟩⟩

/-- Two calls in a loop, one of them without its argument, on a page one level deep. The first call
is laid out whole, and the loop up to the call that stops it. -/
theorem statement_keeps_layout_stopped :
    let words : List (Kind × Value) := [(.whileWord, "while"), (.leftParen, "("),
      (.boolValue, "true"), (.rightParen, ")"), (.leftBrace, "\x7b"), (.identifier, "c"),
      (.dot, "."),
      (.move, "move"), (.leftParen, "("), (.number, .int 3), (.rightParen, ")"), (.semicolon, ";"),
      (.identifier, "c"), (.dot, "."), (.move, "move"), (.leftParen, "("), (.rightParen, ")"),
      (.semicolon, ";"), (.rightBrace, "\x7d"), (.semicolon, ";"), (.endOfInput, .absent)]
    let tokens : List Token := words.map fun e => ⟨e.1, e.2, 1, 1⟩
    let first : Node := .cursorMethod "c" "move" [.number (.int 3)]
    let loop : Node := .whileLoop (.truth "true") [first, .cursorMethod "c" "move" []]
    let p : Page := ⟨["\x7b"], 1, 0, some []⟩
    Token.Lexed tokens ∧ Node.ofTokens tokens = .ok (.program [loop]) ∧
      node .standard first p = .ok none ⟨["\x7b", "    move_cursor(c, 3);"], 1, 0, some []⟩ ∧
      LaidOut 1 0 0 ["    move_cursor(c, 3);"] ∧
      node .standard loop p = .error .tooFewParts
        ⟨["\x7b", "    while (true) \x7b", "        move_cursor(c, 3);"], 2, 0, some []⟩ ∧
      LaidOut 1 0 1 ["    while (true) \x7b", "        move_cursor(c, 3);"] := by
  intro words tokens first loop p
  have hc : IsName "c" := ⟨⟨'c', [], rfl, by decide, by simp⟩, rfl⟩
  have hl : Token.Lexed tokens := by
    refine ⟨tokens.dropLast, ⟨.endOfInput, .absent, 1, 1⟩, rfl, rfl, ?_⟩
    simp only [tokens, words, List.map, List.dropLast, List.forall_mem_cons, List.not_mem_nil,
      false_implies, implies_true, and_true]
    exact ⟨.keyword (by decide), .sign rfl, .keyword (by decide), .sign rfl, .sign rfl,
      .name hc, .sign rfl, .keyword (by decide), .sign rfl, .integer 3, .sign rfl,
      .sign rfl, .name hc, .sign rfl, .keyword (by decide), .sign rfl, .sign rfl,
      .sign rfl, .sign rfl, .sign rfl⟩
  have ht : Node.ofTokens tokens = .ok (.program [loop]) := rfl
  have hloop : (Node.program [loop]).Part .statement loop := .child (by simp [children])
  have hfirst : (Node.program [loop]).Part .statement first :=
    .deeper hloop (by simp [loop, children])
  have hruns : node .standard first p =
    .ok none ⟨["\x7b", "    move_cursor(c, 3);"], 1, 0, some []⟩ := rfl
  have hstops : node .standard loop p = .error .tooFewParts
    ⟨["\x7b", "    while (true) \x7b", "        move_cursor(c, 3);"], 2, 0, some []⟩ := rfl
  refine ⟨hl, ht, hruns, ?_, hstops, ?_⟩
  · obtain ⟨q, added, left, hlines, hlaid, -, hend⟩ :=
      statement_keeps_layout tidy_standard hl ht hfirst (by simp) (p := p) rfl
    rcases hend with ⟨-, rfl, a, h⟩ | ⟨-, h⟩ <;> rw [hruns] at h <;> cases h
    obtain rfl := (List.cons.inj hlines).2
    exact hlaid
  · obtain ⟨q, added, left, hlines, hlaid, hindent, hend⟩ :=
      statement_keeps_layout tidy_standard hl ht hloop (by simp) (p := p) rfl
    rcases hend with ⟨-, -, a, h⟩ | ⟨-, h⟩ <;> rw [hstops] at h <;> cases h
    obtain rfl := (List.cons.inj hlines).2
    obtain rfl : left = 1 := by
      change 2 = 1 + left at hindent
      omega
    exact hlaid

/-- Statements whose writing does not keep the layout: a block with a call that lacks its argument,
which stays open; types that are spelled with a line feed or begin with a blank; and a name with a
line feed, which tokens can hold that come from no text. -/
theorem layout_can_break :
    let token (e : Kind × Value) : Token := ⟨e.1, e.2, 1, 1⟩
    let lacking : List (Kind × Value) := [(.ifWord, "if"), (.leftParen, "("), (.boolValue, "true"),
      (.rightParen, ")"), (.leftBrace, "\x7b"), (.identifier, "c"), (.dot, "."), (.move, "move"),
      (.leftParen, "("), (.rightParen, ")"), (.semicolon, ";"), (.rightBrace, "\x7d"),
      (.semicolon, ";"), (.endOfInput, .absent)]
    let feeding : List (Kind × Value) := [(.identifier, "a\nb"), (.assign, "="), (.number, .int 0),
      (.semicolon, ";"), (.endOfInput, .absent)]
    let block : Node := .branch (.truth "true") [.cursorMethod "c" "move" []] [] none
    let declaration : Node := .varDecl (some .int) "x" (.number (.int 0))
    let spelling (text : String) : Dialect :=
      { Dialect.standard with types := [(Kind.int.label, text)] }
    let p : Page := ⟨[], 0, 0, some []⟩
    Node.ofTokens (lacking.map token) = .ok (.program [block]) ∧
      node .standard block p = .error .tooFewParts ⟨["if (true) \x7b"], 1, 0, some []⟩ ∧
      node (spelling "int\n") declaration p = .ok none ⟨["int\n x = 0;"], 0, 0, some []⟩ ∧
      node (spelling " int") declaration p = .ok none ⟨[" int x = 0;"], 0, 0, some []⟩ ∧
      Node.ofTokens (feeding.map token) =
        .ok (.program [.assign "a\nb" (.number (.int 0))]) ∧
      node .standard (.assign "a\nb" (.number (.int 0))) p =
        .ok none ⟨["a\nb = 0;"], 0, 0, some []⟩ ∧
      ¬LaidOut 0 0 0 ["if (true) \x7b"] ∧ ¬LaidOut 0 0 0 ["int\n x = 0;"] ∧
      ¬LaidOut 0 0 0 [" int x = 0;"] ∧ ¬LaidOut 0 0 0 ["a\nb = 0;"] := by
  refine ⟨rfl, rfl, rfl, rfl, rfl, rfl, ?_, ?_, ?_, ?_⟩
  · intro h
    exact absurd h.left (by decide)
  · intro h
    exact h.feedless _ List.mem_cons_self (by decide)
  · intro h
    exact absurd (h.indented 0 _ rfl) (by decide)
  · intro h
    exact h.feedless _ List.mem_cons_self (by decide)

end Target

end DrawPlus
