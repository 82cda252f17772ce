import Mathlib
import DrawPlus.Disk.Basic

/-!
# What making directories and writing a file leave alone

`fileAt?` is the view of a disk that the results are stated in: the file at a place, if there is
one. Making directories changes no file, whether it succeeds or not, and it succeeds exactly when
nothing is in the way (`Clear`). Writing a file changes the file at one place, and a path that could
be opened for writing then leads to what was written (`Wrote`): all of it, or the beginning for
which there was room (`Stopped`).

`AgreeOutside` compares two disks: they have the same directories, and they differ at the given
places only. A path that leads to a file elsewhere then leads to the same file on both.
-/

namespace DrawPlus.Disk

variable {target : String} {content : Content}

variable {d d' d'' made : Disk} {path other here : Path} {names : List String}

def fileAt? (d : Disk) (path : Path) : Option Content :=
  match d.entry? path with
  | some (.file content) => some content
  | _ => none

/-! ## Putting something at a place -/

theorem entry?_put_of_ne (h : other ≠ path) (entry : Entry) :
    entry? (d.put path entry) other = d.entry? other := by
  have hlast : List.lookup other [(path, entry)] = none := by
    rw [List.lookup_cons, beq_eq_false_iff_ne.mpr h, List.lookup_nil]
  unfold put entry?
  rw [List.lookup_append, Table.lookup_erase_of_ne h, hlast, Option.or_none]

theorem entry?_put_self (h : path.isGiven = false) (entry : Entry) :
    entry? (d.put path entry) path = some entry := by
  unfold put entry?
  rw [List.lookup_append, Table.lookup_erase_self, h]
  simp

theorem entry?_erase_of_ne (h : other ≠ path) : entry? (d.erase path) other = d.entry? other := by
  unfold erase entry?
  rw [Table.lookup_erase_of_ne h]

theorem entry?_erase_self (h : path.isGiven = false) : entry? (d.erase path) path = none := by
  unfold erase entry?
  rw [Table.lookup_erase_self, h]
  rfl

theorem isGiven_eq_false (h : d.entry? path ≠ some .directory) : path.isGiven = false := by
  by_contra hgiven
  apply h
  unfold entry?
  rw [if_pos (by simpa using hgiven)]

theorem fileAt?_eq_some : d.fileAt? path = some content ↔ d.entry? path = some (.file content) := by
  unfold fileAt?
  rcases d.entry? path with - | - | held <;> simp

theorem fileAt?_of_entry? (h : d.entry? path = none) : d.fileAt? path = none := by
  rw [fileAt?, h]

theorem fileAt?_put_of_ne (h : other ≠ path) (entry : Entry) :
    (d.put path entry).fileAt? other = d.fileAt? other := by
  rw [fileAt?, fileAt?, entry?_put_of_ne h]

theorem fileAt?_put_directory (h : d.entry? path = none) (other : Path) :
    (d.put path .directory).fileAt? other = d.fileAt? other := by
  by_cases hother : other = path
  · have hgiven := @isGiven_eq_false d path (by simp [h])
    rw [hother, fileAt?, fileAt?, entry?_put_self hgiven, h]
  · exact fileAt?_put_of_ne hother _

/-! ## Making directories -/

theorem look_eq_ok {entry : Option Entry} :
    d.look path = .ok entry ↔ path.endsTooLong = false ∧ d.entry? path = entry := by
  unfold look
  split <;> simp_all

/-- Making a directory and those below it goes on after a directory that is there or that can be
made, and fails at once at anything else. -/
theorem makeBelow_cons (name : String) :
    (∃ e, makeBelow here (name :: names) d = .error e d) ∧
      (Path.isMalformed name = true ∨ Path.endsTooLong (here ++ [name]) = true ∨
        d.fileAt? (here ++ [name]) ≠ none) ∨
    ∃ d', makeBelow here (name :: names) d = makeBelow (here ++ [name]) names d' ∧
      d'.room = d.room ∧ (∀ path, d'.fileAt? path = d.fileAt? path) ∧
      Path.isMalformed name = false ∧ Path.endsTooLong (here ++ [name]) = false ∧
      d.fileAt? (here ++ [name]) = none := by
  rw [makeBelow.eq_def]
  dsimp only
  cases hmalformed : Path.isMalformed name with
  | true => exact .inl ⟨⟨_, rfl⟩, .inl rfl⟩
  | false =>
    cases hlook : d.look (here ++ [name]) with
    | error fault =>
      refine .inl ⟨⟨_, rfl⟩, .inr (.inl ?_)⟩
      by_contra hshort
      rw [look, if_neg hshort] at hlook
      cases hlook
    | ok entry =>
      obtain ⟨hshort, hentry⟩ := look_eq_ok.mp hlook
      rcases entry with - | - | content
      · refine .inr ⟨d.put (here ++ [name]) .directory, rfl, rfl, ?_, rfl, hshort, ?_⟩
        · exact fileAt?_put_directory hentry
        · exact fileAt?_of_entry? hentry
      · exact .inr ⟨d, rfl, rfl, fun _ => rfl, rfl, hshort, by rw [fileAt?, hentry]⟩
      · refine .inl ⟨?_, .inr (.inr ?_)⟩
        · cases names <;> exact ⟨_, rfl⟩
        · rw [fileAt?_eq_some.mpr hentry]
          simp

/-- The directories that are made change no file, also when not all of them can be made, and take no
room away. -/
theorem fileAt?_makeBelow (names : List String) (here : Path) (d made : Disk)
    (h : makeBelow here names d = .ok () made ∨ ∃ e, makeBelow here names d = .error e made) :
    made.room = d.room ∧ ∀ path, made.fileAt? path = d.fileAt? path := by
  induction names generalizing here d with
  | nil =>
    rcases h with h | ⟨e, h⟩ <;> cases h
    exact ⟨rfl, fun _ => rfl⟩
  | cons name rest ih =>
    rcases @makeBelow_cons d here rest name with
      ⟨⟨e, he⟩, -⟩ | ⟨d', hd', hroom, hfiles, -⟩
    · rw [he] at h
      rcases h with h | ⟨e', h⟩ <;> cases h
      exact ⟨rfl, fun _ => rfl⟩
    · rw [hd'] at h
      obtain ⟨hroom', hfiles'⟩ := ih _ _ h
      exact ⟨hroom'.trans hroom, fun path => (hfiles' path).trans (hfiles path)⟩

/-- A directory can stand under the name at this place: the name is one that files can have, and no
file has it. -/
structure Passable (d : Disk) (place : Path) (name : String) : Prop where
  formed : Path.isMalformed name = false
  short : name.utf8ByteSize ≤ Path.nameLimit
  noFile : d.fileAt? (place ++ [name]) = none

/-- Directories can stand at all places from `here` along the names. -/
def Clear (d : Disk) (here : Path) (names : List String) : Prop :=
  ∀ before name, before ++ [name] <+: names → d.Passable (here ++ before) name

theorem clear_nil : d.Clear here [] := by
  intro before name h
  simp at h

theorem clear_cons {name : String} : d.Clear here (name :: names) ↔
    d.Passable here name ∧ d.Clear (here ++ [name]) names := by
  constructor
  · intro h
    refine ⟨by simpa using h [] name (by simp), ?_⟩
    intro before other hpre
    simpa using h (name :: before) other (by simpa using hpre)
  · rintro ⟨hfirst, hrest⟩ before other hpre
    cases before with
    | nil =>
      obtain rfl : other = name := by simpa using hpre
      simpa using hfirst
    | cons first before =>
      rw [List.cons_append, List.cons_prefix_cons] at hpre
      obtain ⟨rfl, hpre⟩ := hpre
      simpa using hrest before other hpre

theorem clear_congr {d' : Disk} (h : ∀ path, d'.fileAt? path = d.fileAt? path) :
    d'.Clear here names ↔ d.Clear here names := by
  constructor
  · intro hc before name hpre
    obtain ⟨hm, hs, hf⟩ := hc before name hpre
    exact ⟨hm, hs, h _ ▸ hf⟩
  · intro hc before name hpre
    obtain ⟨hm, hs, hf⟩ := hc before name hpre
    exact ⟨hm, hs, (h _).trans hf⟩

theorem endsTooLong_concat (place : Path) (name : String) :
    Path.endsTooLong (place ++ [name]) = false ↔ name.utf8ByteSize ≤ Path.nameLimit := by
  simp [Path.endsTooLong]

/-- Directories are made exactly when nothing is in their way. -/
theorem makeBelow_eq_ok_iff (names : List String) (here : Path) (d : Disk) :
    (∃ made, makeBelow here names d = .ok () made) ↔ d.Clear here names := by
  induction names generalizing here d with
  | nil => exact iff_of_true ⟨d, rfl⟩ clear_nil
  | cons name rest ih =>
    rw [clear_cons]
    rcases @makeBelow_cons d here rest name with
      ⟨⟨e, he⟩, hfault⟩ | ⟨d', hd', -, hfiles, hformed, hshort, hfile⟩
    · rw [he]
      refine iff_of_false (by simp) ?_
      rintro ⟨⟨hformed, hshort, hfile⟩, -⟩
      rcases hfault with hfault | hfault | hfault
      · exact absurd (hformed.symm.trans hfault) (by decide)
      · exact absurd (((endsTooLong_concat here name).mpr hshort).symm.trans hfault) (by decide)
      · exact hfault hfile
    · rw [hd', ih, clear_congr hfiles, and_iff_right]
      exact ⟨hformed, (endsTooLong_concat here name).mp hshort, hfile⟩

/-! ## Disks that differ at some places -/

/-- The disks have the same directories and the same entries everywhere but at these places. -/
structure AgreeOutside (places : List Path) (d d' : Disk) : Prop where
  home : d'.home = d.home
  outside : ∀ path, path ∉ places → d'.entry? path = d.entry? path
  directory : ∀ path, d'.entry? path = some .directory ↔ d.entry? path = some .directory

namespace AgreeOutside

variable {places more : List Path}

theorem refl (places : List Path) (d : Disk) : AgreeOutside places d d :=
  ⟨rfl, fun _ _ => rfl, fun _ => Iff.rfl⟩

theorem trans (h : AgreeOutside places d d') (h' : AgreeOutside places d' d'') :
    AgreeOutside places d d'' where
  home := h'.home.trans h.home
  outside path hpath := (h'.outside path hpath).trans (h.outside path hpath)
  directory path := (h'.directory path).trans (h.directory path)

theorem mono (h : AgreeOutside places d d') (hsub : places ⊆ more) : AgreeOutside more d d' where
  home := h.home
  outside path hpath := h.outside path fun hmem => hpath (hsub hmem)
  directory := h.directory

theorem fileAt? (h : AgreeOutside places d d') (hpath : path ∉ places) :
    d'.fileAt? path = d.fileAt? path := by
  rw [Disk.fileAt?, Disk.fileAt?, h.outside path hpath]

/-- A path goes through directories, which are the same on both disks. -/
theorem follow (h : AgreeOutside places d d') (names : List String) (here : Path) {place : Place}
    (hplace : d.follow here names = .ok place) : d'.follow here names = .ok place := by
  induction names generalizing here with
  | nil => exact hplace
  | cons name rest ih =>
    rw [Disk.follow] at hplace ⊢
    split_ifs at hplace ⊢
    · exact ih _ hplace
    · exact ih _ hplace
    · exact hplace
    · cases hlook : d.look (here ++ [name]) with
      | error fault =>
        rw [hlook] at hplace
        cases hplace
      | ok entry =>
        obtain ⟨hshort, hentry⟩ := look_eq_ok.mp hlook
        rw [hlook] at hplace
        rcases entry with - | - | content
        · cases hplace
        · rw [look_eq_ok.mpr ⟨hshort, (h.directory _).mpr hentry⟩]
          exact ih _ hplace
        · cases hplace

theorem locate (h : AgreeOutside places d d') {text : String} {place : Place}
    (hplace : d.locate text = .ok place) : d'.locate text = .ok place := by
  unfold Disk.locate route at hplace ⊢
  rw [h.home]
  split_ifs at hplace ⊢ <;> exact h.follow _ _ hplace

/-- What a path leads to is the same on both disks, unless it is one of the places. -/
theorem contentOf (h : AgreeOutside places d d') {text : String} {content : Content}
    (hcontent : d.contentOf text = .ok content) :
    ∃ path, d.locate text = .ok ⟨path, false⟩ ∧ d.fileAt? path = some content ∧
      (path ∉ places → d'.contentOf text = .ok content) := by
  unfold Disk.contentOf find at hcontent ⊢
  simp only [bind, Except.bind] at hcontent ⊢
  cases hplace : d.locate text with
  | error fault => simp [hplace] at hcontent
  | ok place =>
    cases hlook : d.look place.path with
    | error fault => simp [hplace, hlook] at hcontent
    | ok entry =>
      obtain ⟨hshort, hentry⟩ := look_eq_ok.mp hlook
      rcases entry with - | - | held
      · simp [hplace, hlook] at hcontent
      · simp [hplace, hlook] at hcontent
      · cases hslash : place.endsInSlash with
        | true => simp [hplace, hlook, hslash] at hcontent
        | false =>
          obtain rfl : held = content := by simpa [hplace, hlook, hslash] using hcontent
          refine ⟨place.path, by rw [← hslash], fileAt?_eq_some.mpr hentry, fun houtside => ?_⟩
          have hlook' := look_eq_ok.mpr ⟨hshort, (h.outside _ houtside).trans hentry⟩
          simp [h.locate hplace, hlook', hslash]

end AgreeOutside

theorem agreeOutside_put (h : d.entry? path ≠ some .directory) (content : Content) :
    AgreeOutside [path] d (d.put path (.file content)) where
  home := rfl
  outside other hother := entry?_put_of_ne (by simpa using hother) _
  directory other := by
    by_cases hother : other = path
    · rw [hother, entry?_put_self (isGiven_eq_false h)]
      simp [h]
    · have hsame := @entry?_put_of_ne d path other hother (.file content)
      rw [hsame]

theorem agreeOutside_erase (h : d.entry? path ≠ some .directory) :
    AgreeOutside [path] d (d.erase path) where
  home := rfl
  outside other hother := entry?_erase_of_ne (by simpa using hother)
  directory other := by
    by_cases hother : other = path
    · rw [hother, entry?_erase_self (isGiven_eq_false h)]
      simp [h]
    · have hsame := @entry?_erase_of_ne d path other hother
      rw [hsame]

/-! ## Writing a file -/

/-- A path that can be opened for writing leads to a place without a directory. -/
theorem locate_of_writable {text : String} (h : d.writable text = .ok path) :
    d.locate text = .ok ⟨path, false⟩ ∧ path.endsTooLong = false ∧
      d.entry? path ≠ some .directory := by
  unfold writable at h
  simp only [bind, Except.bind] at h
  cases hplace : d.locate text with
  | error fault =>
    rw [hplace] at h
    cases h
  | ok place =>
    simp only [hplace] at h
    split_ifs at h with hslash
    cases hlook : d.look place.path with
    | error fault =>
      rw [hlook] at h
      cases h
    | ok entry =>
      simp only [hlook] at h
      obtain ⟨hshort, hentry⟩ := look_eq_ok.mp hlook
      split at h
      · cases h
      · cases h
        refine ⟨?_, hshort, ?_⟩
        · rw [← Bool.eq_false_iff.mpr hslash]
        · rw [hentry]
          assumption

/-- A file can be written under the path text: nothing is in the way of the directories above it,
and once they are there it can be opened. -/
structure Accepts (d : Disk) (target : String) : Prop where
  clear : d.Clear [] (d.absolute target).dropLast
  opens : ∀ made, makeDirectories (d.absolute target).dropLast d = .ok () made →
    ∃ path, made.writable target = .ok path

theorem Accepts.exists_writable (h : d.Accepts target) : ∃ made path,
    makeDirectories (d.absolute target).dropLast d = .ok () made ∧
      made.writable target = .ok path := by
  obtain ⟨made, hmade⟩ := (makeBelow_eq_ok_iff _ _ _).mpr h.clear
  obtain ⟨path, hpath⟩ := h.opens made hmade
  exact ⟨made, path, hmade, hpath⟩

theorem accepts_of_writable {target : String}
    (hmade : makeDirectories (d.absolute target).dropLast d = .ok () made)
    (h : made.writable target = .ok path) : d.Accepts target := by
  refine ⟨(makeBelow_eq_ok_iff _ _ _).mp ⟨made, hmade⟩, fun made' hmade' => ⟨path, ?_⟩⟩
  cases hmade.symm.trans hmade'
  exact h

/-- There is room for all of the text in the file that is written under the path text. -/
def Takes (d : Disk) (target text : String) : Prop :=
  ∀ made path, makeDirectories (d.absolute target).dropLast d = .ok () made →
    made.writable target = .ok path → d.cut? path (.text text) = none

/-- Between the two disks a content was written to the file that the path text names, and no other
file was changed. -/
structure Wrote (before after : Disk) (target : String) (content : Content) (path : Path) :
    Prop where
  leads : after.locate target = .ok ⟨path, false⟩
  holds : after.contentOf target = .ok content
  file : after.fileAt? path = some content
  others : ∀ other, other ≠ path → after.fileAt? other = before.fileAt? other

/-- Between the two disks a write was begun that came to the end of the room: the file has the
beginning of the content, and no other file was changed. -/
def Stopped (before after : Disk) (target : String) (content : Content) (path : Path) : Prop :=
  ∃ beginning, before.cut? path content = some beginning ∧ before.Wrote after target beginning path

theorem wrote_put (h : d.writable target = .ok path) (content : Content) :
    d.Wrote (d.put path (.file content)) target content path := by
  obtain ⟨hplace, hshort, hentry⟩ := locate_of_writable h
  have hput := @entry?_put_self d path (isGiven_eq_false hentry) (.file content)
  have hleads := (agreeOutside_put hentry content).locate hplace
  have hfind : (d.put path (.file content)).find target = .ok (.file content) := by
    simp only [find, hleads, look_eq_ok.mpr ⟨hshort, hput⟩, bind, Except.bind]
    rfl
  exact ⟨hleads, by rw [contentOf, hfind], by rw [fileAt?, hput],
    fun other hother => fileAt?_put_of_ne hother _⟩

/-- Directories that were made before do not count. -/
theorem Wrote.of_same (h : made.Wrote d' target content path)
    (hfiles : ∀ path, made.fileAt? path = d.fileAt? path) : d.Wrote d' target content path :=
  ⟨h.leads, h.holds, h.file, fun other hother => (h.others other hother).trans (hfiles other)⟩

theorem write_refused {target : String} {fault : FileFault} (h : d.writable target = .error fault)
    (content : Content) : write target content d = .error ⟨fault, target⟩ d := by
  simp only [write, h]

theorem write_done (h : d.writable target = .ok path) (hcut : d.cut? path content = none) :
    write target content d = .ok () (d.put path (.file content)) := by
  simp only [write, h, hcut]

theorem write_stopped {beginning : Content} (h : d.writable target = .ok path)
    (hcut : d.cut? path content = some beginning) :
    write target content d = .error ⟨.noSpace, target⟩ (d.put path (.file beginning)) := by
  simp only [write, h, hcut]

/-- What is left of a text that does not fit are its first bytes, fewer than it has. -/
theorem cut?_text_eq_some {text : String} {beginning : Content}
    (h : d.cut? path (.text text) = some beginning) : ∃ room, d.room.lookup path = some room ∧
      room < text.toUTF8.size ∧ beginning = .bytes (text.toUTF8.data.toList.take room) := by
  obtain ⟨room, hroom, hcut⟩ := Option.bind_eq_some_iff.mp h
  simp only [Content.cut?, Content.bytes?] at hcut
  split_ifs at hcut with hfits
  refine ⟨room, hroom, ?_, (Option.some.inj hcut).symm⟩
  rw [ByteArray.size, ← Array.length_toList]
  omega

end DrawPlus.Disk

namespace DrawPlus

/-- The extension of a name is taken off, unless nothing but points stands before it in the name. -/
theorem withoutExtension_append (stem : String) {extension : List Char}
    (hslash : '/' ∉ extension) (hpoint : '.' ∉ extension) :
    withoutExtension (stem ++ String.ofList ('.' :: extension)) =
      if (baseName stem).toList.any (· != '.') then stem
      else stem ++ String.ofList ('.' :: extension) := by
  have hreversed : (stem ++ String.ofList ('.' :: extension)).toList.reverse =
      extension.reverse ++ '.' :: stem.toList.reverse := by simp
  have hname : (extension.reverse ++ '.' :: stem.toList.reverse).takeWhile (· != '/') =
      extension.reverse ++ '.' :: stem.toList.reverse.takeWhile (· != '/') := by
    rw [List.takeWhile_append_of_pos]
    · simp
    · intro c hc
      have hne : c ≠ '/' := fun h => hslash (h ▸ List.mem_reverse.mp hc)
      simpa using hne
  have hstem (rest : List Char) : ((extension.reverse ++ '.' :: rest).dropWhile (· != '.')).drop 1 =
      rest := by
    rw [List.dropWhile_append_of_pos]
    · simp
    · intro c hc
      have hne : c ≠ '.' := fun h => hpoint (h ▸ List.mem_reverse.mp hc)
      simpa using hne
  have hbase : (baseName stem).toList.any (· != '.') =
      (stem.toList.reverse.takeWhile (· != '/')).any (· != '.') := by
    rw [baseName, String.toList_ofList, List.any_reverse]
  rw [withoutExtension, hreversed, hname, hstem, hbase]
  have hcontains (rest : List Char) :
      (extension.reverse ++ '.' :: rest).contains '.' = true := by simp
  rw [hcontains, Bool.true_and]
  split_ifs with hany
  · -- what precedes the last component stands behind it in the reversed text
    have hcut : extension.reverse ++ '.' :: stem.toList.reverse =
        (extension.reverse ++ '.' :: stem.toList.reverse.takeWhile (· != '/')) ++
          stem.toList.reverse.dropWhile (· != '/') := by
      rw [List.append_assoc, List.cons_append, List.takeWhile_append_dropWhile]
    nth_rewrite 1 [hcut]
    rw [List.drop_left, List.takeWhile_append_dropWhile, List.reverse_reverse, String.ofList_toList]
  · rfl

end DrawPlus
