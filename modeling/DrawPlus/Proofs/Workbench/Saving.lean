import DrawPlus.Proofs.Building.Files
import DrawPlus.Workbench.Command

/-!
# Saving and closing a tab

What saving the selected tab can do, said once: there may be no path to save to, the file may not
open, the room may end before all of the text is written, or the text is written to one file, which
becomes the tab's file. In the first two cases nothing that lasts is changed (`Untouched`), in the
third only the file, which is left with the beginning of the text (`Stopped`), and in the last only
what belongs to the tab and its file (`Saved`).

Closing a tab with a text asks whether to save it, and goes on after saving whatever became of it.
So the text of a closed tab is in a file exactly when it could be saved, unless some file held it
anyway and still does.
-/

namespace DrawPlus

/-! ## The bytes of a text -/

namespace Utf8

/-- What can follow the first byte of a character. The bounds keep out forms that are too long, the
surrogates, and what is beyond the last character. -/
theorem isSecond_iff {b c : UInt8} : isSecond b c = true ↔ (0x80 ≤ c.toNat ∧ c.toNat < 0xC0) ∧
    (b.toNat = 0xE0 → 0xA0 ≤ c.toNat) ∧ (b.toNat = 0xED → c.toNat < 0xA0) ∧
    (b.toNat = 0xF0 → 0x90 ≤ c.toNat) ∧ (b.toNat = 0xF4 → c.toNat < 0x90) := by
  simp [isSecond, isContinuation, imp_iff_not_or, and_assoc]

theorem utf8Size_ofNat {n : ℕ} (h : n.isValidChar) : (Char.ofNat n).utf8Size =
    if n ≤ 0x7F then 1 else if n ≤ 0x7FF then 2 else if n ≤ 0xFFFF then 3 else 4 := by
  have hval : (Char.ofNat n).val.toNat = n := (Char.toNat_ofNat n).trans (if_pos h)
  simp only [Char.utf8Size, UInt32.le_iff_toNat_le, hval]
  rfl

theorem utf8ByteSize_of_cons {x : Except Utf8Error (List Char)} {n size length : ℕ}
    {characters : List Char} (h : (do return Char.ofNat n :: (← x)) = Except.ok characters)
    (hx : ∀ {cs : List Char}, x = .ok cs → length = (String.ofList cs).utf8ByteSize)
    (hvalid : n.isValidChar)
    (hsize : (if n ≤ 0x7F then 1 else if n ≤ 0x7FF then 2 else if n ≤ 0xFFFF then 3 else 4) =
      size) :
    length + size = (String.ofList characters).utf8ByteSize := by
  cases x with
  | error e => cases h
  | ok cs =>
    cases h
    rw [hx rfl, String.utf8ByteSize_ofList, String.utf8ByteSize_ofList, String.utf8Len_cons,
      utf8Size_ofNat hvalid, hsize]

/-- A text takes as many bytes as it is read from. -/
theorem length_of_decodeFrom {position : ℕ} {bytes : List UInt8} {characters : List Char}
    (h : decodeFrom position bytes = .ok characters) :
    bytes.length = (String.ofList characters).utf8ByteSize := by
  fun_induction decodeFrom position bytes generalizing characters with
  | case1 =>
    cases h
    rfl
  | case2 _ b rest hb ih =>
    exact utf8ByteSize_of_cons h ih (.inl (by omega)) (if_pos (by omega))
  | case6 _ b hlow hstart c rest hsecond hb ih =>
    simp only [Bool.not_eq_true, Bool.not_eq_false', isSecond_iff, Bool.or_eq_false_iff,
      decide_eq_false_iff_not] at hstart hsecond
    change rest.length + 2 = _
    refine utf8ByteSize_of_cons h ih ?_ ?_ <;> unfold low
    · exact .inl (by omega)
    · rw [if_neg (by omega), if_pos (by omega)]
  | case9 _ b hlow hstart c hsecond hb d rest hthird hb' ih =>
    simp only [Bool.not_eq_true, Bool.not_eq_false', isSecond_iff, isContinuation,
      Bool.or_eq_false_iff, decide_eq_false_iff_not] at hstart hsecond hthird
    change rest.length + 3 = _
    refine utf8ByteSize_of_cons h ih ?_ ?_ <;> unfold low
    · unfold Nat.isValidChar
      omega
    · rw [if_neg (by omega), if_neg (by omega), if_pos (by omega)]
  | case12 _ b hlow hstart c hsecond hb d hthird hb' e rest hfourth ih =>
    simp only [Bool.not_eq_true, Bool.not_eq_false', isSecond_iff, isContinuation,
      Bool.or_eq_false_iff, decide_eq_false_iff_not] at hstart hsecond hthird hfourth
    change rest.length + 4 = _
    refine utf8ByteSize_of_cons h ih ?_ ?_ <;> unfold low
    · unfold Nat.isValidChar
      omega
    · rw [if_neg (by omega), if_neg (by omega), if_neg (by omega)]
  | _ => cases h

end Utf8

/-! ## The disk -/

namespace Disk

variable {d d' : Disk} {target text : String}

/-- A file that can be read can be written. -/
theorem exists_writable_of_contentOf {held : Content} (h : d.contentOf target = .ok held) :
    ∃ place, d.writable target = .ok place ∧ d.fileAt? place = some held := by
  unfold contentOf find at h
  simp only [bind, Except.bind] at h
  unfold writable fileAt?
  simp only [bind, Except.bind]
  cases hplace : d.locate target with
  | error fault => simp [hplace] at h
  | ok place =>
    cases hlook : d.look place.path with
    | error fault => simp [hplace, hlook] at h
    | ok entry =>
      rcases entry with - | - | content
      · simp [hplace, hlook] at h
      · simp [hplace, hlook] at h
      · cases hslash : place.endsInSlash with
        | true => simp [hplace, hlook, hslash] at h
        | false =>
          obtain rfl : content = held := by simpa [hplace, hlook, hslash] using h
          have hentry := (look_eq_ok.mp hlook).2
          exact ⟨place.path, by simp [hlook, hslash], by simp [hentry]⟩

theorem keeps_eq (d : Disk) (place : Path) (content : Content) :
    d.keeps place content = (d.fileAt? place).any (·.holdsSame content) := by
  unfold keeps fileAt?
  rcases d.entry? place with - | - | held <;> rfl

theorem keeps_of_fileAt? {place : Path} (h : d.fileAt? place = some (.text text)) :
    d.keeps place (.text text) = true := by
  rw [keeps_eq, h]
  simp [Content.holdsSame]

/-- A file that is left with the beginning of a text does not hold the text. -/
theorem not_keeps_of_cut {place : Path} {beginning : Content}
    (hcut : d.cut? place (.text text) = some beginning) (h : d'.fileAt? place = some beginning) :
    d'.keeps place (.text text) = false := by
  obtain ⟨room, -, hroom, rfl⟩ := cut?_text_eq_some hcut
  rw [keeps_eq, h, Option.any_some, Content.holdsSame]
  cases hdecoded : Utf8.decode (text.toUTF8.data.toList.take room) with
  | error e => rfl
  | ok characters =>
    have hlength := Utf8.length_of_decodeFrom hdecoded
    rw [List.length_take, min_eq_left (by simpa using hroom.le)] at hlength
    refine beq_eq_false_iff_ne.mpr fun hsame => ?_
    obtain rfl : characters = text.toList := Option.some.inj hsame
    rw [String.ofList_toList] at hlength
    exact absurd (hlength ▸ hroom) (lt_irrefl _)

/-- After a write that was stopped, the files with all of the text are those that had it before,
without the one that was written. -/
theorem Stopped.keeps_iff {place other : Path} (h : d.Stopped d' target (.text text) place) :
    d'.keeps other (.text text) = true ↔
      d.keeps other (.text text) = true ∧ other ≠ place := by
  obtain ⟨beginning, hcut, hwrote⟩ := h
  by_cases hother : other = place
  · rw [hother, not_keeps_of_cut hcut hwrote.file]
    simp
  · rw [keeps_eq, keeps_eq, hwrote.others other hother, and_iff_left hother]

theorem not_keeps_empty (home : String) (place : Path) (content : Content) :
    (empty home).keeps place content = false := by
  unfold keeps entry? empty
  split_ifs <;> rfl

end Disk

namespace Workbench

variable {w w' : Workbench} {tab : Tab}

/-! ## Saving -/

/-- What the user answers in the next dialog. -/
def nextReply (w : Workbench) : Reply := w.replies.headD .nothing

/-- Where saving the tab writes its text: to its own file, or to the one that the user chooses. -/
def target? (w : Workbench) (tab : Tab) : Option String :=
  (w.pathOf tab.id).or w.nextReply.path?

/-- The tab has a file or is given one, this file can be opened for writing, and there is room in it
for the text. -/
def CanSave (w : Workbench) (tab : Tab) : Prop :=
  ∃ path place, w.target? tab = some path ∧ w.host.disk.writable path = .ok place ∧
    w.host.disk.cut? place (.text tab.editor.text) = none

/-- The tab has a file or is given one, which is at this place and can be opened for writing, but
there is too little room in it for the text. -/
def StopsAt (w : Workbench) (tab : Tab) (place : Path) : Prop :=
  ∃ path beginning, w.target? tab = some path ∧ w.host.disk.writable path = .ok place ∧
    w.host.disk.cut? place (.text tab.editor.text) = some beginning

section

variable {path : String} {place : Path} (htarget : w.target? tab = some path)
  (hplace : w.host.disk.writable path = .ok place)

include htarget hplace

theorem canSave_iff :
    w.CanSave tab ↔ w.host.disk.cut? place (.text tab.editor.text) = none := by
  constructor
  · rintro ⟨path', place', hpath', hplace', hfits⟩
    cases htarget.symm.trans hpath'
    cases hplace.symm.trans hplace'
    exact hfits
  · exact fun hfits => ⟨path, place, htarget, hplace, hfits⟩

theorem stopsAt_iff {other : Path} : w.StopsAt tab other ↔
    other = place ∧ (w.host.disk.cut? place (.text tab.editor.text)).isSome := by
  constructor
  · rintro ⟨path', beginning, hpath', hplace', hcut⟩
    cases htarget.symm.trans hpath'
    cases hplace.symm.trans hplace'
    exact ⟨rfl, Option.isSome_iff_exists.mpr ⟨beginning, hcut⟩⟩
  · rintro ⟨rfl, hcut⟩
    obtain ⟨beginning, hcut⟩ := Option.isSome_iff_exists.mp hcut
    exact ⟨path, beginning, htarget, hplace, hcut⟩

end

theorem not_saves (h : ∀ path, w.target? tab = some path → ∀ place,
    w.host.disk.writable path ≠ .ok place) : ¬w.CanSave tab ∧ ∀ place, ¬w.StopsAt tab place := by
  constructor
  · rintro ⟨path, place, hpath, hplace, -⟩
    exact h path hpath place hplace
  · rintro place ⟨path, -, hpath, hplace, -⟩
    exact h path hpath place hplace

/-- The tabs and their files are the same. -/
structure SameRow (w w' : Workbench) : Prop where
  tabs : w'.tabs = w.tabs
  selected : w'.selected = w.selected
  paths : w'.paths = w.paths
  nextId : w'.nextId = w.nextId
  template : w'.template = w.template

/-- The tabs, their files and the disk are the same. -/
structure Untouched (w w' : Workbench) : Prop extends SameRow w w' where
  disk : w'.host.disk = w.host.disk

/-- The file was opened and has the beginning of the text of the tab. The other files, the tabs and
the table are the same. -/
structure Stopped (w w' : Workbench) (tab : Tab) (path : String) : Prop extends SameRow w w' where
  begun : ∃ place, w.host.disk.writable path = .ok place ∧
    w.host.disk.Stopped w'.host.disk path (.text tab.editor.text) place

/-- The text of the selected tab was written to one file, which is now the tab's file and gives the
tab its title. The other files, tabs and entries of the table are the same. -/
structure Saved (w w' : Workbench) (tab : Tab) (path : String) : Prop where
  wrote : ∃ place, w.host.disk.writable path = .ok place ∧
    w.host.disk.Wrote w'.host.disk path (.text tab.editor.text) place
  tabs : w'.tabs = w.tabs.modify w.selected fun t => { t with title := baseName path }
  selected : w'.selected = w.selected
  paths : w'.paths = Table.insert tab.id (some path) w.paths
  nextId : w'.nextId = w.nextId
  template : w'.template = w.template

theorem ask_eq (w : Workbench) (r : Request) : w.ask r = (w.nextReply, (w.ask r).2) := rfl

theorem untouched_ask (w : Workbench) (r : Request) : Untouched w (w.ask r).2 :=
  ⟨⟨rfl, rfl, rfl, rfl, rfl⟩, rfl⟩

theorem SameRow.trans {w'' : Workbench} (h : SameRow w w') (h' : SameRow w' w'') : SameRow w w'' :=
  ⟨h'.tabs.trans h.tabs, h'.selected.trans h.selected, h'.paths.trans h.paths,
    h'.nextId.trans h.nextId, h'.template.trans h.template⟩

theorem Untouched.trans {w'' : Workbench} (h : Untouched w w') (h' : Untouched w' w'') :
    Untouched w w'' :=
  ⟨h.toSameRow.trans h'.toSameRow, h'.disk.trans h.disk⟩

theorem Untouched.current?_eq (h : Untouched w w') : w'.current? = w.current? := by
  rw [current?, current?, h.tabs, h.selected]

theorem Untouched.stopped {w'' : Workbench} {path : String} (h : Untouched w w')
    (h' : Stopped w' w'' tab path) : Stopped w w'' tab path :=
  ⟨h.toSameRow.trans h'.toSameRow, h.disk ▸ h'.begun⟩

theorem Untouched.saved {w'' : Workbench} {path : String} (h : Untouched w w')
    (h' : Saved w' w'' tab path) : Saved w w'' tab path := by
  obtain ⟨hwrote, htabs, hselected, hpaths, hnext, htemplate⟩ := h'
  rw [h.disk] at hwrote
  rw [h.tabs, h.selected] at htabs
  rw [h.paths] at hpaths
  exact ⟨hwrote, htabs, hselected.trans h.selected, hpaths, hnext.trans h.nextId,
    htemplate.trans h.template⟩

/-- What writing the text of a tab to a path comes to. -/
theorem saveAs_cases (w : Workbench) (tab : Tab) (path : String) :
    (∃ fault, w.host.disk.writable path = .error fault) ∧ Untouched w (w.saveAs tab path) ∨
    ∃ place, w.host.disk.writable path = .ok place ∧
      ((w.host.disk.cut? place (.text tab.editor.text)).isSome ∧
          Stopped w (w.saveAs tab path) tab path ∨
        w.host.disk.cut? place (.text tab.editor.text) = none ∧
          Saved w (w.saveAs tab path) tab path) := by
  unfold saveAs Disk.writeText
  cases hwritable : w.host.disk.writable path with
  | error fault =>
    rw [Disk.write_refused hwritable]
    exact .inl ⟨⟨fault, rfl⟩, ⟨rfl, rfl, rfl, rfl, rfl⟩, rfl⟩
  | ok place =>
    refine .inr ⟨place, rfl, ?_⟩
    cases hcut : w.host.disk.cut? place (.text tab.editor.text) with
    | none =>
      rw [Disk.write_done hwritable hcut]
      exact .inr ⟨rfl, ⟨place, hwritable, Disk.wrote_put hwritable _⟩, rfl, rfl, rfl, rfl, rfl⟩
    | some beginning =>
      rw [Disk.write_stopped hwritable hcut]
      exact .inl ⟨rfl, ⟨rfl, rfl, rfl, rfl, rfl⟩, place, hwritable, beginning, hcut,
        Disk.wrote_put hwritable beginning⟩

/-- Saving may ask for a path first. -/
theorem exists_saveFile_eq (h : w.current? = some tab) : ∃ asked, Untouched w asked ∧
    w.saveFile = (w.target? tab).elim asked (asked.saveAs tab) := by
  unfold saveFile target?
  cases hpath : w.pathOf tab.id with
  | some path => exact ⟨w, ⟨⟨rfl, rfl, rfl, rfl, rfl⟩, rfl⟩, by simp [h, hpath]⟩
  | none =>
    refine ⟨_, untouched_ask w (.askSave ".txt" none), ?_⟩
    rw [h, ask_eq]
    cases hreply : w.nextReply.path? <;> simp [hpath, hreply]

/-- Saving leaves everything if there is no file or it does not open, and otherwise writes to the
target of the selected tab the beginning of its text, or all of it. -/
theorem saveFile_cases (h : w.current? = some tab) :
    (¬w.CanSave tab ∧ (∀ place, ¬w.StopsAt tab place)) ∧ Untouched w w.saveFile ∨
    ∃ path, w.target? tab = some path ∧
      ((∃ place, w.StopsAt tab place) ∧ ¬w.CanSave tab ∧ Stopped w w.saveFile tab path ∨
        w.CanSave tab ∧ (∀ place, ¬w.StopsAt tab place) ∧ Saved w w.saveFile tab path) := by
  obtain ⟨asked, hasked, heq⟩ := exists_saveFile_eq h
  rw [heq]
  cases htarget : w.target? tab with
  | none => exact .inl ⟨not_saves (by simp [htarget]), hasked⟩
  | some path =>
    have hcases := asked.saveAs_cases tab path
    rw [hasked.disk] at hcases
    rcases hcases with ⟨⟨fault, hfault⟩, hsame⟩ | ⟨place, hplace, hcases⟩
    · refine .inl ⟨not_saves fun path' hpath' place hplace => ?_, hasked.trans hsame⟩
      cases htarget.symm.trans hpath'
      cases hfault.symm.trans hplace
    · refine .inr ⟨path, rfl, ?_⟩
      simp only [canSave_iff htarget hplace, stopsAt_iff htarget hplace]
      rcases hcases with ⟨hcut, hstopped⟩ | ⟨hfits, hsaved⟩
      · exact .inl ⟨⟨place, rfl, hcut⟩, Option.isSome_iff_ne_none.mp hcut, hasked.stopped hstopped⟩
      · exact .inr ⟨hfits, by simp [hfits], hasked.saved hsaved⟩

/-- What saving the selected tab does to the files. Some file holds the text afterwards exactly if
it could be saved, or if some file held it before that was not cut. -/
theorem saveFile_keeps_text_iff (h : w.current? = some tab) :
    (w.CanSave tab → ∃ path place, w.target? tab = some path ∧
      w.host.disk.Wrote w.saveFile.host.disk path (.text tab.editor.text) place) ∧
    (∀ place, w.StopsAt tab place → ∃ path, w.target? tab = some path ∧
      w.host.disk.Stopped w.saveFile.host.disk path (.text tab.editor.text) place) ∧
    (¬w.CanSave tab → (∀ place, ¬w.StopsAt tab place) → w.saveFile.host.disk = w.host.disk) ∧
    ((∃ place, w.saveFile.host.disk.keeps place (.text tab.editor.text) = true) ↔
      w.CanSave tab ∨ ∃ place, w.host.disk.keeps place (.text tab.editor.text) = true ∧
        ¬w.StopsAt tab place) := by
  rcases saveFile_cases h with ⟨⟨hcannot, hnowhere⟩, hsame⟩ |
    ⟨path, hpath, ⟨⟨place, hstops⟩, hcannot, hstopped⟩ | ⟨hcan, hnowhere, hsaved⟩⟩
  · refine ⟨fun hcan => absurd hcan hcannot, fun place hstops => absurd hstops (hnowhere place),
      fun _ _ => hsame.disk, ?_⟩
    rw [hsame.disk, or_iff_right hcannot]
    exact exists_congr fun place => (and_iff_left (hnowhere place)).symm
  · obtain ⟨place', hplace', hbegun⟩ := hstopped.begun
    obtain ⟨rfl, hcut⟩ := (stopsAt_iff hpath hplace').mp hstops
    refine ⟨fun hcan => absurd hcan hcannot, fun other hother => ?_,
      fun _ hnowhere => absurd hstops (hnowhere place), ?_⟩
    · obtain ⟨rfl, -⟩ := (stopsAt_iff hpath hplace').mp hother
      exact ⟨path, hpath, hbegun⟩
    · rw [or_iff_right hcannot]
      refine exists_congr fun other => ?_
      rw [hbegun.keeps_iff, stopsAt_iff hpath hplace', and_iff_left hcut]
  · obtain ⟨place, -, hwrote⟩ := hsaved.wrote
    refine ⟨fun _ => ⟨path, place, hpath, hwrote⟩,
      fun place hstops => absurd hstops (hnowhere place), fun hcannot => absurd hcan hcannot, ?_⟩
    exact iff_of_true ⟨place, Disk.keeps_of_fileAt? hwrote.file⟩ (.inl hcan)

/-! ## Closing -/

/-- The workbench once the user has been asked whether to save the text of a tab that is closed. -/
def asked (w : Workbench) : Workbench :=
  (w.ask (.askYesNoCancel "Close Tab" "Do you want to save changes before closing?")).2

theorem closeTab_of_decision (h : w.current? = some tab) (htext : tab.editor.isBlank = false) :
    (w.nextReply.decision = .cancel → w.closeTab = .ok w.asked) ∧
    (w.nextReply.decision = .discard → w.closeTab = .ok (w.asked.discardTab tab)) ∧
    (w.nextReply.decision = .save → w.closeTab = .ok (w.asked.saveFile.discardTab tab)) := by
  unfold closeTab
  simp only [h, htext, Bool.false_eq_true, if_false]
  rw [ask_eq]
  refine ⟨?_, ?_, ?_⟩ <;> intro hdecision <;> simp only [hdecision] <;> rfl

/-- Closing a tab without answering that its text is to be thrown away: the answer was to save it.
If this could be done, the tab's file holds the text and is the only file that changed. If the room
ended, that file is left with the beginning of the text and is the only one that changed. Otherwise
no file changed. The tab is closed in any case. So after closing, some file holds the text exactly
if it could be saved, or if some file held it before that was not cut. -/
theorem closeTab_keeps_text_iff (h : w.current? = some tab) (htext : tab.editor.isBlank = false)
    (hclose : w.closeTab = .ok w') (hclosed : w'.tabs.length < w.tabs.length)
    (hanswer : w.nextReply.decision ≠ .discard) :
    w.nextReply.decision = .save ∧
    (w.asked.CanSave tab → ∃ path place, w.asked.target? tab = some path ∧
      w.host.disk.Wrote w'.host.disk path (.text tab.editor.text) place) ∧
    (∀ place, w.asked.StopsAt tab place → ∃ path, w.asked.target? tab = some path ∧
      w.host.disk.Stopped w'.host.disk path (.text tab.editor.text) place) ∧
    (¬w.asked.CanSave tab → (∀ place, ¬w.asked.StopsAt tab place) →
      w'.host.disk = w.host.disk) ∧
    ((∃ place, w'.host.disk.keeps place (.text tab.editor.text) = true) ↔
      w.asked.CanSave tab ∨ ∃ place, w.host.disk.keeps place (.text tab.editor.text) = true ∧
        ¬w.asked.StopsAt tab place) := by
  have hasked := untouched_ask w
    (.askYesNoCancel "Close Tab" "Do you want to save changes before closing?")
  obtain ⟨hcancel, -, hsave⟩ := closeTab_of_decision h htext
  cases hdecision : w.nextReply.decision with
  | discard => exact absurd hdecision hanswer
  | cancel =>
    obtain rfl := Except.ok.inj ((hcancel hdecision).symm.trans hclose)
    exact absurd hclosed (by simp [asked, hasked.tabs])
  | save =>
    obtain rfl := Except.ok.inj ((hsave hdecision).symm.trans hclose)
    have hcurrent : w.asked.current? = some tab := hasked.current?_eq.trans h
    exact ⟨rfl, saveFile_keeps_text_iff hcurrent⟩

/-- A text in the only tab of a workbench with an empty disk, and the replies of the user. -/
def sheet (text : String) (replies : List Reply) : Workbench :=
  { (opened "" (.ofDisk (.empty "/home")) [] none).edit text with replies := replies }

def sheetTab (text : String) : Tab :=
  ⟨0, untitled, Editor.ofText text, (Shell.opened true (.ofDisk (.empty "/home"))).shell,
    emptyPreview⟩

/-- The user wants the text to be saved and names a file. -/
theorem closeTab_keeps_text_iff_named : ∃ w',
    (sheet "x" [.yes, .text "a.txt"]).current? = some (sheetTab "x") ∧
    (sheet "x" [.yes, .text "a.txt"]).closeTab = .ok w' ∧
    ∃ place, w'.host.disk.keeps place (.text "x") = true := by
  have hwritable : (Disk.empty "/home").writable "a.txt" = .ok ["a.txt"] := by decide +kernel
  have hcan : (sheet "x" [.yes, .text "a.txt"]).asked.CanSave (sheetTab "x") :=
    ⟨"a.txt", ["a.txt"], rfl, hwritable, rfl⟩
  obtain ⟨-, -, -, -, hiff⟩ := @closeTab_keeps_text_iff (sheet "x" [.yes, .text "a.txt"]) _
    (sheetTab "x") rfl (by decide) rfl (by decide +kernel) (by decide)
  exact ⟨_, rfl, rfl, hiff.mpr (.inl hcan)⟩

/-- The user wants the text to be saved but names no file: the tab is closed, and no file holds its
text. -/
theorem closeTab_loses_text : ∃ w', (sheet "x" [.yes]).current? = some (sheetTab "x") ∧
    (sheetTab "x").editor.isBlank = false ∧ (sheet "x" [.yes]).closeTab = .ok w' ∧
    w'.tabs.length < (sheet "x" [.yes]).tabs.length ∧
    (sheet "x" [.yes]).nextReply.decision ≠ .discard ∧
    ¬∃ place, w'.host.disk.keeps place (.text (sheetTab "x").editor.text) = true := by
  refine ⟨_, rfl, by decide, rfl, by decide, by decide, ?_⟩
  rintro ⟨place, hkeeps⟩
  have hempty := Disk.not_keeps_empty "/home" place (.text "x")
  exact Bool.false_ne_true (hempty.symm.trans hkeeps)

end Workbench

end DrawPlus
