import DrawPlus.Proofs.Workbench.Saving

/-!
# Tabs and their files

A session is a list of acts: the user opens, saves and closes tabs, selects and edits them and
answers dialogs, and the disk may change between any two acts. `Effect` says what an act can do to
the row of tabs and to the table of their files, one constructor for each way in which these change.
Everything else follows from it: every entry of the table belongs to a tab of the row (`Coherent`),
and an entry gets its path from the act that opened the tab or from a save while the tab was
selected.
-/

namespace DrawPlus

/-! ## Tables -/

namespace Table

variable {α β : Type} [DecidableEq α] {key : α} {table : List (α × β)}

theorem eq_or_mem_of_mem_insert {value : β} {entry : α × β} (h : entry ∈ insert key value table) :
    entry = (key, value) ∨ entry ∈ table := by
  induction table with
  | nil => exact .inl (List.mem_singleton.mp h)
  | cons first rest ih =>
    unfold insert at h
    split_ifs at h
    · exact (List.mem_cons.mp h).imp_right (List.mem_cons_of_mem _)
    · rcases List.mem_cons.mp h with rfl | h
      · exact .inr List.mem_cons_self
      · exact (ih h).imp_right (List.mem_cons_of_mem _)

theorem mem_erase {entry : α × β} : entry ∈ erase key table ↔ entry ∈ table ∧ entry.1 ≠ key := by
  simp [erase]

/-- The value of a key is taken away together with the key. -/
theorem erase_insert (key : α) (value : β) (table : List (α × β)) :
    erase key (insert key value table) = erase key table := by
  induction table with
  | nil => simp [erase, insert]
  | cons first rest ih =>
    by_cases h : first.1 = key <;> simp [erase_cons, insert, h, ih]

end Table

namespace Workbench

variable {w w' : Workbench} {tab : Tab}

/-! ## Acts -/

inductive Act where
  | newFile
  | openFile
  | saveFile
  | closeTab
  | select (place : ℕ)
  | edit (text : String)
  /-- what the user is going to answer in the dialogs that follow -/
  | answer (replies : List Reply)
  /-- the disk is changed by others -/
  | change (disk : Disk)

/-- Carry out an act. Closing fails without a tab, and then nothing is changed. -/
def act (w : Workbench) : Act → Workbench
  | .newFile => w.newFile
  | .openFile => w.openFile
  | .saveFile => w.saveFile
  | .closeTab => w.closeTab.toOption.getD w
  | .select place => w.select place
  | .edit text => w.edit text
  | .answer replies => { w with replies := replies }
  | .change disk => w.withDisk disk

def acts (w : Workbench) (as : List Act) : Workbench := as.foldl act w

@[simp] theorem acts_nil (w : Workbench) : w.acts [] = w := rfl

@[simp] theorem acts_concat (w : Workbench) (as : List Act) (a : Act) :
    w.acts (as ++ [a]) = (w.acts as).act a := by
  rw [acts, acts, List.foldl_append]
  rfl

/-- The numbers of the tabs, in the order of the row. -/
def ids (w : Workbench) : List ℕ := w.tabs.map Tab.id

/-! ## What an act can do -/

/-- The same tabs in the same order, with the same files. What the tabs show may have changed. -/
structure SameTabs (w w' : Workbench) : Prop where
  ids : w'.ids = w.ids
  paths : w'.paths = w.paths
  nextId : w'.nextId = w.nextId
  template : w'.template = w.template

/-- A new tab was put at the end of the row and selected, and entered into the table. -/
structure Opened (w w' : Workbench) (tab : Tab) (path : Option String) : Prop where
  id : tab.id = w.nextId
  tabs : w'.tabs = w.tabs ++ [tab]
  selected : w'.selected = w.tabs.length
  paths : w'.paths = Table.insert w.nextId path w.paths
  nextId : w'.nextId = w.nextId + 1
  template : w'.template = w.template
  disk : w'.host.disk = w.host.disk

/-- The selected tab was taken out of the row and out of the table. -/
structure Closed (w w' : Workbench) (tab : Tab) : Prop where
  tabs : w'.tabs = w.tabs.eraseIdx w.selected
  paths : w'.paths = Table.erase tab.id w.paths
  nextId : w'.nextId = w.nextId
  template : w'.template = w.template

/-- What an act can do to the tabs and their files. -/
inductive Effect (w w' : Workbench) : Act → Prop where
  | same (a : Act) : SameTabs w w' → Effect w w' a
  | made (tab : Tab) : Opened w w' tab none → Effect w w' .newFile
  | opened (tab : Tab) (path : String) : w.nextReply.path? = some path →
      Opened w w' tab (some path) → Effect w w' .openFile
  | saved (tab : Tab) (path : String) : w.current? = some tab → w.target? tab = some path →
      Saved w w' tab path → Effect w w' .saveFile
  | closed (tab : Tab) : w.current? = some tab → Closed w w' tab → Effect w w' .closeTab

theorem SameRow.sameTabs (h : SameRow w w') : SameTabs w w' :=
  ⟨by rw [ids, ids, h.tabs], h.paths, h.nextId, h.template⟩

theorem SameRow.closed (h : SameRow w w') : Closed w (w'.discardTab tab) tab := by
  refine ⟨?_, ?_, h.nextId, h.template⟩
  · rw [← h.tabs, ← h.selected]
    rfl
  · rw [← h.paths]
    rfl

/-- What saving wrote down about a tab is forgotten when the tab is closed. -/
theorem Saved.closed {path : String} (h : Saved w w' tab path) :
    Closed w (w'.discardTab tab) tab := by
  refine ⟨?_, ?_, h.nextId, h.template⟩
  · change w'.tabs.eraseIdx w'.selected = _
    rw [h.selected, h.tabs, List.eraseIdx_modify_of_eq]
  · change Table.erase tab.id w'.paths = _
    rw [h.paths, Table.erase_insert]

theorem opened_newFile (w : Workbench) : ∃ tab, Opened w w.newFile tab none :=
  ⟨_, rfl, rfl, rfl, rfl, rfl, rfl, rfl⟩

theorem modify_concat (tabs : List Tab) (tab : Tab) (f : Tab → Tab) :
    (tabs ++ [tab]).modify tabs.length f = tabs ++ [f tab] := by
  rw [List.modify_eq_take_cons_drop (by simp)]
  simp

/-- The tab of an opened file holds the file's text, followed by what every new editor holds. -/
theorem opened_openFile {path content : String} (hpath : w.nextReply.path? = some path)
    (hread : w.host.disk.readText path = .ok content) :
    ∃ tab, Opened w w.openFile tab (some path) ∧ tab.editor.text = content ++ w.template := by
  have hread' : (w.ask .askOpen).2.host.disk.readText path = .ok content := hread
  unfold openFile
  rw [ask_eq]
  simp only [hpath, hread']
  exact ⟨_, ⟨rfl, modify_concat _ _ _, rfl, rfl, rfl, rfl, rfl⟩, rfl⟩

theorem openFile_cases (w : Workbench) : Untouched w w.openFile ∨
    ∃ tab path, w.nextReply.path? = some path ∧ Opened w w.openFile tab (some path) := by
  have hasked := untouched_ask w .askOpen
  cases hpath : w.nextReply.path? with
  | none =>
    unfold openFile
    rw [ask_eq]
    simp only [hpath]
    exact .inl hasked
  | some path =>
    cases hread : w.host.disk.readText path with
    | ok content =>
      obtain ⟨tab, hopened, -⟩ := opened_openFile hpath hread
      exact .inr ⟨tab, path, rfl, hopened⟩
    | error e =>
      have hread' : (w.ask .askOpen).2.host.disk.readText path = .error e := hread
      unfold openFile
      rw [ask_eq]
      simp only [hpath, hread']
      exact .inl ⟨⟨rfl, rfl, rfl, rfl, rfl⟩, rfl⟩

/-- With or without a tab, saving leaves everything, or it writes the text of the selected tab, all
of it or its beginning. -/
theorem saveFile_outcomes (w : Workbench) :
    (∀ tab, w.current? = some tab → ¬w.CanSave tab ∧ ∀ place, ¬w.StopsAt tab place) ∧
      Untouched w w.saveFile ∨
    ∃ tab path, w.current? = some tab ∧ w.target? tab = some path ∧
      ((∃ place, w.StopsAt tab place) ∧ Stopped w w.saveFile tab path ∨
        w.CanSave tab ∧ Saved w w.saveFile tab path) := by
  cases h : w.current? with
  | none =>
    have hsame : w.saveFile = w := by simp [saveFile, h]
    rw [hsame]
    exact .inl ⟨by simp, ⟨rfl, rfl, rfl, rfl, rfl⟩, rfl⟩
  | some tab =>
    rcases saveFile_cases h with ⟨hcannot, hsame⟩ |
      ⟨path, hpath, ⟨hstops, -, hstopped⟩ | ⟨hcan, -, hsaved⟩⟩
    · refine .inl ⟨fun tab' htab => ?_, hsame⟩
      cases htab
      exact hcannot
    · exact .inr ⟨tab, path, rfl, hpath, .inl ⟨hstops, hstopped⟩⟩
    · exact .inr ⟨tab, path, rfl, hpath, .inr ⟨hcan, hsaved⟩⟩

theorem effect_closeTab (w : Workbench) : Effect w (w.act .closeTab) .closeTab := by
  have hasked : Untouched w w.asked := untouched_ask w _
  cases h : w.current? with
  | none =>
    have hfail : w.act .closeTab = w := by simp [act, closeTab, h, Except.toOption]
    rw [hfail]
    exact .same _ ⟨rfl, rfl, rfl, rfl⟩
  | some tab =>
    cases hblank : tab.editor.isBlank with
    | true =>
      have hact : w.act .closeTab = w.discardTab tab := by
        simp [act, closeTab, h, hblank, Except.toOption]
      rw [hact]
      exact .closed tab h ⟨rfl, rfl, rfl, rfl⟩
    | false =>
      obtain ⟨hcancel, hdiscard, hsave⟩ := closeTab_of_decision h hblank
      unfold act
      cases hdecision : w.nextReply.decision with
      | cancel =>
        rw [hcancel hdecision]
        exact .same _ hasked.sameTabs
      | discard =>
        rw [hdiscard hdecision]
        exact .closed tab h hasked.closed
      | save =>
        rw [hsave hdecision]
        refine .closed tab h ?_
        rcases saveFile_cases (hasked.current?_eq.trans h) with ⟨-, hsame⟩ |
          ⟨path, -, ⟨-, -, hstopped⟩ | ⟨-, -, hsaved⟩⟩
        · exact (hasked.trans hsame).closed
        · exact (hasked.stopped hstopped).closed
        · exact (hasked.saved hsaved).closed

theorem ids_modifyCurrent (w : Workbench) (f : Tab → Tab) (h : ∀ tab, (f tab).id = tab.id) :
    (w.modifyCurrent f).ids = w.ids := by
  refine List.ext_getElem? fun i => ?_
  simp only [ids, modifyCurrent, List.getElem?_map, List.getElem?_modify]
  cases w.tabs[i]? <;> simp [apply_ite, h]

theorem effect_act (w : Workbench) (a : Act) : Effect w (w.act a) a := by
  cases a with
  | newFile =>
    obtain ⟨tab, hopened⟩ := opened_newFile w
    exact .made tab hopened
  | openFile =>
    rcases openFile_cases w with hsame | ⟨tab, path, hpath, hopened⟩
    · exact .same _ hsame.sameTabs
    · exact .opened tab path hpath hopened
  | saveFile =>
    rcases saveFile_outcomes w with ⟨-, hsame⟩ |
      ⟨tab, path, h, hpath, ⟨-, hstopped⟩ | ⟨-, hsaved⟩⟩
    · exact .same _ hsame.sameTabs
    · exact .same _ hstopped.sameTabs
    · exact .saved tab path h hpath hsaved
  | closeTab => exact effect_closeTab w
  | select place =>
    refine .same _ ?_
    change SameTabs w (w.select place)
    unfold select
    split <;> exact ⟨rfl, rfl, rfl, rfl⟩
  | edit text =>
    refine .same _ ?_
    change SameTabs w (w.edit text)
    unfold edit
    split
    · exact ⟨rfl, rfl, rfl, rfl⟩
    · exact ⟨ids_modifyCurrent w _ fun _ => rfl, rfl, rfl, rfl⟩
  | answer replies => exact .same _ ⟨rfl, rfl, rfl, rfl⟩
  | change disk => exact .same _ ⟨rfl, rfl, rfl, rfl⟩

theorem Effect.template_eq {a : Act} (h : Effect w w' a) : w'.template = w.template := by
  cases h with
  | same _ h => exact h.template
  | made _ h => exact h.template
  | opened _ _ _ h => exact h.template
  | saved _ _ _ _ h => exact h.template
  | closed _ _ h => exact h.template

/-! ## The numbers of the tabs and the table -/

/-- The tabs have different numbers, below that of the next tab, and the table has entries for tabs
of the row only. -/
structure Coherent (w : Workbench) : Prop where
  nodup : w.ids.Nodup
  lt_nextId : ∀ id ∈ w.ids, id < w.nextId
  keys : ∀ entry ∈ w.paths, entry.1 ∈ w.ids

theorem mem_ids_of_current? (h : w.current? = some tab) : tab.id ∈ w.ids :=
  List.mem_map_of_mem (List.mem_of_getElem? h)

theorem Opened.ids_eq {path : Option String} (h : Opened w w' tab path) :
    w'.ids = w.ids ++ [w.nextId] := by
  rw [ids, ids, h.tabs, List.map_append, List.map_singleton, h.id]

theorem Saved.ids_eq {path : String} (h : Saved w w' tab path) : w'.ids = w.ids := by
  rw [ids, h.tabs]
  exact ids_modifyCurrent w _ fun _ => rfl

theorem Closed.ids_eq (h : Closed w w' tab) (hcurrent : w.current? = some tab)
    (hw : Coherent w) : w'.ids = w.ids.erase tab.id := by
  have hid : w.ids[w.selected]? = some tab.id := by
    rw [ids, List.getElem?_map]
    exact congrArg (Option.map Tab.id) hcurrent
  obtain ⟨hlt, hid'⟩ := List.getElem?_eq_some_iff.mp hid
  rw [← hid', hw.nodup.erase_getElem, ids, h.tabs, ← List.eraseIdx_map]
  rfl

theorem Opened.coherent {path : Option String} (h : Opened w w' tab path) (hw : Coherent w) :
    Coherent w' := by
  have hnew : w.nextId ∉ w.ids := fun hmem => lt_irrefl _ (hw.lt_nextId _ hmem)
  refine ⟨?_, ?_, ?_⟩
  · rw [h.ids_eq, ← List.concat_eq_append]
    exact hw.nodup.concat hnew
  · intro id hid
    rw [h.ids_eq, List.mem_append, List.mem_singleton] at hid
    rw [h.nextId]
    rcases hid with hid | rfl
    · exact Nat.lt_succ_of_lt (hw.lt_nextId id hid)
    · exact Nat.lt_succ_self _
  · intro entry hentry
    rw [h.paths] at hentry
    rw [h.ids_eq, List.mem_append, List.mem_singleton]
    rcases Table.eq_or_mem_of_mem_insert hentry with rfl | hentry
    · exact .inr rfl
    · exact .inl (hw.keys entry hentry)

theorem Saved.coherent {path : String} (h : Saved w w' tab path) (hcurrent : w.current? = some tab)
    (hw : Coherent w) : Coherent w' := by
  refine ⟨h.ids_eq ▸ hw.nodup, ?_, ?_⟩
  · rw [h.ids_eq, h.nextId]
    exact hw.lt_nextId
  · intro entry hentry
    rw [h.paths] at hentry
    rw [h.ids_eq]
    rcases Table.eq_or_mem_of_mem_insert hentry with rfl | hentry
    · exact mem_ids_of_current? hcurrent
    · exact hw.keys entry hentry

theorem Closed.coherent (h : Closed w w' tab) (hcurrent : w.current? = some tab)
    (hw : Coherent w) : Coherent w' := by
  have hids := h.ids_eq hcurrent hw
  refine ⟨hids ▸ hw.nodup.erase _, ?_, ?_⟩
  · rw [hids, h.nextId]
    exact fun id hid => hw.lt_nextId id (List.mem_of_mem_erase hid)
  · intro entry hentry
    rw [h.paths, Table.mem_erase] at hentry
    rw [hids, hw.nodup.mem_erase_iff]
    exact ⟨hentry.2, hw.keys entry hentry.1⟩

theorem Effect.coherent {a : Act} (h : Effect w w' a) (hw : Coherent w) : Coherent w' := by
  cases h with
  | same _ h =>
    obtain ⟨hids, hpaths, hnext, -⟩ := h
    refine ⟨?_, ?_, ?_⟩
    · exact hids ▸ hw.nodup
    · rw [hids, hnext]
      exact hw.lt_nextId
    · rw [hids, hpaths]
      exact hw.keys
  | made _ h => exact h.coherent hw
  | opened _ _ _ h => exact h.coherent hw
  | saved _ _ hcurrent _ h => exact h.coherent hcurrent hw
  | closed _ hcurrent h => exact h.coherent hcurrent hw

theorem coherent_opened (template : String) (host : Host) (results : List SystemResult)
    (drawing : Option Content) : Coherent (opened template host results drawing) := by
  refine ⟨List.nodup_singleton _, ?_, ?_⟩
  · intro id hid
    obtain rfl := List.mem_singleton.mp hid
    exact Nat.zero_lt_one
  · intro entry hentry
    cases hentry

theorem coherent_acts (hw : Coherent w) (as : List Act) : Coherent (w.acts as) := by
  induction as using List.reverseRecOn with
  | nil => exact hw
  | append_singleton before a ih =>
    rw [acts_concat]
    exact (effect_act _ a).coherent ih

theorem template_acts (w : Workbench) (as : List Act) : (w.acts as).template = w.template := by
  induction as using List.reverseRecOn with
  | nil => rfl
  | append_singleton before a ih =>
    rw [acts_concat, (effect_act _ a).template_eq, ih]

/-! ## Where a path comes from -/

/-- The act gives the tab with this number its path: it opens the file in a new tab, or it saves the
tab, which is selected, to its file or to the one that the user chooses. -/
inductive SetsPath (w : Workbench) (id : ℕ) (path : String) : Act → Prop where
  | opened : id ∉ w.ids → w.nextReply.path? = some path → SetsPath w id path .openFile
  | saved (tab : Tab) : w.current? = some tab → tab.id = id → w.target? tab = some path →
      SetsPath w id path .saveFile

theorem Coherent.mem_ids_of_pathOf {id : ℕ} {path : String} (hw : Coherent w)
    (h : w.pathOf id = some path) : id ∈ w.ids := by
  obtain ⟨before, after, hpaths, -⟩ := List.lookup_eq_some_iff.mp (Option.join_eq_some_iff.mp h)
  exact hw.keys (id, some path) (by simp [hpaths])

theorem Coherent.pathOf_eq_none {id : ℕ} (hw : Coherent w) (h : id ∉ w.ids) :
    w.pathOf id = none := by
  by_contra hne
  obtain ⟨path, hpath⟩ := Option.ne_none_iff_exists'.mp hne
  exact h (hw.mem_ids_of_pathOf hpath)

theorem pathOf_insert {key : ℕ} {path : Option String}
    (h : w'.paths = Table.insert key path w.paths) (id : ℕ) :
    w'.pathOf id = if id = key then path else w.pathOf id := by
  unfold pathOf
  rw [h]
  split_ifs with hid
  · rw [hid, Table.lookup_insert_self, Option.join_some]
  · rw [Table.lookup_insert_of_ne hid]

/-- Only opening and saving change the path of a tab that is there afterwards. -/
theorem Effect.setsPath {a : Act} {id : ℕ} (h : Effect w w' a) (hw : Coherent w)
    (hid : id ∈ w'.ids) (hne : w'.pathOf id ≠ w.pathOf id) :
    ∃ path, w'.pathOf id = some path ∧ SetsPath w id path a := by
  have hnew : w.nextId ∉ w.ids := fun hmem => lt_irrefl _ (hw.lt_nextId _ hmem)
  cases h with
  | same _ h =>
    refine absurd ?_ hne
    rw [pathOf, pathOf, h.paths]
  | made tab h =>
    refine absurd ?_ hne
    rw [pathOf_insert h.paths]
    split_ifs with heq
    · rw [heq, hw.pathOf_eq_none hnew]
    · rfl
  | opened tab path hpath h =>
    rw [pathOf_insert h.paths] at hne ⊢
    split_ifs at hne ⊢ with heq
    · exact ⟨path, rfl, .opened (heq ▸ hnew) hpath⟩
    · exact absurd rfl hne
  | saved tab path hcurrent hpath h =>
    rw [pathOf_insert h.paths] at hne ⊢
    split_ifs at hne ⊢ with heq
    · exact ⟨path, rfl, .saved tab hcurrent heq.symm hpath⟩
    · exact absurd rfl hne
  | closed tab hcurrent h =>
    rw [h.ids_eq hcurrent hw, hw.nodup.mem_erase_iff] at hid
    refine absurd ?_ hne
    rw [pathOf, pathOf, h.paths, Table.lookup_erase_of_ne hid.1]

/-- A path in the table was put there by an act. -/
theorem exists_setsPath (hw : Coherent w) (hnone : w.paths = []) (as : List Act) {id : ℕ}
    {path : String} (h : (w.acts as).pathOf id = some path) :
    ∃ before a after, as = before ++ a :: after ∧ SetsPath (w.acts before) id path a := by
  induction as using List.reverseRecOn with
  | nil =>
    rw [acts_nil, pathOf, hnone] at h
    cases h
  | append_singleton before a ih =>
    by_cases hsame : (w.acts before).pathOf id = some path
    · obtain ⟨first, a', after, rfl, hsets⟩ := ih hsame
      exact ⟨first, a', after ++ [a], by simp, hsets⟩
    · have hcoherent := coherent_acts hw (before ++ [a])
      have hid := hcoherent.mem_ids_of_pathOf h
      rw [acts_concat] at h hid
      have hne : ((w.acts before).act a).pathOf id ≠ (w.acts before).pathOf id :=
        fun heq => hsame (heq.symm.trans h)
      obtain ⟨path', hpath', hsets⟩ :=
        (effect_act _ a).setsPath (coherent_acts hw before) hid hne
      obtain rfl := Option.some.inj (h.symm.trans hpath')
      exact ⟨before, a, [], rfl, hsets⟩

/-! ## Opening and saving -/

theorem Opened.current?_eq {path : Option String} (h : Opened w w' tab path) :
    w'.current? = some tab := by
  rw [current?, h.tabs, h.selected, List.getElem?_concat_length]

/-- An opened file is saved where it was read. -/
theorem saveFile_openFile {path : String} {held : Content} {characters : List Char}
    (hpath : w.nextReply.path? = some path) (hheld : w.host.disk.contentOf path = .ok held)
    (hdecoded : held.decoded = .ok characters) :
    ∃ place, w.host.disk.fileAt? place = some held ∧
      (w.host.disk.Wrote w.openFile.saveFile.host.disk path
          (.text (String.ofList (unifyLineEnds characters) ++ w.template)) place ∨
        w.host.disk.Stopped w.openFile.saveFile.host.disk path
          (.text (String.ofList (unifyLineEnds characters) ++ w.template)) place) := by
  have hread : w.host.disk.readText path = .ok (String.ofList (unifyLineEnds characters)) := by
    simp [Disk.readText, hheld, hdecoded]
  obtain ⟨tab, hopened, htext⟩ := opened_openFile hpath hread
  obtain ⟨place, hplace, hfile⟩ := Disk.exists_writable_of_contentOf hheld
  have htarget : w.openFile.target? tab = some path := by
    rw [target?, pathOf_insert hopened.paths, if_pos hopened.id, Option.some_or]
  have hplace' : w.openFile.host.disk.writable path = .ok place := hopened.disk ▸ hplace
  refine ⟨place, hfile, ?_⟩
  rw [← hopened.disk, ← htext]
  rcases saveFile_cases hopened.current?_eq with ⟨⟨hcannot, hnowhere⟩, -⟩ |
    ⟨path', htarget', ⟨-, -, hstopped⟩ | ⟨-, -, hsaved⟩⟩
  · cases hcut : w.openFile.host.disk.cut? place (.text tab.editor.text) with
    | none => exact absurd ⟨path, place, htarget, hplace', hcut⟩ hcannot
    | some beginning => exact absurd ⟨path, beginning, htarget, hplace', hcut⟩ (hnowhere place)
  · obtain rfl := Option.some.inj (htarget.symm.trans htarget')
    obtain ⟨place', hwritable, hbegun⟩ := hstopped.begun
    obtain rfl := Except.ok.inj (hplace'.symm.trans hwritable)
    exact .inr hbegun
  · obtain rfl := Option.some.inj (htarget.symm.trans htarget')
    obtain ⟨place', hwritable, hwrote⟩ := hsaved.wrote
    obtain rfl := Except.ok.inj (hplace'.symm.trans hwritable)
    exact .inl hwrote

/-- A file with two lines, the first of which ends as on another system. -/
def twoLines : Disk := (Disk.empty "/home").put ["a.dpp"] (.file (.text "x\r\ny"))

/-- The file with two lines, where there is room for one byte. -/
def narrow : Disk := { twoLines with room := [(["a.dpp"], 1)] }

end Workbench

end DrawPlus
