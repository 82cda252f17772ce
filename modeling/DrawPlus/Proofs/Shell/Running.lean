import DrawPlus.Proofs.Actions
import DrawPlus.Proofs.Shell.Scratch

/-!
# What running code does to the files

A run starts programs, which may write and remove the generated code and the compiled program, and
then removes the scratch files, however the programs end. The results are about every such run in a
given working directory: files at other places stay as they are, and all files do exactly when none
of them stands where a scratch file does, or the command breaks off before anything is started and
before it has written over one.
-/

namespace DrawPlus

namespace Shell

open Disk

variable {α β : Type}

/-- The session after an action, whether it succeeds or fails. -/
def sessionAfter (x : Action α) (s : ShellSession) : ShellSession :=
  match x s with
  | .ok _ t => t
  | .error _ t => t

section

variable {x : Action α} {f : α → Action β} {s t : ShellSession}

theorem sessionAfter_of_ok {a : α} (h : x s = .ok a t) : sessionAfter x s = t := by
  rw [sessionAfter, h]

theorem sessionAfter_of_error {e : ShellError} (h : x s = .error e t) : sessionAfter x s = t := by
  rw [sessionAfter, h]

theorem sessionAfter_bind_of_ok {a : α} (h : x s = .ok a t) :
    sessionAfter (x >>= f) s = sessionAfter (f a) t := by
  rw [sessionAfter, bind_of_ok h, sessionAfter]

theorem sessionAfter_bind_of_error {e : ShellError} (h : x s = .error e t) :
    sessionAfter (x >>= f) s = t :=
  sessionAfter_of_error (bind_eq_error.mpr (.inl h))

end

/-! ## Actions that spare the files elsewhere -/

/-- The programs still to be started write and remove nothing but the generated code and the
compiled program. -/
def Confined (h : Host) : Prop :=
  ∀ effect ∈ h.effects, ∀ action ∈ effect.actions,
    action.path ∈ [Host.codeFile, Host.programFile]

/-- From one session to the other, files changed at these places only, and the programs started are
the next ones. -/
structure Spares (places : List Path) (s t : ShellSession) : Prop where
  disk : AgreeOutside places s.host.disk t.host.disk
  effects : t.host.effects <:+ s.host.effects

namespace Spares

variable {places : List Path} {s t u : ShellSession}

theorem of_host (h : t.host.disk = s.host.disk) (heffects : t.host.effects = s.host.effects) :
    Spares places s t where
  disk := h ▸ .refl _ _
  effects := heffects ▸ List.suffix_rfl

theorem trans (h : Spares places s t) (h' : Spares places t u) : Spares places s u where
  disk := h.disk.trans h'.disk
  effects := h'.effects.trans h.effects

end Spares

/-- The scratch files are looked up in the working directory, and programs write no others. -/
structure Ready (s : ShellSession) : Prop where
  home : s.host.disk.home ∉ scratchFiles
  confined : Confined s.host

theorem Ready.of_spares {places : List Path} {s t : ShellSession} (hs : Ready s)
    (h : Spares places s t) : Ready t where
  home := h.disk.home ▸ hs.home
  confined effect heffect := hs.confined effect (h.effects.subset heffect)

/-- However the action ends, files change at these places only. -/
def Tame (places : List Path) (x : Action α) : Prop :=
  ∀ s, Ready s → Spares places s (sessionAfter x s)

namespace Tame

variable {places : List Path} {x : Action α} {f : α → Action β}

theorem bind (hx : Tame places x) (hf : ∀ a, Tame places (f a)) : Tame places (x >>= f) := by
  intro s hs
  have hfirst := hx s hs
  cases h : x s with
  | error e t =>
    rw [sessionAfter_bind_of_error h]
    rwa [sessionAfter_of_error h] at hfirst
  | ok a t =>
    rw [sessionAfter_bind_of_ok h]
    rw [sessionAfter_of_ok h] at hfirst
    exact hfirst.trans (hf a t (hs.of_spares hfirst))

theorem pure (a : α) : Tame places (Pure.pure a : Action α) :=
  fun _ _ => .of_host rfl rfl

end Tame

theorem tell_eq_ok (message : String) (s : ShellSession) :
    ∃ t, tell message s = .ok () t ∧ t.host.disk = s.host.disk ∧
      t.host.effects = s.host.effects ∧ t.host.results = s.host.results := by
  unfold tell
  cases s.shell.screen with
  | none => exact ⟨_, rfl, rfl, rfl, rfl⟩
  | some text => exact ⟨_, rfl, rfl, rfl, rfl⟩

theorem tame_tell (places : List Path) (message : String) : Tame places (tell message) := by
  intro s _
  obtain ⟨t, h, hdisk, heffects, -⟩ := tell_eq_ok message s
  rw [sessionAfter_of_ok h]
  exact .of_host hdisk heffects

/-! ## Starting programs -/

def programPlaces : List Path := [[Host.codeFile], [Host.programFile]]

theorem mem_scratchFiles {name : String} (h : name ∈ [Host.codeFile, Host.programFile]) :
    name ∈ scratchFiles :=
  List.mem_cons_of_mem _ h

/-- What one program does, action by action. -/
theorem agreeOutside_actions (actions : List FileAction) (d : Disk) (hhome : d.home ∉ scratchFiles)
    (h : ∀ action ∈ actions, action.path ∈ [Host.codeFile, Host.programFile]) :
    AgreeOutside programPlaces d (actions.foldl Disk.after d) := by
  induction actions generalizing d with
  | nil => exact .refl _ _
  | cons action rest ih =>
    have hpath := h action List.mem_cons_self
    have hplace := locate_scratch (mem_scratchFiles hpath) hhome
    have hfirst : AgreeOutside programPlaces d (d.after action) := by
      refine (agreeOutside_after action hplace).mono ?_
      simpa [programPlaces] using hpath
    refine hfirst.trans (ih _ (hfirst.home ▸ hhome) fun other hother => ?_)
    exact h other (List.mem_cons_of_mem _ hother)

theorem host_start (command : String) (s : ShellSession) :
    (sessionAfter (start command) s).host = (s.host.start command).2 := by
  unfold sessionAfter start
  rcases s.host.start command with ⟨(fault | fault) | result, host⟩ <;> rfl

theorem tame_start (command : String) : Tame programPlaces (start command) := by
  intro s hs
  refine ⟨?_, ?_⟩
  · rw [host_start]
    refine agreeOutside_actions _ _ hs.home fun action haction => ?_
    cases heffects : s.host.effects with
    | nil =>
      rw [heffects] at haction
      cases haction
    | cons effect rest =>
      rw [heffects] at haction
      exact hs.confined effect (by simp [heffects]) action haction
  · rw [host_start]
    exact List.tail_suffix _

theorem tame_runSource (source : String) : Tame programPlaces (runSource source) := by
  unfold runSource
  refine (tame_tell _ _).bind fun _ => (tame_start _).bind fun built => ?_
  split_ifs
  · exact tame_tell _ _
  refine (tame_tell _ _).bind fun _ => (tame_start _).bind fun linked => ?_
  split_ifs
  · exact tame_tell _ _
  refine (tame_tell _ _).bind fun _ => (tame_start _).bind fun ran => ?_
  refine (tame_tell _ _).bind fun _ => ?_
  split_ifs
  · exact tame_tell _ _
  · exact .pure ()

/-- When the first program fails, no other is started. -/
theorem disk_runSource_of_failure {s : ShellSession} {result : ProgramResult}
    {results : List ProgramResult} {actions : List FileAction} {effects : List ProgramEffect}
    (hresults : s.host.results = result :: results) (hfailed : result.exitCode ≠ 0)
    (heffects : s.host.effects = ⟨actions, none⟩ :: effects) (source : String) :
    (sessionAfter (runSource source) s).host.disk = actions.foldl Disk.after s.host.disk := by
  unfold runSource
  obtain ⟨t, htell, hdisk, heffects', hresults'⟩ :=
    tell_eq_ok ("Compiling: " ++ Host.buildCommand source) s
  rw [heffects] at heffects'
  rw [hresults] at hresults'
  have hstart : start (Host.buildCommand source) t =
      .ok result { t with host := (t.host.start (Host.buildCommand source)).2 } := by
    simp [start, Host.start, heffects', hresults']
  rw [sessionAfter_bind_of_ok htell, sessionAfter_bind_of_ok hstart, if_pos hfailed]
  obtain ⟨u, htold, hkept, -⟩ := tell_eq_ok ("Draw++ compilation error: " ++ result.errors)
    { t with host := (t.host.start (Host.buildCommand source)).2 }
  rw [sessionAfter_of_ok htold, hkept, ← hdisk]
  simp [Host.start, heffects']

/-! ## Removing the scratch files -/

def withDisk (s : ShellSession) (d : Disk) : ShellSession :=
  { s with host := { s.host with disk := d } }

/-- A directory of the name stops the removal. Else the file is gone, if there was one, and the next
names follow. -/
theorem removeFiles_cons {name : String} (rest : List String) {s : ShellSession}
    (hname : name ∈ scratchFiles) (hhome : s.host.disk.home ∉ scratchFiles) :
    (s.host.disk.entry? [name] = some .directory ∧
        sessionAfter (removeFiles (name :: rest)) s = s) ∨
      ∃ d, AgreeOutside [[name]] s.host.disk d ∧ d.entry? [name] = none ∧
        sessionAfter (removeFiles (name :: rest)) s =
          sessionAfter (removeFiles rest) (withDisk s d) := by
  rcases hentry : s.host.disk.entry? [name] with - | - | content
  · refine .inr ⟨s.host.disk, .refl _ _, hentry, ?_⟩
    rw [removeFiles]
    refine sessionAfter_bind_of_ok (a := ()) ?_
    simp [holds_scratch hname hhome, hentry, withDisk]
  · refine .inl ⟨rfl, ?_⟩
    rw [removeFiles]
    refine sessionAfter_bind_of_error (e := .file ⟨.isDirectory, name⟩) ?_
    simp [holds_scratch hname hhome, remove_scratch_of_directory hname hhome hentry, hentry]
  · refine .inr ⟨s.host.disk.erase [name], agreeOutside_erase (by simp [hentry]),
      entry?_erase_self (isGiven_scratch hname), ?_⟩
    rw [removeFiles]
    refine sessionAfter_bind_of_ok (a := ()) ?_
    simp [holds_scratch hname hhome, remove_scratch_of_file hname hhome hentry, hentry, withDisk]

theorem spares_removeFiles (names : List String) (s : ShellSession) (hnames : names ⊆ scratchFiles)
    (hhome : s.host.disk.home ∉ scratchFiles) :
    Spares scratchPlaces s (sessionAfter (removeFiles names) s) := by
  induction names generalizing s with
  | nil => exact .of_host rfl rfl
  | cons name rest ih =>
    obtain ⟨hname, hrest⟩ := List.cons_subset.mp hnames
    rcases removeFiles_cons rest hname hhome with ⟨-, hafter⟩ | ⟨d, hd, -, hafter⟩
    · rw [hafter]
      exact .of_host rfl rfl
    · rw [hafter]
      have hfirst : Spares scratchPlaces s (withDisk s d) :=
        ⟨hd.mono (by simpa [scratchPlaces] using hname), List.suffix_rfl⟩
      exact hfirst.trans (ih _ hrest (hd.home ▸ hhome))

theorem entry?_removeFiles (names : List String) (s : ShellSession) (hnames : names ⊆ scratchFiles)
    (hhome : s.host.disk.home ∉ scratchFiles) (path : Path) :
    entry? (sessionAfter (removeFiles names) s).host.disk path = s.host.disk.entry? path ∨
      entry? (sessionAfter (removeFiles names) s).host.disk path = none := by
  induction names generalizing s with
  | nil => exact .inl rfl
  | cons name rest ih =>
    obtain ⟨hname, hrest⟩ := List.cons_subset.mp hnames
    rcases removeFiles_cons rest hname hhome with ⟨-, hafter⟩ | ⟨d, hd, hgone, hafter⟩
    · rw [hafter]
      exact .inl rfl
    · rw [hafter]
      have hnext := ih (withDisk s d) hrest (hd.home ▸ hhome)
      change _ = d.entry? path ∨ _ at hnext
      by_cases hpath : path = [name]
      · subst hpath
        rw [hgone, or_self] at hnext
        exact .inr hnext
      · rwa [hd.outside path (by simpa using hpath)] at hnext

/-- What is no directory is gone, if only no directory is met before it. -/
theorem entry?_removeFiles_eq_none (before after : List String) (name : String) (s : ShellSession)
    (hnames : before ++ name :: after ⊆ scratchFiles) (hhome : s.host.disk.home ∉ scratchFiles)
    (h : ∀ other ∈ before ++ [name], s.host.disk.entry? [other] ≠ some .directory) :
    entry? (sessionAfter (removeFiles (before ++ name :: after)) s).host.disk [name] = none := by
  induction before generalizing s with
  | nil =>
    rw [List.nil_append] at hnames h ⊢
    obtain ⟨hname, hrest⟩ := List.cons_subset.mp hnames
    rcases removeFiles_cons after hname hhome with ⟨hdir, -⟩ | ⟨d, hd, hgone, hafter⟩
    · exact absurd hdir (h name (by simp))
    · rw [hafter]
      rcases entry?_removeFiles after (withDisk s d) hrest (hd.home ▸ hhome) [name]
        with hkept | hnone
      · exact hkept.trans hgone
      · exact hnone
  | cons first before ih =>
    rw [List.cons_append] at hnames h ⊢
    obtain ⟨hfirst, hrest⟩ := List.cons_subset.mp hnames
    rcases removeFiles_cons (before ++ name :: after) hfirst hhome with
      ⟨hdir, -⟩ | ⟨d, hd, -, hafter⟩
    · exact absurd hdir (h first List.mem_cons_self)
    · rw [hafter]
      refine ih (withDisk s d) hrest (hd.home ▸ hhome) fun other hother => ?_
      rw [withDisk, ne_eq, hd.directory]
      exact h other (List.mem_cons_of_mem _ hother)

/-! ## The command -/

theorem sessionAfter_ensuring (cleanup action : Action Unit) (s : ShellSession) :
    sessionAfter (ensuring cleanup action) s = sessionAfter cleanup (sessionAfter action s) := by
  unfold sessionAfter ensuring
  cases action s with
  | ok _ t => rfl
  | error e t =>
    dsimp only
    cases cleanup t <;> rfl

theorem reporting_eq_ok (words : String) (action : Action Unit) (s : ShellSession) :
    ∃ t, reporting words action s = .ok () t ∧
      t.host.disk = (sessionAfter action s).host.disk := by
  unfold reporting sessionAfter
  cases action s with
  | ok _ t => exact ⟨t, rfl, rfl⟩
  | error e t =>
    obtain ⟨u, htell, hdisk, -⟩ := tell_eq_ok (words ++ e.message) t
    exact ⟨u, htell, hdisk⟩

theorem firstField?_ne_nil {text first : List Char} {rest : Option (List Char)}
    (h : Text.firstField? text = some (first, rest)) :
    first ≠ [] ∧ ∀ code, rest = some code → code ≠ [] := by
  unfold Text.firstField? at h
  dsimp only at h
  split_ifs at h with hfield hrest
  · cases h
    refine ⟨by simpa using hfield, ?_⟩
    rintro code ⟨⟩
  · cases h
    refine ⟨by simpa using hfield, ?_⟩
    rintro code ⟨⟩
    simpa using hrest

/-- The command does not break off before a program is started: there is a path, or there is code
and all of it can be written to its file. -/
def Proceeds (d : Disk) (argument : String) : Prop :=
  ∃ first rest, Text.firstField? argument.toList = some (first, rest) ∧
    (first = "-c".toList → ∃ code, rest = some code ∧
      d.entry? [Host.sourceFile] ≠ some .directory ∧
      d.cut? [Host.sourceFile] (.text (String.ofList code)) = none)

/-- The command breaks off while it writes code to its file, of which this is the beginning. -/
def StopsAt (d : Disk) (argument : String) (beginning : Content) : Prop :=
  ∃ code, Text.firstField? argument.toList = some ("-c".toList, some code) ∧
    d.entry? [Host.sourceFile] ≠ some .directory ∧
    d.cut? [Host.sourceFile] (.text (String.ofList code)) = some beginning

/-- Write code to its file, run it from there and clean up. -/
def runTyped (code : List Char) : Action Unit :=
  writeFile Host.sourceFile (String.ofList code) >>= fun _ =>
    ensuring (removeFiles scratchFiles) (runSource Host.sourceFile)

theorem run_of_code {argument : String} {code : List Char}
    (hfield : Text.firstField? argument.toList = some ("-c".toList, some code)) (s : ShellSession) :
    ∃ t, run argument s = .ok () t ∧
      t.host.disk = (sessionAfter (runTyped code) s).host.disk := by
  have hcode : String.ofList code ≠ "" := by
    simpa using (firstField?_ne_nil hfield).2 code rfl
  have hrun : run argument s = reporting "Execution error: " (runTyped code) s := by
    simp [run, hfield, runCode, hcode, runTyped]
  rw [hrun]
  exact reporting_eq_ok _ _ s

/-- A run that does not come to a write does nothing to the disk. -/
theorem run_of_refused {argument : String} {s : ShellSession}
    (hhome : s.host.disk.home ∉ scratchFiles) (h : ¬Proceeds s.host.disk argument)
    (hstops : ∀ beginning, ¬StopsAt s.host.disk argument beginning) :
    ∃ t, run argument s = .ok () t ∧ t.host.disk = s.host.disk := by
  cases hfield : Text.firstField? argument.toList with
  | none =>
    obtain ⟨t, htell, hdisk, -⟩ := tell_eq_ok "Error: Provide a file path or code." s
    refine ⟨t, ?_, hdisk⟩
    rw [run, hfield]
    exact htell
  | some parts =>
    obtain ⟨first, rest⟩ := parts
    obtain rfl : first = "-c".toList := by
      by_contra hne
      exact h ⟨first, rest, hfield, fun heq => absurd heq hne⟩
    cases rest with
    | none =>
      have hrun : run argument s = reporting "Execution error: " (throw .missingWord) s := by
        simp only [run, hfield, if_true]
      rw [hrun]
      exact reporting_eq_ok _ _ s
    | some code =>
      have hdir : s.host.disk.entry? [Host.sourceFile] = some .directory := by
        by_contra hne
        cases hcut : s.host.disk.cut? [Host.sourceFile] (.text (String.ofList code)) with
        | none => exact h ⟨_, _, hfield, fun _ => ⟨code, rfl, hne, hcut⟩⟩
        | some beginning => exact hstops beginning ⟨code, hfield, hne, hcut⟩
      have hfile : writeFile Host.sourceFile (String.ofList code) s =
          .error (.file ⟨.isDirectory, Host.sourceFile⟩) s := by
        rw [writeFile, writeText,
          write_refused (writable_scratch_of_directory (by simp [scratchFiles]) hhome hdir)]
      obtain ⟨t, hrun, hdisk⟩ := run_of_code hfield s
      exact ⟨t, hrun, by rw [hdisk, runTyped, sessionAfter_bind_of_error hfile]⟩

/-- A run that breaks off in its write leaves the beginning of the code. -/
theorem run_of_stopsAt {argument : String} {s : ShellSession} {beginning : Content}
    (hhome : s.host.disk.home ∉ scratchFiles) (h : StopsAt s.host.disk argument beginning) :
    ∃ t, run argument s = .ok () t ∧
      t.host.disk = s.host.disk.put [Host.sourceFile] (.file beginning) := by
  obtain ⟨code, hfield, hentry, hcut⟩ := h
  have hfile : writeFile Host.sourceFile (String.ofList code) s =
      .error (.file ⟨.noSpace, Host.sourceFile⟩)
        (withDisk s (s.host.disk.put [Host.sourceFile] (.file beginning))) := by
    rw [writeFile, writeText,
      write_stopped (writable_scratch_of_ne (by simp [scratchFiles]) hhome hentry) hcut]
    rfl
  obtain ⟨t, hrun, hdisk⟩ := run_of_code hfield s
  refine ⟨t, hrun, ?_⟩
  rw [hdisk, runTyped, sessionAfter_bind_of_error hfile]
  rfl

/-- A run that does not break off writes code that is given directly, starts programs and then
removes the scratch files. -/
theorem run_of_proceeds {argument : String} {s : ShellSession}
    (hhome : s.host.disk.home ∉ scratchFiles) (h : Proceeds s.host.disk argument) :
    ∃ d source t, AgreeOutside [[Host.sourceFile]] s.host.disk d ∧ run argument s = .ok () t ∧
      t.host.disk = (sessionAfter (removeFiles scratchFiles)
        (sessionAfter (runSource source) (withDisk s d))).host.disk := by
  obtain ⟨first, rest, hfield, hproceeds⟩ := h
  by_cases hfirst : first = "-c".toList
  · subst hfirst
    obtain ⟨code, rfl, hentry, hcut⟩ := hproceeds rfl
    have hfile : writeFile Host.sourceFile (String.ofList code) s = .ok ()
        (withDisk s (s.host.disk.put [Host.sourceFile] (.file (.text (String.ofList code))))) := by
      rw [writeFile, writeText,
        write_done (writable_scratch_of_ne (by simp [scratchFiles]) hhome hentry) hcut]
      rfl
    obtain ⟨t, hrun, hdisk⟩ := run_of_code hfield s
    refine ⟨_, Host.sourceFile, t, agreeOutside_put hentry (.text (String.ofList code)), hrun, ?_⟩
    rw [hdisk, runTyped, sessionAfter_bind_of_ok hfile, sessionAfter_ensuring]
  · have hfile : String.ofList first ≠ "" := by
      simpa using (firstField?_ne_nil hfield).1
    obtain ⟨t, hrun, hdisk⟩ :=
      reporting_eq_ok "Execution error: " (runCode "" (String.ofList first)) s
    refine ⟨s.host.disk, String.ofList first, t, .refl _ _, ?_, hdisk.trans ?_⟩
    · simp only [run, hfield, if_neg hfirst]
      exact hrun
    · simp only [runCode, hfile, decide_true, decide_false, Bool.true_and, Bool.false_eq_true,
        if_false, ne_eq, not_true_eq_false]
      rw [sessionAfter_ensuring]
      rfl

/-- A typed line that calls the command enters the memory first. -/
theorem typed_of_run {line argument text : String}
    (hline : Line.ofText line = .call "run" argument text) (s : ShellSession) :
    ∃ memory, ∀ t, run argument ⟨memory, s.host⟩ = .ok () t → typed line s = .ok false t := by
  let kept := if Text.isAllBlank line.toList then s.shell
    else { s.shell with history := s.shell.history ++ [line] }
  let last := if text = "EOF" then "" else text
  refine ⟨{ kept with last := last }, fun t hrun => ?_⟩
  have hkeep : keep line s = .ok () ⟨kept, s.host⟩ := rfl
  have hlast : remember (fun m => { m with last := last }) ⟨kept, s.host⟩ =
      .ok () ⟨{ kept with last := last }, s.host⟩ := rfl
  have hcommand : Command.ofName? "run" = some .run := by decide
  have hperform : perform .run argument ⟨{ kept with last := last }, s.host⟩ = .ok false t :=
    bind_of_ok hrun
  unfold typed
  rw [bind_of_ok hkeep, hline]
  refine (bind_of_ok hlast).trans ?_
  rw [hcommand]
  exact hperform

/-- Files at other places stay, and if no directory is in the way, none is left at the places of the
scratch files. -/
theorem run_eq_ok (argument : String) {s : ShellSession} (hs : Ready s) :
    ∃ t, run argument s = .ok () t ∧ AgreeOutside scratchPlaces s.host.disk t.host.disk ∧
      (Proceeds s.host.disk argument →
        (∀ path ∈ scratchPlaces, s.host.disk.entry? path ≠ some .directory) →
        ∀ path ∈ scratchPlaces, t.host.disk.entry? path = none) := by
  by_cases hproceeds : Proceeds s.host.disk argument
  · obtain ⟨d, source, t, hwritten, hrun, hdisk⟩ := run_of_proceeds hs.home hproceeds
    have hready : Ready (withDisk s d) := ⟨hwritten.home ▸ hs.home, hs.confined⟩
    have hprograms := tame_runSource source (withDisk s d) hready
    have hhome := (hready.of_spares hprograms).home
    have hremoved := spares_removeFiles scratchFiles _ (List.Subset.refl _) hhome
    have hbefore : AgreeOutside scratchPlaces s.host.disk
        (sessionAfter (runSource source) (withDisk s d)).host.disk :=
      (hwritten.mono (by decide)).trans (hprograms.disk.mono (by decide))
    refine ⟨t, hrun, hdisk ▸ hbefore.trans hremoved.disk, fun _ hdirs path hpath => ?_⟩
    obtain ⟨name, hname, rfl⟩ := List.mem_map.mp hpath
    obtain ⟨before, after, hsplit⟩ := List.append_of_mem hname
    rw [hdisk, hsplit]
    refine entry?_removeFiles_eq_none _ _ _ _ (by rw [hsplit]; exact List.Subset.refl _) hhome
      fun other hother => ?_
    rw [ne_eq, hbefore.directory]
    refine hdirs [other] (List.mem_map_of_mem ?_)
    rw [hsplit]
    simp only [List.mem_append, List.mem_cons] at hother ⊢
    tauto
  · by_cases hstops : ∃ beginning, StopsAt s.host.disk argument beginning
    · obtain ⟨beginning, hstops⟩ := hstops
      obtain ⟨t, hrun, hdisk⟩ := run_of_stopsAt hs.home hstops
      obtain ⟨code, -, hentry, -⟩ := hstops
      refine ⟨t, hrun, hdisk ▸ (agreeOutside_put hentry beginning).mono ?_,
        fun h => absurd h hproceeds⟩
      decide
    · obtain ⟨t, hrun, hdisk⟩ := run_of_refused hs.home hproceeds (not_exists.mp hstops)
      exact ⟨t, hrun, hdisk ▸ .refl _ _, fun h => absurd h hproceeds⟩

/-- A host whose first program removes the generated code and the compiled program and fails. -/
def failingHost (d : Disk) : Host :=
  { Host.ofDisk d with
    results := [⟨1, "", ""⟩]
    effects := [⟨[.remove Host.codeFile, .remove Host.programFile], none⟩] }

/-- The file at the place of a scratch file does not outlive every run. -/
theorem fileAt?_typed_failingHost {d : Disk} {line argument text : String} {t : ShellSession}
    {path : Path} {content : Content} (hline : Line.ofText line = .call "run" argument text)
    (hhome : d.home ∉ scratchFiles) (hproceeds : Proceeds d argument)
    (ht : typed line ⟨newState false, failingHost d⟩ = .ok false t) (hpath : path ∈ scratchPlaces)
    (hfile : d.fileAt? path = some content) : t.host.disk.fileAt? path = none := by
  obtain ⟨memory, htyped⟩ := typed_of_run hline ⟨newState false, failingHost d⟩
  obtain ⟨made, source, t', hwritten, hrun, hdisk⟩ :=
    @run_of_proceeds argument ⟨memory, failingHost d⟩ hhome hproceeds
  obtain rfl : t' = t := (EStateM.Result.ok.inj ((htyped t' hrun).symm.trans ht)).2
  have hmade : made.home ∉ scratchFiles := hwritten.home ▸ hhome
  have hfailed := disk_runSource_of_failure (s := withDisk ⟨memory, failingHost d⟩ made) rfl
    (by decide) rfl source
  set u := sessionAfter (runSource source) (withDisk ⟨memory, failingHost d⟩ made)
  have hcode : AgreeOutside [[Host.codeFile]] made (made.after (.remove Host.codeFile)) :=
    agreeOutside_after (.remove Host.codeFile) (locate_scratch (by decide) hmade)
  have hafter : (made.after (.remove Host.codeFile)).home ∉ scratchFiles := hcode.home ▸ hmade
  have hprogram : AgreeOutside [[Host.programFile]] (made.after (.remove Host.codeFile))
      u.host.disk := by
    rw [hfailed]
    exact agreeOutside_after (.remove Host.programFile) (locate_scratch (by decide) hafter)
  have hu : u.host.disk.home ∉ scratchFiles := hprogram.home ▸ hafter
  have hpaths : path = [Host.sourceFile] ∨ path = [Host.codeFile] ∨ path = [Host.programFile] := by
    simpa [scratchPlaces, scratchFiles] using hpath
  rw [hdisk]
  -- the first scratch file is removed by the command itself, the others are gone before
  have hgone (h : u.host.disk.fileAt? path = none) :
      (sessionAfter (removeFiles scratchFiles) u).host.disk.fileAt? path = none := by
    rcases entry?_removeFiles scratchFiles u (List.Subset.refl _) hu path with hkept | hnone
    · rwa [fileAt?, hkept]
    · exact fileAt?_of_entry? hnone
  rcases hpaths with rfl | rfl | rfl
  · refine fileAt?_of_entry? ?_
    refine entry?_removeFiles_eq_none [] _ _ _ (List.Subset.refl _) hu fun other hother => ?_
    obtain rfl : other = Host.sourceFile := by simpa using hother
    rw [ne_eq, hprogram.directory, hcode.directory, hwritten.directory]
    change ¬d.entry? _ = _
    simp [fileAt?_eq_some.mp hfile]
  · refine hgone ?_
    rw [hprogram.fileAt? (by decide)]
    exact fileAt?_after_remove (by decide) hmade
  · refine hgone ?_
    rw [hfailed]
    exact fileAt?_after_remove (by decide) hafter

/-! ## All runs in a working directory -/

/-- A session in this working directory, with programs that write and remove no files but the
generated code and the compiled program. -/
structure Stands (d : Disk) (s : ShellSession) : Prop where
  disk : s.host.disk = d
  confined : Confined s.host

theorem stands_failingHost (d : Disk) : Stands d ⟨newState false, failingHost d⟩ := by
  refine ⟨rfl, ?_⟩
  intro effect heffect action haction
  obtain rfl := List.mem_singleton.mp heffect
  fin_cases haction <;> decide

section

variable {d : Disk} {s t : ShellSession} {line argument text : String}
  (hline : Line.ofText line = .call "run" argument text) (hhome : d.home ∉ scratchFiles)
  (hs : Stands d s)

include hline hhome hs

theorem exists_typed : ∃ t, typed line s = .ok false t ∧
    AgreeOutside scratchPlaces d t.host.disk ∧ (Proceeds d argument →
      (∀ path ∈ scratchPlaces, d.entry? path ≠ some .directory) →
      ∀ path ∈ scratchPlaces, t.host.disk.entry? path = none) := by
  obtain ⟨rfl, hconfined⟩ := hs
  obtain ⟨memory, htyped⟩ := typed_of_run hline s
  obtain ⟨t, hrun, ht⟩ := @run_eq_ok argument ⟨memory, s.host⟩ ⟨hhome, hconfined⟩
  exact ⟨t, htyped t hrun, ht⟩

variable (ht : typed line s = .ok false t)

include ht

theorem agreeOutside_typed : AgreeOutside scratchPlaces d t.host.disk := by
  obtain ⟨t', ht', hdisk, -⟩ := exists_typed hline hhome hs
  obtain rfl : t' = t := (EStateM.Result.ok.inj (ht'.symm.trans ht)).2
  exact hdisk

theorem typed_of_stopsAt {beginning : Content} (h : StopsAt d argument beginning) :
    AgreeOutside [[Host.sourceFile]] d t.host.disk ∧
      t.host.disk.fileAt? [Host.sourceFile] = some beginning := by
  obtain ⟨rfl, -⟩ := hs
  obtain ⟨memory, htyped⟩ := typed_of_run hline s
  obtain ⟨t', hrun, hdisk⟩ := @run_of_stopsAt argument ⟨memory, s.host⟩ beginning hhome h
  obtain rfl : t' = t := (EStateM.Result.ok.inj ((htyped t' hrun).symm.trans ht)).2
  obtain ⟨code, -, hentry, -⟩ := h
  refine ⟨hdisk ▸ agreeOutside_put hentry beginning, ?_⟩
  rw [hdisk, fileAt?_eq_some]
  exact entry?_put_self (isGiven_scratch (by decide)) _

theorem typed_of_refused (h : ¬Proceeds d argument)
    (hstops : ∀ beginning, ¬StopsAt d argument beginning) : t.host.disk = d := by
  obtain ⟨rfl, -⟩ := hs
  obtain ⟨memory, htyped⟩ := typed_of_run hline s
  obtain ⟨t', hrun, hdisk⟩ := @run_of_refused argument ⟨memory, s.host⟩ hhome h hstops
  obtain rfl : t' = t := (EStateM.Result.ok.inj ((htyped t' hrun).symm.trans ht)).2
  exact hdisk

end

def oneFile (name content : String) : Disk :=
  ⟨"/home", [([name], .file (.text content))], []⟩

end Shell

end DrawPlus
