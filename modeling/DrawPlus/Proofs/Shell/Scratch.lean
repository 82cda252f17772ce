import DrawPlus.Proofs.Building.Files
import DrawPlus.Shell.Basic

/-!
# The scratch files of the shell

Code that is typed in, the code generated for it and the compiled program have fixed names, which
are looked up in the working directory. The lemmas say what writing and removing a file of such a
name does, by what stands at its place.
-/

namespace DrawPlus

namespace Disk

variable {d d' : Disk}

/-- What was removed is the file at one place. -/
theorem remove_eq_ok {text : String} (h : d.remove text = .ok d') :
    ∃ place content, d.locate text = .ok place ∧ d.entry? place.path = some (.file content) ∧
      d' = d.erase place.path := by
  unfold remove find at h
  simp only [bind, Except.bind] at h
  cases hplace : d.locate text with
  | error fault => simp [hplace] at h
  | ok place =>
    cases hlook : d.look place.path with
    | error fault => simp [hplace, hlook] at h
    | ok entry =>
      rcases entry with - | - | content
      · simp [hplace, hlook] at h
      · simp [hplace, hlook] at h
      · refine ⟨place, content, rfl, (look_eq_ok.mp hlook).2, ?_⟩
        cases hslash : place.endsInSlash with
        | true => simp [hplace, hlook, hslash] at h
        | false => simpa [hplace, hlook, hslash] using h.symm

/-- A program that writes or removes a file changes what stands at its place. -/
theorem agreeOutside_after (action : FileAction) {place : Place}
    (h : d.locate action.path = .ok place) : AgreeOutside [place.path] d (d.after action) := by
  cases action with
  | write text content =>
    rw [after]
    cases hwritable : d.writable text with
    | error fault =>
      rw [write_refused hwritable]
      exact .refl _ d
    | ok path =>
      obtain ⟨hplace, -, hentry⟩ := locate_of_writable hwritable
      obtain rfl : ⟨path, false⟩ = place := Except.ok.inj (hplace.symm.trans h)
      cases hcut : d.cut? path content with
      | none =>
        rw [write_done hwritable hcut]
        exact agreeOutside_put hentry content
      | some beginning =>
        rw [write_stopped hwritable hcut]
        exact agreeOutside_put hentry beginning
  | remove text =>
    cases hremove : d.remove text with
    | error e =>
      rw [after, hremove]
      exact .refl _ d
    | ok d' =>
      obtain ⟨found, content, hplace, hentry, rfl⟩ := remove_eq_ok hremove
      obtain rfl : found = place := Except.ok.inj (hplace.symm.trans h)
      rw [after, hremove]
      exact agreeOutside_erase (by simp [hentry])

end Disk

namespace Shell

open Disk

def scratchPlaces : List Path := scratchFiles.map ([·])

section

variable {d : Disk} {name : String}

theorem scratch_cases (h : name ∈ scratchFiles) :
    name = "temp.dpp" ∨ name = "temp.c" ∨ name = "temp_program" := by
  simpa [scratchFiles, Host.sourceFile, Host.codeFile, Host.programFile] using h

/-- A name without a slash does not start with a directory. -/
theorem not_isPrefixOf_of_notMem {above text : List Char} (h : '/' ∉ text) :
    (above ++ ['/']).isPrefixOf text = false := by
  rw [Bool.eq_false_iff, ne_eq, List.isPrefixOf_iff_prefix]
  rintro ⟨rest, rfl⟩
  simp at h

/-- A scratch file is looked up in the working directory. -/
theorem locate_scratch (hname : name ∈ scratchFiles) (hhome : d.home ∉ scratchFiles) :
    d.locate name = .ok ⟨[name], false⟩ := by
  have hne : name ≠ d.home := by
    rintro rfl
    exact hhome hname
  have hslash : '/' ∉ name.toList := by
    rcases scratch_cases hname with rfl | rfl | rfl <;> decide
  have hroute : d.route name = ((Path.rootOf? name.toList).toList, pieces name.toList) := by
    simp only [route, if_neg hne, String.toList_append]
    rw [show "/".toList = ['/'] from rfl, not_isPrefixOf_of_notMem hslash]
    rfl
  have hnamed : Path.isMalformed name = false ∧ name ≠ "" ∧ ¬Path.textLimit < name.utf8ByteSize ∧
      (Path.rootOf? name.toList).toList = [] ∧ pieces name.toList = [name] ∧ name ≠ "." ∧
      name ≠ Path.up := by
    rcases scratch_cases hname with rfl | rfl | rfl <;> decide
  obtain ⟨hformed, hempty, hshort, hroot, hpieces, hpoint, hup⟩ := hnamed
  rw [locate, hroute, hroot, hpieces]
  simp [hformed, hempty, hshort, hpoint, hup, follow]

theorem endsTooLong_scratch (hname : name ∈ scratchFiles) : Path.endsTooLong [name] = false := by
  rcases scratch_cases hname with rfl | rfl | rfl <;> decide

theorem isGiven_scratch (hname : name ∈ scratchFiles) : Path.isGiven [name] = false := by
  rcases scratch_cases hname with rfl | rfl | rfl <;> decide

theorem look_scratch (hname : name ∈ scratchFiles) : d.look [name] = .ok (d.entry? [name]) := by
  rw [look, endsTooLong_scratch hname]
  rfl

section

variable (hname : name ∈ scratchFiles) (hhome : d.home ∉ scratchFiles)

include hname hhome

theorem writable_scratch_of_directory (h : d.entry? [name] = some .directory) :
    d.writable name = .error .isDirectory := by
  simp [writable, locate_scratch hname hhome, look_scratch hname, h, bind, Except.bind]

theorem writable_scratch_of_ne (h : d.entry? [name] ≠ some .directory) :
    d.writable name = .ok [name] := by
  simp only [writable, locate_scratch hname hhome, look_scratch hname, bind, Except.bind]
  rcases hentry : d.entry? [name] with - | - | held
  · rfl
  · exact absurd hentry h
  · rfl

theorem find_scratch : d.find name = (d.entry? [name]).elim (.error .missing) .ok := by
  simp only [find, locate_scratch hname hhome, look_scratch hname, bind, Except.bind]
  rcases d.entry? [name] with - | - | content <;> rfl

theorem holds_scratch : d.holds name = (d.entry? [name]).isSome := by
  rw [holds, find_scratch hname hhome]
  cases d.entry? [name] <;> rfl

theorem remove_scratch_of_file {content : Content} (h : d.entry? [name] = some (.file content)) :
    d.remove name = .ok (d.erase [name]) := by
  simp [remove, find_scratch hname hhome, locate_scratch hname hhome, h]

theorem remove_scratch_of_directory (h : d.entry? [name] = some .directory) :
    d.remove name = .error ⟨.isDirectory, name⟩ := by
  simp [remove, find_scratch hname hhome, h]

/-- A program that removes a scratch file leaves none. -/
theorem fileAt?_after_remove : (d.after (.remove name)).fileAt? [name] = none := by
  rcases hentry : d.entry? [name] with - | - | content
  · have hremove : d.remove name = .error ⟨.missing, name⟩ := by
      simp [remove, find_scratch hname hhome, hentry]
    simp [after, hremove, Except.toOption, fileAt?, hentry]
  · simp [after, remove_scratch_of_directory hname hhome hentry, Except.toOption, fileAt?, hentry]
  · rw [after, remove_scratch_of_file hname hhome hentry]
    exact fileAt?_of_entry? (entry?_erase_self (isGiven_scratch hname))

end

end

end Shell

end DrawPlus
