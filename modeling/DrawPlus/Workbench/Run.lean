import DrawPlus.Workbench.Basic
import DrawPlus.Workbench.Preview

/-!
# Running the selected text

The text is written to a file, built, compiled and run by commands to the desktop. The picture
that the program leaves is shown in the tab and can be saved under another name.
-/

namespace DrawPlus.Workbench

/-- An attempt that fails with a message; what was done before stays done. -/
abbrev Attempt := EStateM String Workbench

/-- Make an attempt; a failure is shown after some words. -/
def trying (words : String) (attempt : Attempt Unit) (w : Workbench) : Workbench :=
  match attempt w with
  | .ok () w => w
  | .error message w => w.request (.showError "Error" (words ++ message))

/-- The file that a compiled program leaves its picture in. -/
def pictureFile : String := "output.bmp"

def store (path : String) (content : Content) : Attempt Unit := fun w =>
  match Disk.write path content w.host.disk with
  | .ok () disk => .ok () (w.withDisk disk)
  | .error e disk => .error e.message (w.withDisk disk)

/-- Give the desktop a command; its exit code is the answer. -/
def system (command : String) : Attempt Int := fun w =>
  let result := w.systemResults.headD (.ended 0)
  let w := { w.request (.system command) with systemResults := w.systemResults.tail }
  match result with
  | .ended code => .ok code w
  | .failed message => .error message w

/-- Run the compiled program, which may leave a picture. -/
def runProgram : Attempt Unit := do
  let _ ← system Host.runCommand
  match (← get).drawing with
  | none => return
  | some content => store pictureFile content

def fullPath (w : Workbench) (path : String) : String :=
  w.host.disk.fullText (w.host.disk.absolute path)

def pictureSize (w : Workbench) (path : String) : Except String (Nat × Nat) :=
  let full := w.fullPath path
  match w.host.disk.contentOf full with
  | .error e => .error e.message
  | .ok (.picture width height _) => .ok (width, height)
  | .ok _ => .error ("cannot identify image file " ++ Text.quoted full)

def previewSize (w : Workbench) (path : String) : Except String (Int × Int) :=
  match w.pictureSize path with
  | .error message => .error message
  | .ok (width, height) =>
    match Preview.fitted width height with
    | .error e => .error e.message
    | .ok (shownWidth, shownHeight) =>
      if shownWidth < 1 ∨ shownHeight < 1 then .error PreviewError.empty.message
      else .ok (shownWidth, shownHeight)

/-- Show the picture in a file in the selected tab, or print why it cannot be shown. -/
def updatePreview (w : Workbench) (path : String) : Workbench :=
  match w.previewSize path with
  | .ok (width, height) =>
    (w.request (.picture width height)).modifyCurrent fun tab => { tab with preview := "" }
  | .error message => w.print (Preview.failureLine message)

/-- The steps of a run. A text that cannot be built is reported; code that does not compile is
passed over. -/
def runText (text : String) : Attempt Unit := do
  store Host.sourceFile (.text text)
  let code ← system (Host.buildCommand Host.sourceFile)
  if code ≠ 0 then
    modify fun w => w.request (.showError "Error" "Compilation of Draw++ to C failed.")
  else
    let code ← system Host.linkCommand
    if code = 0 then
      runProgram
      modify fun w => { w.updatePreview pictureFile with drawn := some pictureFile }

def run (w : Workbench) : Workbench :=
  match w.current? with
  | none => w
  | some tab => trying "An error occurred during execution: " (runText tab.editor.text) w

/-- What reading a saved picture as a text runs into: its first byte begins no character. -/
def savedFault : Utf8Error := ⟨.start, 0x89, 0, 1⟩

/-- Let the user choose where to save the picture in a file. -/
def savePicture (path : String) : Attempt Unit := do
  match (← get).pictureSize path with
  | .error message => throw message
  | .ok (width, height) =>
    let (reply, w) := (← get).ask (.askSave ".png" (some "Save Image As"))
    set w
    match reply.path? with
    | none => modify fun w => w.request (.showInfo "Cancelled" "Image download cancelled.")
    | some chosen =>
      store (w.fullPath chosen) (.picture width height savedFault)
      modify fun w => w.request (.showInfo "Success" ("Image saved successfully as " ++ chosen))

/-- Save the picture of the last run under another name. -/
def downloadPicture (w : Workbench) : Workbench :=
  match w.drawn with
  | none => w.request (.showError "Error" "No image found to download.")
  | some path =>
    if w.host.disk.holds path then trying "Failed to download image: " (savePicture path) w
    else w.request (.showError "Error" "No image found to download.")

end DrawPlus.Workbench
