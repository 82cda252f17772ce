import DrawPlus.Shell.Basic
import DrawPlus.Shell.Console
import DrawPlus.Workbench.Editor

/-!
# The workbench

The workbench is a row of tabs, one of which is selected. A tab has an editor, a shell and a
preview. Which file a tab belongs to is written down in a table of its own under the tab's number,
where a tab made empty on purpose has an entry without a path.

Everything the workbench asks of the desktop is kept in order in `requests`, and what the user
answers in the dialogs is taken from `replies`. A file dialog without reply counts as cancelled, and
so does a question.
-/

namespace DrawPlus

inductive Reply where
  | nothing
  | yes
  | no
  | text (s : String)
deriving DecidableEq

/-- The path chosen in a file dialog, if one was. -/
def Reply.path? : Reply → Option String
  | .text s => if s = "" then none else some s
  | _ => none

/-- What is to happen to a text whose tab is to be closed. -/
inductive Decision where
  | cancel
  | discard
  | save
deriving DecidableEq

/-- The decision that a reply stands for. -/
def Reply.decision : Reply → Decision
  | .nothing => .cancel
  | .no => .discard
  | .yes => .save
  | .text s => if s = "" then .discard else .save

/-- What a command to the desktop comes to: it ends with a code, or it cannot be given. -/
inductive SystemResult where
  | ended (code : Int)
  | failed (message : String)
deriving DecidableEq

/-- A tab; `preview` is the text in the place of the picture. -/
structure Tab where
  id : Nat
  title : String
  editor : Editor
  shell : ShellState
  preview : String

structure Workbench where
  /-- what every new editor holds -/
  template : String
  tabs : List Tab
  /-- the place of the selected tab in the row -/
  selected : Nat
  /-- the number of the next tab -/
  nextId : Nat
  paths : List (Nat × Option String)
  /-- the tabs whose text is to be checked soon -/
  timers : List Nat
  /-- the last pop-up menu and the tab it belongs to -/
  popup : Option (Nat × List (MenuItem Remedy))
  /-- the file that holds the picture drawn by the last run -/
  drawn : Option String
  host : Host
  /-- what the next commands to the desktop come to -/
  systemResults : List SystemResult
  /-- what a compiled program leaves in the picture file -/
  drawing : Option Content
  replies : List Reply
  requests : List Request

inductive NoTab where
  | noTab
deriving DecidableEq

def NoTab.message : NoTab → String
  | .noTab => "Invalid slave specification "

namespace Workbench

def current? (w : Workbench) : Option Tab :=
  w.tabs[w.selected]?

def modifyCurrent (w : Workbench) (f : Tab → Tab) : Workbench :=
  { w with tabs := w.tabs.modify w.selected f }

def modifyEditor (w : Workbench) (f : Editor → Editor) : Workbench :=
  w.modifyCurrent fun tab => { tab with editor := f tab.editor }

def modifyHighlights (w : Workbench) (f : Highlights → Highlights) : Workbench :=
  w.modifyEditor fun e => { e with highlights := f e.highlights }

/-- Change the editor of a tab by its number; nothing happens if the tab is closed. -/
def modifyEditorOf (w : Workbench) (id : Nat) (f : Editor → Editor) : Workbench :=
  { w with tabs := w.tabs.map fun tab =>
      if tab.id = id then { tab with editor := f tab.editor } else tab }

def request (w : Workbench) (r : Request) : Workbench :=
  { w with requests := w.requests ++ [r] }

def ask (w : Workbench) (r : Request) : Reply × Workbench :=
  (w.replies.headD .nothing, { w.request r with replies := w.replies.tail })

def print (w : Workbench) (text : String) : Workbench :=
  { w with host := w.host.print text }

def withDisk (w : Workbench) (disk : Disk) : Workbench :=
  { w with host := { w.host with disk := disk } }

/-- The path of a tab's file, if it has one. -/
def pathOf (w : Workbench) (id : Nat) : Option String :=
  (w.paths.lookup id).join

def setPath (w : Workbench) (id : Nat) (path : Option String) : Workbench :=
  { w with paths := Table.insert id path w.paths }

/-! ## Tabs -/

/-- What stands in the place of a picture before there is one. -/
def emptyPreview : String := "Preview Area"

def untitled : String := "Untitled"

/-- Add a tab at the end of the row and select it. Its shell greets on its own screen. -/
def addTab (w : Workbench) (title : String) : Workbench :=
  let session := Shell.opened true w.host
  let tab : Tab := ⟨w.nextId, title, Editor.ofText w.template, session.shell, emptyPreview⟩
  { w with
    tabs := w.tabs ++ [tab]
    selected := w.tabs.length
    nextId := w.nextId + 1
    host := session.host }

def select (w : Workbench) (place : Nat) : Workbench :=
  if place < w.tabs.length then { w with selected := place } else w

/-- Take the selected tab out of the row. The one behind it is selected, or the last. -/
def dropCurrent (w : Workbench) : Workbench :=
  let tabs := w.tabs.eraseIdx w.selected
  { w with tabs := tabs, selected := min w.selected (tabs.length - 1) }

/-! ## Files -/

def newFile (w : Workbench) : Workbench :=
  (w.addTab untitled).setPath w.nextId none

/-- Let the user choose a file and open it in a tab. Its text precedes what every new editor
holds. -/
def openFile (w : Workbench) : Workbench :=
  let (reply, w) := w.ask .askOpen
  match reply.path? with
  | none => w
  | some path =>
    match w.host.disk.readText path with
    | .error e => w.request (.showError "Error" ("Unable to open file:\n" ++ e.message))
    | .ok content =>
      let opened := (w.addTab (baseName path)).modifyEditor fun e =>
        { e with text := content ++ e.text }
      opened.setPath w.nextId (some path)

/-- Write the selected tab's text to a file, which becomes the tab's file. If this fails, then what
was written before stays. -/
def saveAs (w : Workbench) (tab : Tab) (path : String) : Workbench :=
  match Disk.writeText path tab.editor.text w.host.disk with
  | .error e disk =>
    (w.withDisk disk).request (.showError "Error" ("Unable to save file:\n" ++ e.message))
  | .ok () disk =>
    ((w.withDisk disk).setPath tab.id (some path)).modifyCurrent fun t =>
      { t with title := baseName path }

/-- Save the selected tab to its file, or to one that the user chooses. -/
def saveFile (w : Workbench) : Workbench :=
  match w.current? with
  | none => w
  | some tab =>
    match w.pathOf tab.id with
    | some path => w.saveAs tab path
    | none =>
      let (reply, w) := w.ask (.askSave ".txt" none)
      match reply.path? with
      | none => w
      | some path => w.saveAs tab path

def discardTab (w : Workbench) (tab : Tab) : Workbench :=
  { w.dropCurrent with paths := Table.erase tab.id w.paths }

/-- Close the selected tab. Unless its text is blank, the user is asked whether to save it first. -/
def closeTab (w : Workbench) : Except NoTab Workbench :=
  match w.current? with
  | none => .error .noTab
  | some tab =>
    if tab.editor.isBlank then .ok (w.discardTab tab)
    else
      let (reply, w) :=
        w.ask (.askYesNoCancel "Close Tab" "Do you want to save changes before closing?")
      match reply.decision with
      | .cancel => .ok w
      | .discard => .ok (w.discardTab tab)
      | .save => .ok (w.saveFile.discardTab tab)

/-! ## Editing -/

/-- Replace the text of the selected tab, and have it checked soon. -/
def edit (w : Workbench) (text : String) : Workbench :=
  match w.current? with
  | none => w
  | some tab =>
    { w.modifyEditor fun e => { e with text := text } with
      timers := w.timers.filter (· != tab.id) ++ [tab.id] }

/-- Check every text that is due. -/
def tick (w : Workbench) : Workbench :=
  w.timers.foldl (fun w id => w.modifyEditorOf id Editor.check) { w with timers := [] }

def selectAll (w : Workbench) : Workbench :=
  w.modifyEditor Editor.selectAll

/-- Open the menu for the fault at a height of the editor, if there is one. -/
def openMenu (w : Workbench) (y screenX screenY : Int) : Workbench :=
  match w.current? with
  | none => w
  | some tab =>
    match tab.editor.menuAt? y with
    | none => w
    | some items =>
      { w.request (.popup screenX screenY items) with popup := some (tab.id, items) }

def choose (w : Workbench) (labels : List String) : Workbench :=
  match w.popup with
  | none => w
  | some (id, items) =>
    match MenuItem.find? items labels with
    | none => w
    | some remedy => w.modifyEditorOf id fun e => e.apply remedy

def hover (w : Workbench) (y screenX screenY : Int) : Workbench :=
  match w.current? with
  | none => w
  | some tab =>
    let (requests, editor) := tab.editor.hover y screenX screenY
    { w.modifyEditor fun _ => editor with requests := w.requests ++ requests }

/-- Move the pointer away from the selected editor; none before its first hint. -/
def leave? (w : Workbench) : Option Workbench :=
  match w.current? with
  | none => none
  | some tab =>
    (tab.editor.leave?).map fun requests => { w with requests := w.requests ++ requests }

/-- Type a command at the end of the selected tab's screen. The last line of the screen, without
blanks around it, is carried out between two line ends. -/
def command (w : Workbench) (text : String) : Workbench :=
  match w.current? with
  | none => w
  | some tab =>
    let screen := tab.shell.screen.getD "" ++ text
    let line := String.ofList (Text.trim (Console.lastLine screen).toList)
    let session : ShellSession := ⟨{ tab.shell with screen := some (screen ++ "\n") }, w.host⟩
    let after := match Shell.typed line session with
      | .ok _ s => s
      | .error _ s => s
    let shell := { after.shell with screen := after.shell.screen.map (· ++ "\n") }
    { w.modifyCurrent fun t => { t with shell := shell } with host := after.host }

end Workbench

end DrawPlus
