import DrawPlus.Workbench.Run
import DrawPlus.Workbench.Settings

/-!
# Commands of the workbench

The commands stand in the menu bar, and most of them are also called by a key. A workbench is
opened by setting up its window and adding a first tab.
-/

namespace DrawPlus

namespace Workbench

inductive Command where
  | newFile | openFile | saveFile | downloadPicture | closeTab | quit | run | about | selectAll
deriving DecidableEq

def menuBar : List (MenuItem Command) :=
  [.cascade "File"
      [.command "New" .newFile, .command "Open" .openFile, .command "Save" .saveFile,
        .command "Download Image" .downloadPicture, .command "Close Tab" .closeTab, .separator,
        .command "Exit" .quit],
    .cascade "Run" [.command "Run" .run],
    .cascade "Help" [.command "About" .about]]

/-- The keys and the commands that they call, in the order of the keys. -/
def keys : List (String × Command) :=
  let s := Settings.shortcuts
  [(s.selectAll, .selectAll), (s.run, .run), (s.newFile, .newFile), (s.openFile, .openFile),
    (s.saveFile, .saveFile), (s.closeTab, .closeTab)]

def perform (w : Workbench) : Command → Except NoTab Workbench
  | .newFile => .ok w.newFile
  | .openFile => .ok w.openFile
  | .saveFile => .ok w.saveFile
  | .downloadPicture => .ok w.downloadPicture
  | .closeTab => w.closeTab
  | .quit => .ok (w.request .quit)
  | .run => .ok w.run
  | .about => .ok (w.request (.showInfo "About" "Draw++ IDE\nVersion 1.0"))
  | .selectAll => .ok w.selectAll

/-- What is asked of the desktop to set up the window. -/
def windowRequests : List Request :=
  let theme := Settings.theme
  [.title Settings.title,
    .geometry Settings.dimensions,
    .leastSize Settings.leastSize.1 Settings.leastSize.2,
    .look Settings.look,
    .style "TNotebook.Tab" theme.button theme.foreground Settings.tabPadding
      (Settings.fontFamily, Settings.tabFontSize),
    .selectedStyle "TNotebook.Tab" theme.accent Settings.selectedForeground]

def empty (template : String) (host : Host) (systemResults : List SystemResult)
    (drawing : Option Content) : Workbench where
  template := template
  tabs := []
  selected := 0
  nextId := 0
  paths := []
  timers := []
  popup := none
  drawn := none
  host := host
  systemResults := systemResults
  drawing := drawing
  replies := []
  requests := []

/-- A workbench with its window and a first tab, which has no entry in the table of files. -/
def opened (template : String) (host : Host) (systemResults : List SystemResult)
    (drawing : Option Content) : Workbench :=
  { empty template host systemResults drawing with requests := windowRequests }.addTab untitled

end Workbench

end DrawPlus
