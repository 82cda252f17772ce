/-!
# Settings of the workbench

Title, size, colours, font and keys.
-/

namespace DrawPlus.Settings

def title : String := "Draw++"

def dimensions : String := "1200x800"

def leastSize : Nat × Nat := (800, 600)

structure Theme where
  background : String
  foreground : String
  button : String
  border : String
  accent : String
deriving DecidableEq

def theme : Theme := ⟨"#ffffff", "#333333", "#f0f0f0", "#dddddd", "#007acc"⟩

def look : String := "clam"

def fontFamily : String := "Consolas"

def fontSize : Nat := 12

def tabFontSize : Nat := 10

def tabPadding : Nat × Nat := (5, 2)

def selectedForeground : String := "#ffffff"

structure Shortcuts where
  newFile : String
  openFile : String
  saveFile : String
  closeTab : String
  selectAll : String
  run : String
deriving DecidableEq

def shortcuts : Shortcuts :=
  ⟨"<Control-n>", "<Control-o>", "<Control-s>", "<Control-w>", "<Control-a>", "<Control-e>"⟩

structure Release where
  name : String
  version : String
  packages : List String
deriving DecidableEq

def release : Release where
  name := "cytech-project-drawpp-ing1-20242025"
  version := "1.0"
  packages := ["compiler", "compiler.codegen", "compiler.lexer", "compiler.parser",
    "compiler.semantic", "ide", "ide.components", "ide.config", "ide.utils"]

end DrawPlus.Settings
