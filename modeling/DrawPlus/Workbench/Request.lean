/-!
# Menus and requests to the desktop

A menu is a list of commands, separators and menus below it. A command is found by the labels on the
way to it.

What the workbench asks of the desktop around it has one constructor for each kind: the looks of the
window, dialogs, pop-up menus, hints, programs to start and pictures to show.
-/

namespace DrawPlus

inductive MenuItem (α : Type) where
  | command (label : String) (action : α)
  | cascade (label : String) (items : List (MenuItem α))
  | separator

namespace MenuItem

variable {α : Type}

def action? (label : String) : List (MenuItem α) → Option α
  | [] => none
  | .command name action :: rest => if name = label then some action else action? label rest
  | _ :: rest => action? label rest

def below? (label : String) : List (MenuItem α) → Option (List (MenuItem α))
  | [] => none
  | .cascade name items :: rest => if name = label then some items else below? label rest
  | _ :: rest => below? label rest

def find? (items : List (MenuItem α)) : List String → Option α
  | [] => none
  | [label] => action? label items
  | label :: rest => (below? label items).bind fun inner => find? inner rest

end MenuItem

inductive Remedy where
  | none
  | replaceLine (line : Int) (text : String)
  | ignore
deriving DecidableEq

inductive Request where
  | title (text : String)
  | geometry (size : String)
  | leastSize (width height : Nat)
  | look (name : String)
  | style (target background foreground : String) (padding : Nat × Nat) (font : String × Nat)
  | selectedStyle (target background foreground : String)
  | quit
  | showError (title text : String)
  | showInfo (title text : String)
  | askYesNoCancel (title text : String)
  | askOpen
  | askSave (extension : String) (title : Option String)
  | popup (x y : Int) (items : List (MenuItem Remedy))
  | hint (place : String)
  | hintText (text : String)
  | closeHint
  | system (command : String)
  | picture (width height : Int)

end DrawPlus
