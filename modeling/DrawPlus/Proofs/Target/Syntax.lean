import DrawPlus.Emit.Code

/-!
# The generated language

Trees of the generated language, as far as programs are written in it, and how they are laid out:
operators in parentheses, four blanks for each level, a brace at the end of the line that opens a
block. A declaration, an assignment or a call is a `Simple` statement, which can also stand in the
header of a loop.

Nothing here knows about the trees of the source language.
-/

namespace DrawPlus.Target

inductive Expr where
  | word (w : String)
  | constant (text : String)
  | binary (left : Expr) (operator : String) (right : Expr)
  | cast (type : String) (operand : Expr)
  | call (function : String) (arguments : List Expr)

inductive Simple where
  | declare (type : String) (isPointer : Bool) (name : String) (value : Expr)
  | assign (target : String) (value : Expr)
  | assignMember (target member : String) (value : Expr)
  | call (function : String) (arguments : List Expr)

inductive Stmt where
  | simple (s : Simple)
  | branch (test : Expr) (body : List Stmt) (arms : List (Expr × List Stmt))
      (otherwise : Option (List Stmt))
  | whileLoop (test : Expr) (body : List Stmt)
  | forLoop (init : Simple) (test : Expr) (update : Simple) (body : List Stmt)

namespace Expr

mutual

def text : Expr → String
  | .word w => w
  | .constant t => t
  | .binary l op r => "(" ++ l.text ++ " " ++ op ++ " " ++ r.text ++ ")"
  | .cast type e => "(" ++ type ++ ")" ++ e.text
  | .call f es => f ++ "(" ++ ", ".intercalate (texts es) ++ ")"

def texts : List Expr → List String
  | [] => []
  | e :: es => e.text :: texts es

end

theorem texts_eq_map (es : List Expr) : texts es = es.map text := by
  induction es with
  | nil => rfl
  | cons e es ih => rw [texts, ih, List.map_cons]

end Expr

namespace Simple

/-- How a simple statement is written, without the semicolon that ends it. -/
def text : Simple → String
  | .declare type isPointer name e =>
    type ++ (if isPointer then "*" else "") ++ " " ++ name ++ " = " ++ e.text
  | .assign target e => target ++ " = " ++ e.text
  | .assignMember target member e => target ++ "->" ++ member ++ " = " ++ e.text
  | .call f es => f ++ "(" ++ ", ".intercalate (Expr.texts es) ++ ")"

def showing (cursor : String) : Simple :=
  .call "set_cursor_visibility" [.word cursor, .word "true"]

/-- The cursor that the statement shows, if it shows one. -/
def shown : Simple → List String
  | .call "set_cursor_visibility" (.word cursor :: _) => [cursor]
  | _ => []

end Simple

def indented (level : Nat) (text : String) : String :=
  String.ofList (List.replicate (4 * level) ' ') ++ text

namespace Stmt

mutual

def lines (level : Nat) : Stmt → List String
  | .simple s => [indented level (s.text ++ ";")]
  | .branch test body arms otherwise =>
    indented level ("if (" ++ test.text ++ ") \x7b") :: (linesAll (level + 1) body ++
      (armLines level arms ++ (otherwiseLines level otherwise ++ [indented level "\x7d"])))
  | .whileLoop test body =>
    indented level ("while (" ++ test.text ++ ") \x7b") ::
      (linesAll (level + 1) body ++ [indented level "\x7d"])
  | .forLoop init test update body =>
    indented level ("for (" ++ init.text ++ "; " ++ test.text ++ "; " ++ update.text ++ ") \x7b") ::
      (linesAll (level + 1) body ++ [indented level "\x7d"])

def linesAll (level : Nat) : List Stmt → List String
  | [] => []
  | s :: rest => s.lines level ++ linesAll level rest

/-- The lines of the further conditions of a branch with their blocks. -/
def armLines (level : Nat) : List (Expr × List Stmt) → List String
  | [] => []
  | (test, body) :: rest =>
    indented level ("\x7d else if (" ++ test.text ++ ") \x7b") ::
      (linesAll (level + 1) body ++ armLines level rest)

def otherwiseLines (level : Nat) : Option (List Stmt) → List String
  | none => []
  | some block => indented level "\x7d else \x7b" :: linesAll (level + 1) block

end

mutual

/-- The cursors that a statement shows, in the order of the text. -/
def shown : Stmt → List String
  | .simple s => s.shown
  | .branch _ body arms otherwise =>
    shownAll body ++ (shownArms arms ++ shownOtherwise otherwise)
  | .whileLoop _ body => shownAll body
  | .forLoop _ _ _ body => shownAll body

def shownAll : List Stmt → List String
  | [] => []
  | s :: rest => s.shown ++ shownAll rest

/-- The cursors that are shown in the further blocks of a branch. -/
def shownArms : List (Expr × List Stmt) → List String
  | [] => []
  | (_, body) :: rest => shownAll body ++ shownArms rest

/-- The cursors that are shown in the last block of a branch. -/
def shownOtherwise : Option (List Stmt) → List String
  | none => []
  | some block => shownAll block

end

end Stmt

/-! ## Programs -/

/-- What stands before the statements of every program. -/
def openingLines : List String :=
  ["#include \"../lib/DPP/include/drawpp.h\"", "#include <stdio.h>", "#include <stdbool.h>",
    "#include <math.h>", "", "int main(int argc, char* argv[]) \x7b"].map (indented 0) ++
  ["printf(\"Initializing SDL...\\n\");", "if (!initialize_SDL()) \x7b"].map (indented 1) ++
  ["printf(\"Failed to initialize SDL\\n\");", "return 1;"].map (indented 2) ++
  ["\x7d", ""].map (indented 1)

/-- What stands after the statements of every program. -/
def closingLines : List String :=
  ["SDL_Delay(130);", "printf(\"Presenting renderer...\\n\");", "SDL_RenderPresent(renderer);", "",
    "printf(\"Saving output image...\\n\");",
    "SDL_Surface* surface = SDL_CreateRGBSurfaceWithFormat("].map (indented 1) ++
  ["0, windowWidth, windowHeight, 32, SDL_PIXELFORMAT_RGBA8888);"].map (indented 2) ++
  ["", "if (!surface) \x7b"].map (indented 1) ++
  ["printf(\"Failed to create surface\\n\");", "cleanup_SDL();", "return 1;"].map (indented 2) ++
  ["\x7d", "", "if (SDL_RenderReadPixels(renderer, NULL, surface->format->format, " ++
    "surface->pixels, surface->pitch) != 0) \x7b"].map (indented 1) ++
  ["printf(\"Failed to read pixels: %s\\n\", SDL_GetError());"].map (indented 2) ++
  ["\x7d", "else if (SDL_SaveBMP(surface, \"output.bmp\") != 0) \x7b"].map (indented 1) ++
  ["printf(\"Failed to save BMP: %s\\n\", SDL_GetError());"].map (indented 2) ++
  ["\x7d else \x7b"].map (indented 1) ++
  ["printf(\"Image saved as output.bmp\\n\");"].map (indented 2) ++
  ["\x7d", "", "SDL_FreeSurface(surface);", "", "printf(\"Cleaning up...\\n\");", "cleanup_SDL();",
    "", "printf(\"Done!\\n\");", "return 0;"].map (indented 1) ++
  ["\x7d"].map (indented 0)

/-- The lines that show cursors once more, after a line that tells a reader why. -/
def showingLines : List String → List String
  | [] => []
  | cursors => indented 1 "// Dessiner les curseurs visibles après les formes" ::
      cursors.map fun cursor => indented 1 ((Simple.showing cursor).text ++ ";")

/-- The lines of the program with the given statements. -/
def programLines (body : List Stmt) : List String :=
  openingLines ++ (Stmt.linesAll 1 body ++ (showingLines (Stmt.shownAll body) ++ closingLines))

/-- The text of the program with the given statements. -/
def programText (body : List Stmt) : String := "\n".intercalate (programLines body)

end DrawPlus.Target
