import DrawPlus.Canvas.Basic
import DrawPlus.Main
import DrawPlus.Workbench.Command
import DrawPlus.Proofs.Grammar
import DrawPlus.Proofs.Lexemes
import DrawPlus.Proofs.LowerCase
import DrawPlus.Proofs.Parsing.Expressions
import DrawPlus.Proofs.Parsing.Statements
import DrawPlus.Proofs.Parsing.Programs
import DrawPlus.Proofs.Target.Syntax
import DrawPlus.Proofs.Numbers.Display
import DrawPlus.Proofs.Target.Translation
import DrawPlus.Proofs.Target.Emission
import DrawPlus.Proofs.Target.Acceptance
import DrawPlus.Proofs.Target.Blocks
import DrawPlus.Proofs.Target.Lexing
import DrawPlus.Proofs.Target.Reading
import DrawPlus.Proofs.Target.Faithfulness
import DrawPlus.Proofs.Target.Order
import DrawPlus.Proofs.Target.BlockScope
import DrawPlus.Proofs.Scanning.Cut
import DrawPlus.Proofs.Scanning.Positions
import DrawPlus.Proofs.Parsing.Forms
import DrawPlus.Proofs.Parsing.WindowNames
import DrawPlus.Proofs.Scope.Decision
import DrawPlus.Proofs.Scope.Operands
import DrawPlus.Proofs.Scope.Accesses
import DrawPlus.Proofs.Scope.Growth
import DrawPlus.Proofs.Scope.Replacement
import DrawPlus.Proofs.Scope.Refusals
import DrawPlus.Proofs.Target.Library
import DrawPlus.Proofs.Building.Files
import DrawPlus.Proofs.Building.Runs
import DrawPlus.Proofs.Parsing.Progress
import DrawPlus.Proofs.Parsing.Congruence
import DrawPlus.Proofs.Parsing.Runs
import DrawPlus.Proofs.Parsing.Completion
import DrawPlus.Proofs.Parsing.FirstError
import DrawPlus.Proofs.Parsing.Complaints
import DrawPlus.Proofs.Parsing.Stopping
import DrawPlus.Proofs.Scanning.Items
import DrawPlus.Proofs.Scanning.Rendering
import DrawPlus.Proofs.Scanning.Separators
import DrawPlus.Proofs.Scanning.Lines
import DrawPlus.Proofs.Parsing.Printing
import DrawPlus.Proofs.Parsing.ReadBack
import DrawPlus.Proofs.Diagnosis.Phrases
import DrawPlus.Proofs.Diagnosis.Agreement
import DrawPlus.Proofs.Diagnosis.NamedLine
import DrawPlus.Proofs.Diagnosis.LexicalLines
import DrawPlus.Proofs.Diagnosis.GrammarLines
import DrawPlus.Proofs.Diagnosis.RuleLines
import DrawPlus.Proofs.Diagnosis.LineExists
import DrawPlus.Proofs.Diagnosis.StoppingLines
import DrawPlus.Proofs.Diagnosis.DeclaringAdvice
import DrawPlus.Proofs.Canvas.Calls
import DrawPlus.Proofs.Canvas.Colors
import DrawPlus.Proofs.Workbench.Saving
import DrawPlus.Proofs.Workbench.Tabs
import DrawPlus.Proofs.Workbench.FixMenu
import DrawPlus.Proofs.Target.Words
import DrawPlus.Proofs.Target.Hygiene
import DrawPlus.Proofs.Canvas.Pool
import DrawPlus.Proofs.Canvas.Thickness
import DrawPlus.Proofs.Scope.Dimensions
import DrawPlus.Proofs.Shell.Scratch
import DrawPlus.Proofs.Shell.Running
import DrawPlus.Proofs.Target.Capture
import DrawPlus.Proofs.Target.Initialization
import DrawPlus.Proofs.Target.Traces
import DrawPlus.Proofs.Target.Markers
import DrawPlus.Proofs.Target.Pointers
import DrawPlus.Proofs.Scope.Renaming
import DrawPlus.Proofs.Scope.Exchange
import DrawPlus.Proofs.Parsing.Renaming
import DrawPlus.Proofs.Workbench.Highlighting
import DrawPlus.Proofs.Canvas.Scanlines
import DrawPlus.Proofs.Canvas.Discs
import DrawPlus.Proofs.Numbers.Precision
import DrawPlus.Proofs.Numbers.Magnitude
import DrawPlus.Proofs.Canvas.Ellipses
import DrawPlus.Proofs.Canvas.Outlines
import DrawPlus.Proofs.Canvas.Turning
import DrawPlus.Proofs.Scanning.Coherence
import DrawPlus.Proofs.Target.Layout
