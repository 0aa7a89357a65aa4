import Presage.Node.Statement
import Presage.Program.Analysis
import Presage.Program.Fold
import Presage.Script.Writer
import Presage.Token.Scan

/-!
From a source to its tree, its program and its script. The first diagnostic of any stage is that of
the whole.
-/

set_option autoImplicit false
set_option relaxedAutoImplicit false

namespace Presage

/-- The parse tree of a source. -/
def Source.tree (source : Source) : Except Diagnostic Node := do
  Node.ofTokens (← TokenStream.ofSource source)

/-- The program of a source with the bodies of its functions, folded if `folded` asks for it. -/
def Source.build (source : Source) (folded : Bool) : Except Diagnostic (Program × Bodies) := do
  let (program, last) ← Analysis.program source .initial (← source.tree)
  return if folded then program.fold last.bodies else (program, last.bodies)

/-- The program of a source, folded if `folded` asks for it. -/
def Source.program (source : Source) (folded : Bool) : Except Diagnostic Program :=
  (source.build folded).map Prod.fst

/-- The text of the script that a source is compiled to. -/
def Source.compile (source : Source) (folded : Bool) : Except Diagnostic String := do
  return (← source.program folded).scriptText

end Presage
