/-
Markup parsing: text in, elements out.  The brace pass comes first and decides
alone whether the text is well formed; only then are the headers of the layout
grown into the sink, in source order.
-/
import Espalier.Markup.Layout
import Espalier.Markup.Declaration
import Espalier.Text.Blank

namespace Espalier.Markup

open Espalier.Text

variable {σ η : Type}

/-- Why a parse fails.  Anything else that is malformed in hand-written markup
still gives a tree. -/
inductive ParseError where
  /-- The braces do not match. -/
  | braces (fault : BraceFault)
  /-- The sink refused a call. -/
  | tree (error : TreeError)
deriving DecidableEq, Repr

/-- The wording of a parse error. -/
def ParseError.message : ParseError → String
  | .braces fault => "Unbalanced braces: " ++ fault.message
  | .tree error => "Tree error: " ++ error.message

/-- Grow the headers of a layout.  The stack holds the parent of every open
range, the innermost first.  A block goes to the last element that its header
declares, or to the parent when the header declares none. -/
def growCuts (sink : Sink σ η) (settings : Settings) (text : List Char) :
    List Cut → List η → EStateM TreeError σ Unit
  | .block start pair :: cuts, parent :: parents => do
      let last ← growHeader sink settings parent (trim (slice text start pair.opens))
      growCuts sink settings text cuts (last.getD parent :: parent :: parents)
  | .tail range :: cuts, parent :: parents => do
      let _ ← growHeader sink settings parent (trim (slice text range.start range.stop))
      growCuts sink settings text cuts parents
  | _, _ => return

/-- Parse a text into children of `parent`, which is returned.  A brace fault
leaves the sink as it was. -/
def parse (sink : Sink σ η) (settings : Settings) (parent : η) (text : String) :
    EStateM ParseError σ η := do
  let chars := text.toList
  match Pairing.ofText chars with
  | .error fault => throw (.braces fault)
  | .ok pairing =>
      let grow := growCuts sink settings chars (pairing.layout (byteLength chars)) [parent]
      grow.adaptExcept .tree
      return parent

/-- Grow a text that is one header, as it stands, into children of `parent`. -/
def parseHeader (sink : Sink σ η) (settings : Settings) (parent : η) (text : String) :
    EStateM ParseError σ (Option η) :=
  (growHeader sink settings parent text.toList).adaptExcept .tree

/-- Run the brace pass alone, to turn a bad text down before touching a tree. -/
def check (text : String) : Except ParseError Pairing :=
  (Pairing.ofText text.toList).mapError .braces

end Espalier.Markup
