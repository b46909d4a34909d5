/-
Growing a header: its declarations become sibling elements under one parent.
-/
import Espalier.Attributes.Block
import Espalier.Markup.Header
import Espalier.Markup.Shorthand
import Espalier.Sink

namespace Espalier.Markup

open Espalier.Text

variable {σ η : Type}

/-- Create the element of one declaration.  The element comes first, then its
attributes, its text and its key, each only if it is written. -/
def declare (sink : Sink σ η) (settings : Settings) (parent : η) (draft : Draft) :
    EStateM TreeError σ η := do
  let (spec, params) := settings.expand draft.tag draft.params
  let node ← sink.insert parent spec
  if !params.isEmpty then
    sink.set node (Attributes.ofBlock params)
  if !draft.text.isEmpty then
    sink.html node (String.ofList (unquote (trim draft.text.toList)))
  if !draft.key.isEmpty then
    sink.register draft.key node
  return node

/-- Create the elements of some declarations under one parent, in order, and
return the last of them; `last` when there is none. -/
def declareAll (sink : Sink σ η) (settings : Settings) (parent : η) :
    Option η → List Draft → EStateM TreeError σ (Option η)
  | last, [] => return last
  | _, draft :: rest => do
      let node ← declare sink settings parent draft
      declareAll sink settings parent (some node) rest

/-- Create the elements of a header under one parent.  The last of them, where a
block that follows the header belongs, is returned; `none` when the header
declares nothing. -/
def growHeader (sink : Sink σ η) (settings : Settings) (parent : η)
    (header : List Char) : EStateM TreeError σ (Option η) :=
  declareAll sink settings parent none (drafts header)

end Espalier.Markup
