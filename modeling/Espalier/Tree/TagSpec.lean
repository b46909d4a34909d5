/-
The short texts that describe an element: a tag with classes `tag.c1.c2`, a
class list `c1.c2`, and a style list `name:value;name:value`.
-/
import Espalier.Text.Split

namespace Espalier

open Espalier.Text

/-- A tag name and class names, as written in `tag.c1.c2`. -/
structure TagSpec where
  tag : String
  classes : List String
deriving DecidableEq, Repr, Inhabited

/-- Cut a specification at every `.`.  The first piece is the tag; the others are
the classes, less the empty ones. -/
def TagSpec.ofText (text : String) : TagSpec :=
  match pieces '.' text.toList with
  | [] => ⟨"", []⟩
  | tag :: classes =>
      ⟨String.ofList tag, (classes.filter (!·.isEmpty)).map String.ofList⟩

/-- The classes of a `.`-separated list: trimmed, less the empty ones. -/
def classList (text : String) : List String :=
  (((pieces '.' text.toList).map trim).filter (!·.isEmpty)).map String.ofList

/-- One clause of a style list, cut at its first `:` and trimmed.  A clause with
no `:`, or with an empty name, says nothing. -/
def styleEntry? (clause : List Char) : Option (String × String) :=
  match splitFirst ':' clause with
  | none => none
  | some (name, value) =>
      let name := trim name
      if name.isEmpty then none else some (String.ofList name, String.ofList (trim value))

/-- The clauses of a `;`-separated style list, in the order they are written. -/
def styleEntries (text : String) : List (String × String) :=
  (pieces ';' text.toList).filterMap styleEntry?

end Espalier
