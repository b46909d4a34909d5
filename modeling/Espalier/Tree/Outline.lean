/-
Outlines: a tree as indented text with one opening and one closing line per
element.  Properties and style are printed in ascending order of their names, so
equal trees have equal outlines.
-/
import Espalier.Text.Blank
import Espalier.Text.Bytes
import Espalier.Tree.Document

namespace Espalier

open Espalier.Text

/-- Settings of an outline. -/
structure OutlineSettings where
  /-- The text that each level is indented by. -/
  indent : String := "  "
  /-- The names of the properties to print; `none` prints all of them. -/
  shown : Option (List String) := none
  /-- The number of bytes that a node's content is capped at. -/
  textLimit : Nat := 200
deriving DecidableEq, Repr, Inhabited

namespace OutlineSettings

/-- Whether a property is printed. -/
def shows (settings : OutlineSettings) (name : String) : Bool :=
  match settings.shown with
  | some names => names.contains name
  | none => true

/-- The indentation of a depth. -/
def margin (settings : OutlineSettings) (depth : Nat) : String :=
  String.join (List.replicate depth settings.indent)

end OutlineSettings

/-- A style as the text `name:value;name:value`. -/
def styleText (entries : List (String × String)) : String :=
  String.intercalate ";" (entries.map fun (name, value) => name ++ ":" ++ value)

namespace Outline

/-- The class list of an opening line. -/
def classPart (classes : List String) : String :=
  if classes.isEmpty then "" else " class=\"" ++ String.intercalate " " classes ++ "\""

/-- The properties of an opening line. -/
def propertyPart (entries : List (String × String)) : String :=
  String.join (entries.map fun (name, value) => " " ++ name ++ "=\"" ++ value ++ "\"")

/-- The style of an opening line. -/
def stylePart (entries : List (String × String)) : String :=
  if entries.isEmpty then "" else " style=\"" ++ styleText entries ++ "\""

/-- The lookup key of an opening line. -/
def keyPart : Option String → String
  | some key => " #" ++ key
  | none => ""

/-- The opening line of a node. -/
def openLine (settings : OutlineSettings) (node : Node) (depth : Nat) : String :=
  settings.margin depth ++ "<" ++ node.tag ++ classPart node.classes
    ++ propertyPart (node.properties.toList.filter fun entry => settings.shows entry.1)
    ++ stylePart node.style.toList ++ keyPart node.key ++ ">\n"

/-- The line of a node's own content, one level deeper than the node.  Blank
content has none. -/
def contentLine (settings : OutlineSettings) (node : Node) (depth : Nat) : String :=
  match node.content with
  | none => ""
  | some content =>
      let text := trimmed content.body
      if text.isEmpty then ""
      else settings.margin (depth + 1) ++ capped text settings.textLimit ++ "\n"

/-- The closing line of a node. -/
def closeLine (settings : OutlineSettings) (node : Node) (depth : Nat) : String :=
  settings.margin depth ++ "</" ++ node.tag ++ ">\n"

/-- Print each node's lines around those of its children. -/
def printer (settings : OutlineSettings) : Visitor String where
  enter node depth := modify fun text =>
    text ++ openLine settings node depth ++ contentLine settings node depth
  leave node depth := modify fun text => text ++ closeLine settings node depth

end Outline

namespace Document

/-- The outline of a subtree. -/
def outlineFrom (document : Document) (settings : OutlineSettings) (start : NodeId) :
    Except TreeError String :=
  match (document.arena.walk start (Outline.printer settings)).run "" with
  | .ok _ text => .ok text
  | .error error _ => .error error

/-- The outline of the whole tree. -/
def outline (document : Document) (settings : OutlineSettings) :
    Except TreeError String :=
  document.outlineFrom settings document.root

end Document

end Espalier
