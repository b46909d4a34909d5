/-
The nodes of a tree.  Nodes refer to each other by id: a node lists its children
and remembers its parent, and neither holds the other.
-/
import Espalier.Attributes
import Espalier.Tree.Error
import Espalier.Tree.TagSpec

namespace Espalier

/-- The vocabulary that an element's tag belongs to. -/
inductive Namespace where
  | html
  | svg
deriving DecidableEq, Repr, Inhabited

/-- The inner content that was given to an element directly. -/
inductive Content where
  /-- Literal markup, kept as it is. -/
  | html (markup : String)
  /-- Plain text. -/
  | text (plain : String)
deriving DecidableEq, Repr, Inhabited

/-- The content's text, of either kind. -/
def Content.body : Content → String
  | .html markup => markup
  | .text plain => plain

/-- An element of a tree. -/
structure Node where
  id : NodeId
  ns : Namespace
  parent : Option NodeId := none
  children : List NodeId := []
  tag : String
  classes : List String := []
  properties : Attributes := ∅
  style : Attributes := ∅
  content : Option Content := none
  /-- The lookup key that the node was last registered under. -/
  key : Option String := none
deriving DecidableEq, Inhabited

namespace Node

def isSvg (node : Node) : Bool :=
  node.ns == .svg

/-- The literal markup, if that is the node's content. -/
def html? (node : Node) : Option String :=
  match node.content with
  | some (.html markup) => some markup
  | _ => none

/-- The plain text, if that is the node's content. -/
def text? (node : Node) : Option String :=
  match node.content with
  | some (.text plain) => some plain
  | _ => none

/-- The value of a property. -/
def property? (node : Node) (name : String) : Option String :=
  node.properties[name]?

/-- The value of a style property. -/
def styleValue? (node : Node) (name : String) : Option String :=
  node.style[name]?

def hasClass (node : Node) (name : String) : Bool :=
  node.classes.contains name

/-- Whether adding a class changes the node: the class has a name, and the node
does not have it yet. -/
def lacksClass (node : Node) (name : String) : Bool :=
  !name.isEmpty && !node.hasClass name

/-- Add a class at the end, unless it is there already. -/
def addClass (node : Node) (name : String) : Node :=
  if node.lacksClass name then { node with classes := node.classes ++ [name] } else node

/-- Add classes one after the other. -/
def addClasses (node : Node) (names : List String) : Node :=
  names.foldl addClass node

/-- Remove one class, or all of them. -/
def removeClass (node : Node) : Option String → Node
  | some name => { node with classes := node.classes.filter (· != name) }
  | none => { node with classes := [] }

/-- Overwrite style properties by the clauses of a style list. -/
def addStyle (node : Node) (text : String) : Node :=
  { node with style := node.style.assign (styleEntries text) }

/-- Replace the whole style by the clauses of a style list. -/
def replaceStyle (node : Node) (text : String) : Node :=
  { node with style := Attributes.ofEntries (styleEntries text) }

/-- Apply one attribute: `class` adds classes, `style` overwrites style
properties, and any other name overwrites the property of that name. -/
def setAttribute (node : Node) (entry : String × String) : Node :=
  let (name, value) := entry
  if name = "class" then node.addClasses (classList value)
  else if name = "style" then node.addStyle value
  else { node with properties := node.properties.insert name value }

/-- Apply attributes one after the other. -/
def setAttributes (node : Node) (attributes : List (String × String)) : Node :=
  attributes.foldl setAttribute node

/-- Forget a lookup key, if it is the one that the node remembers. -/
def loseKey (node : Node) (key : String) : Node :=
  if node.key = some key then { node with key := none } else node

/-- Overwrite style properties by entries, one after the other. -/
def assignStyle (node : Node) (entries : List (String × String)) : Node :=
  { node with style := node.style.assign entries }

end Node

end Espalier
