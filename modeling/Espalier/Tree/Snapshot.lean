/-
Nodes and whole trees as JSON.  A node is an object of ten fields; a tree is its
root id and the nodes that can be reached from it, in document order.
-/
import Espalier.Json.Text
import Espalier.Tree.Document

namespace Espalier

/-! ### Parts of a node -/

def Namespace.toName : Namespace → String
  | .html => "Html"
  | .svg => "Svg"

def Namespace.ofName? (name : String) : Option Namespace :=
  if name = "Html" then some .html
  else if name = "Svg" then some .svg
  else none

/-- Content as an object that names its kind. -/
def Content.toJson : Content → Json
  | .html markup => .ofMembers [("kind", .ofText "html"), ("value", .ofText markup)]
  | .text plain => .ofMembers [("kind", .ofText "text"), ("value", .ofText plain)]

/-- Content of a named kind. -/
def Content.ofName? (kind value : String) : Option Content :=
  if kind = "html" then some (.html value)
  else if kind = "text" then some (.text value)
  else none

/-- The kind of content is a name, which the short array form writes as a text. -/
def Content.kind? : Json → Json → Option String
  | .array _, kind => kind.text?
  | _, kind => kind.name?

/-- The content that a JSON value describes. -/
def Content.ofJson? (json : Json) : Option Content := do
  match ← json.record? ["kind", "value"] with
  | [some kind, some value] => ofName? (← kind? json kind) (← value.text?)
  | _ => none

/-- The members of an object that writes entries in the given order. -/
def Attributes.jsonOfEntries (entries : List (String × String)) : Json :=
  .ofMembers (entries.map fun (name, value) => (name, .ofText value))

/-- A map that a JSON object describes.  The last member of a name counts. -/
def Attributes.ofJson? (json : Json) : Option Attributes := do
  let entries ← (← json.members?).mapM fun (name, value) => value.text?.map (name, ·)
  return ofEntries entries

/-! ### Nodes -/

namespace Node

/-- The fields of a node, in the order in which they are written. -/
def fieldNames : List String :=
  ["node_id", "namespace", "parent_id", "children_ids", "tag_name", "classes",
    "properties", "style", "content", "key"]

def wordJson (id : NodeId) : Json :=
  .ofNat id.toNat

/-- A node as a JSON value, with its properties and its style written in a given
order. -/
def jsonWith (node : Node) (properties style : List (String × String)) : Json :=
  .ofMembers (fieldNames.zip
    [wordJson node.id, .ofText node.ns.toName, .ofOption wordJson node.parent,
      .ofList wordJson node.children, .ofText node.tag, .ofList .ofText node.classes,
      Attributes.jsonOfEntries properties, Attributes.jsonOfEntries style,
      .ofOption Content.toJson node.content, .ofOption .ofText node.key])

/-- A node as a JSON value. -/
def toJson (node : Node) : Json :=
  node.jsonWith node.properties.toList node.style.toList

/-- A field that may be missing, which means the same as `null`. -/
def optional? {α : Type} (read : Json → Option α) : Option Json → Option (Option α)
  | none => some none
  | some json => json.option? read

/-- An array has to give all ten fields. -/
def isWhole : Json → Bool
  | .array items => items.length == fieldNames.length
  | _ => true

/-- The node that a JSON value describes.  Its values are taken as they are, and
need not fit together. -/
def ofJson? (json : Json) : Option Node := do
  guard (isWhole json)
  match ← json.record? fieldNames with
  | [some id, some ns, parent, some children, some tag, some classes,
      some properties, some style, content, key] =>
      return {
        id := ← id.word?
        ns := ← Namespace.ofName? (← ns.name?)
        parent := ← optional? Json.word? parent
        children := ← children.list? Json.word?
        tag := ← tag.text?
        classes := ← classes.list? Json.text?
        properties := ← Attributes.ofJson? properties
        style := ← Attributes.ofJson? style
        content := ← optional? Content.ofJson? content
        key := ← optional? Json.text? key }
  | _ => none

/-- A node as a JSON text. -/
def toText (node : Node) : String :=
  node.toJson.toText

/-- The node that a JSON text describes. -/
def ofText? (text : String) : Option Node := do
  ofJson? (← Json.ofText? text)

end Node

/-! ### Trees -/

namespace Document

/-- The nodes that can be reached from the root, in document order. -/
def reachable (document : Document) : Except TreeError (List Node) := do
  (← document.descendants document.root).mapM document.fetch

/-- The tree as a JSON value. -/
def toJson (document : Document) : Except TreeError Json := do
  let nodes ← document.reachable
  return .ofMembers
    [("root", Node.wordJson document.root), ("nodes", .ofList Node.toJson nodes)]

/-- The tree as a JSON text. -/
def toText (document : Document) : Except TreeError String :=
  return (← document.toJson).toText

end Document

end Espalier
