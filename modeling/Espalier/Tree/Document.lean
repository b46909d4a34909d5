/-
Documents: a tree of elements below one root, with a registry of named nodes.

Operations that change a document run in `DocumentM`, which keeps what was
changed before a failure.  They answer with a node id, so calls chain.  Queries
are functions of the document.
-/
import Espalier.Sink
import Espalier.Tree.Registry
import Espalier.Tree.Walk

namespace Espalier

/-- A tree of elements and the registry of its named nodes. -/
structure Document where
  arena : Arena
  registry : Registry := {}
  root : NodeId
deriving DecidableEq, Inhabited

/-- Changes to a document, which may fail. -/
abbrev DocumentM (α : Type) : Type :=
  EStateM TreeError Document α

namespace Document

/-- A document with nothing but its root. -/
def new (rootTag : String) : Document where
  arena := ({} : Arena).addElement rootTag.toLower .html
  root := ({} : Arena).nextId

/-- The root tag of a document that is made without one. -/
def standardRootTag : String := "body"

/-- The number of nodes ever made, the root included. -/
def size (document : Document) : Nat :=
  document.arena.size

def isEmpty (document : Document) : Bool :=
  document.arena.isEmpty

/-! ### Queries -/

/-- The node with an id. -/
def fetch (document : Document) (id : NodeId) : Except TreeError Node :=
  document.arena.fetch id

def children (document : Document) (node : NodeId) : Except TreeError (List NodeId) :=
  return (← document.fetch node).children

/-- The child at an index; a negative index counts from the end. -/
def child (document : Document) (node : NodeId) (index : Int) :
    Except TreeError NodeId := do
  let children ← document.children node
  let place := if index < 0 then index + children.length else index
  match if place < 0 then none else children[place.toNat]? with
  | some child => return child
  | none => throw (.noChild node index)

/-- The parent of a node; `none` for the top of a tree. -/
def parent (document : Document) (node : NodeId) :
    Except TreeError (Option NodeId) :=
  return (← document.arena.parent? node).map (·.id)

/-- Follow a number of parent links. -/
def ascend (document : Document) : Nat → NodeId → Except TreeError NodeId
  | 0, id => return id
  | levels + 1, id => do
      let node ← document.fetch id
      match node.parent with
      | none => throw (.noParent id)
      | some parent => document.ascend levels parent

/-- The ancestor a number of levels above a node.  Zero levels count as one. -/
def ancestor (document : Document) (node : NodeId) (levels : Nat) :
    Except TreeError NodeId :=
  document.ascend (max levels 1) node

/-- The ids of the nodes of a subtree that pass a test, in document order. -/
def find (document : Document) (start : NodeId) (test : Node → Bool) :
    Except TreeError (List NodeId) :=
  document.arena.find start test

/-- All nodes of a subtree in document order, its top included. -/
def descendants (document : Document) (start : NodeId) :
    Except TreeError (List NodeId) :=
  document.find start fun _ => true

/-- The nodes of a subtree with a tag, whatever its letter case. -/
def findTag (document : Document) (start : NodeId) (tag : String) :
    Except TreeError (List NodeId) :=
  document.arena.findTag start tag

/-- The node id that a lookup key is bound to. -/
def resolve (document : Document) (key : String) : Option NodeId :=
  document.registry.resolve key

/-- The node that a lookup key is bound to, if it exists. -/
def resolveNode (document : Document) (key : String) : Option Node :=
  (document.resolve key).bind document.arena.get?

/-! ### Changes to one node -/

/-- The node with an id. -/
def fetchM (id : NodeId) : DocumentM Node := do
  ofExcept ((← get).fetch id)

/-- Change the node with an id; nothing happens when there is none. -/
def updateM (id : NodeId) (change : Node → Node) : DocumentM Unit :=
  modify fun document => { document with arena := document.arena.update id change }

/-- Change an existing node. -/
def edit (id : NodeId) (change : Node → Node) : DocumentM NodeId := do
  let _ ← fetchM id
  updateM id change
  return id

/-- Apply attributes: `class` adds classes, `style` overwrites style properties,
and the others overwrite properties. -/
def setAttributes (node : NodeId) (attributes : Attributes) : DocumentM NodeId :=
  edit node (·.setAttributes attributes.toList)

/-- Overwrite style properties. -/
def setStyle (node : NodeId) (style : Attributes) : DocumentM NodeId :=
  edit node (·.assignStyle style.toList)

/-- Replace the whole style by the clauses of a style list. -/
def setCss (node : NodeId) (css : String) : DocumentM NodeId :=
  edit node (·.replaceStyle css)

def addClass (node : NodeId) (name : String) : DocumentM NodeId :=
  edit node (·.addClass name)

/-- Remove one class, or all of them. -/
def removeClass (node : NodeId) (name : Option String) : DocumentM NodeId :=
  edit node (·.removeClass name)

/-- Give a node literal inner markup. -/
def setHtml (node : NodeId) (markup : String) : DocumentM NodeId :=
  edit node ({ · with content := some (.html markup) })

/-- Give a node plain inner text. -/
def setText (node : NodeId) (text : String) : DocumentM NodeId :=
  edit node ({ · with content := some (.text text) })

/-! ### New nodes -/

/-- The element that a specification describes below a parent.  An `svg` element
and everything below one belong to the SVG vocabulary. -/
def newNode (spec : String) (above : Node) (id : NodeId) : Node :=
  let spec := TagSpec.ofText spec
  let tag := spec.tag.toLower
  let ns := if above.isSvg || tag == "svg" then .svg else .html
  ({ id, ns, tag } : Node).addClasses spec.classes

/-- Make a detached element that suits a parent. -/
def create (spec : String) (parent : NodeId) : DocumentM NodeId := do
  let above ← fetchM parent
  let id := (← get).arena.nextId
  modify fun document =>
    { document with arena := document.arena.add (newNode spec above) }
  return id

/-- Make a new element and attach it under a parent at an index, or at the end if
that is nearer. -/
def insertAt (parent : NodeId) (spec : String) (index : Nat) : DocumentM NodeId := do
  let id ← create spec parent
  let arena ← ofExcept ((← get).arena.attach parent id index)
  modify fun document => { document with arena }
  return id

/-- Insert a new element as the last child of a parent. -/
def insert (parent : NodeId) (spec : String) : DocumentM NodeId := do
  let last := (← fetchM parent).children.length
  insertAt parent spec last

/-- Insert a new element and apply attributes to it. -/
def insertWith (parent : NodeId) (spec : String) (attributes : Attributes) :
    DocumentM NodeId := do
  let id ← insert parent spec
  setAttributes id attributes

/-- The parent of a node and the node's place there. -/
def position (node : NodeId) : DocumentM (NodeId × Nat) := do
  match ← ofExcept ((← get).arena.placeOf node) with
  | some place => return place
  | none => throw (.noParent node)

/-- Add a new element as the next sibling of a node. -/
def append (node : NodeId) (spec : String) : DocumentM NodeId := do
  let (parent, index) ← position node
  insertAt parent spec (index + 1)

/-- Add a new element as the previous sibling of a node. -/
def prepend (node : NodeId) (spec : String) : DocumentM NodeId := do
  let (parent, index) ← position node
  insertAt parent spec index

/-! ### Lookup keys -/

/-- Bind a lookup key to a node.  A node that loses the key to another one
forgets it. -/
def register (node : NodeId) (key : String) : DocumentM NodeId := do
  let _ ← fetchM node
  let holder := (← get).resolve key
  modify fun document => { document with registry := document.registry.bind key node }
  match holder with
  | none => pure ()
  | some old => if old ≠ node then updateM old (·.loseKey key)
  edit node ({ · with key := some key })

/-- Make a node forget its lookup key.  The key's binding goes too, unless it
leads to another node. -/
def forgetKey (node : NodeId) : DocumentM Unit := do
  let held ← fetchM node
  match held.key with
  | none => return
  | some key =>
      updateM node ({ · with key := none })
      if (← get).resolve key = some node then
        modify fun document => { document with registry := document.registry.unbind key }

/-- Make all nodes of a subtree forget their lookup keys. -/
def forgetKeys (start : NodeId) : DocumentM Unit := do
  let holders ← ofExcept ((← get).find start (·.key.isSome))
  holders.forM forgetKey

/-! ### Removal -/

/-- Drop a node that its parent no longer lists: it loses its parent, and the
nodes of its subtree lose their keys. -/
def drop (child : NodeId) : DocumentM Unit := do
  let _ ← fetchM child
  updateM child ({ · with parent := none })
  forgetKeys child

/-- Drop all content and children of a node. -/
def clear (node : NodeId) : DocumentM NodeId := do
  let children := (← fetchM node).children
  updateM node ({ · with children := [] })
  children.forM drop
  setHtml node ""

/-- Unlink a node from its parent. -/
def detach (node : NodeId) : DocumentM (Option NodeId) := do
  let document ← get
  match (Arena.detach node).run document.arena with
  | .ok parent arena => set { document with arena }; return parent
  | .error error arena => set { document with arena }; throw error

/-- Take a node and its subtree out of the tree.  The nodes of the subtree lose
their keys. -/
def remove (node : NodeId) : DocumentM Unit := do
  if node = (← get).root then throw (.rootRemoval node)
  let _ ← detach node
  forgetKeys node

/-! ### Building -/

/-- A document as a sink for markup. -/
def sink : Sink Document NodeId where
  insert := insert
  set node attributes := do let _ ← setAttributes node attributes
  html node markup := do let _ ← setHtml node markup
  register key node := do let _ ← register node key

end Document

end Espalier
