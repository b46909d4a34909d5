/-
The arena holds every node that a tree has ever made; a node's id is its place
in it.  Nodes are never freed: a removed subtree stays, detached from the rest.

Attaching and detaching keep a child list and a parent link in step.  They do not
look beyond the two nodes at hand, so a node attached twice is listed twice.
-/
import Espalier.Tree.Node

namespace Espalier

/-- All nodes, in the order in which they were made. -/
structure Arena where
  nodes : Array Node := #[]
deriving DecidableEq, Inhabited

namespace Arena

/-- The number of nodes, the detached ones included. -/
def size (arena : Arena) : Nat :=
  arena.nodes.size

def isEmpty (arena : Arena) : Bool :=
  arena.nodes.isEmpty

def get? (arena : Arena) (id : NodeId) : Option Node :=
  arena.nodes[id.toNat]?

/-- The node with an id. -/
def fetch (arena : Arena) (id : NodeId) : Except TreeError Node :=
  match arena.get? id with
  | some node => .ok node
  | none => .error (.unknownNode id)

/-- Change the node with an id; nothing happens when there is none. -/
def update (arena : Arena) (id : NodeId) (change : Node → Node) : Arena :=
  { arena with nodes := arena.nodes.modify id.toNat change }

/-- The id that the next node gets. -/
def nextId (arena : Arena) : NodeId :=
  UInt32.ofNat arena.size

/-- Add a node, which is made for its id. -/
def add (arena : Arena) (make : NodeId → Node) : Arena :=
  { arena with nodes := arena.nodes.push (make arena.nextId) }

/-- Make a detached node. -/
def addElement (arena : Arena) (tag : String) (ns : Namespace) : Arena :=
  arena.add fun id => { id, ns, tag }

/-- Enter a node in a parent's child list at an index, or at the end if that is
nearer, and make it remember the parent. -/
def link (arena : Arena) (parent child : NodeId) (index : Nat) : Arena :=
  let listed (node : Node) : Node :=
    { node with
      children := node.children.insertIdx (min index node.children.length) child }
  (arena.update parent listed).update child ({ · with parent := some parent })

/-- Attach a node under a parent.  Both have to exist; the child is looked up
first. -/
def attach (arena : Arena) (parent child : NodeId) (index : Nat) :
    Except TreeError Arena := do
  let _ ← arena.fetch child
  let _ ← arena.fetch parent
  return arena.link parent child index

/-- Unlink a node from its parent, which is returned if there is one.  The link
to a parent that does not exist is dropped before the failure shows. -/
def detach (child : NodeId) : EStateM TreeError Arena (Option NodeId) := do
  let arena ← get
  let node ← ofExcept (arena.fetch child)
  match node.parent with
  | none => return none
  | some parent =>
      modify (·.update child ({ · with parent := none }))
      let arena ← get
      let _ ← ofExcept (arena.fetch parent)
      modify (·.update parent fun node =>
        { node with children := node.children.filter (· != child) })
      return some parent

/-- The parent of a node and the node's place among its children; `none` when
there is no parent, or when the parent does not list the node. -/
def placeOf (arena : Arena) (child : NodeId) :
    Except TreeError (Option (NodeId × Nat)) := do
  let node ← arena.fetch child
  match node.parent with
  | none => return none
  | some parent =>
      let above ← arena.fetch parent
      return (above.children.idxOf? child).map fun index => (parent, index)

/-- The parent node; `none` for the top of a tree. -/
def parent? (arena : Arena) (id : NodeId) : Except TreeError (Option Node) := do
  let node ← arena.fetch id
  match node.parent with
  | none => return none
  | some parent => return some (← arena.fetch parent)

/-! ### What each change leaves of the nodes -/

@[simp] theorem size_update (arena : Arena) (id : NodeId) (change : Node → Node) :
    (arena.update id change).size = arena.size := by
  simp [size, update]

@[simp] theorem size_add (arena : Arena) (make : NodeId → Node) :
    (arena.add make).size = arena.size + 1 := by
  simp [size, add]

@[simp] theorem size_link (arena : Arena) (parent child : NodeId) (index : Nat) :
    (arena.link parent child index).size = arena.size := by
  simp [link]

/-- A node is there exactly for the ids below the size. -/
theorem isSome_get?_iff {arena : Arena} {id : NodeId} :
    (arena.get? id).isSome ↔ id.toNat < arena.size := by
  simp [get?, size]

/-- An update changes the node with the id and no other. -/
theorem get?_update (arena : Arena) (id other : NodeId) (change : Node → Node) :
    (arena.update id change).get? other =
      if id = other then (arena.get? other).map change else arena.get? other := by
  simp only [get?, update, Array.getElem?_modify, UInt32.toNat_inj]

/-- A change that leaves the node as it is leaves the arena as it is. -/
theorem update_eq_self {arena : Arena} {id : NodeId} {change : Node → Node}
    (h : ∀ node, arena.get? id = some node → change node = node) :
    arena.update id change = arena := by
  have hnodes : arena.nodes.modify id.toNat change = arena.nodes := by
    apply Array.ext_getElem?
    intro index
    rw [Array.getElem?_modify]
    split
    · next heq =>
        subst heq
        cases hnode : arena.nodes[id.toNat]? with
        | none => rfl
        | some node => rw [Option.map_some, h node hnode]
    · rfl
  rw [update, hnodes]

/-- Two changes of one node are one change. -/
theorem update_update (arena : Arena) (id : NodeId) (first second : Node → Node) :
    (arena.update id first).update id second = arena.update id (second ∘ first) := by
  have hnodes : (arena.nodes.modify id.toNat first).modify id.toNat second =
      arena.nodes.modify id.toNat (second ∘ first) := by
    apply Array.ext_getElem?
    intro index
    simp only [Array.getElem?_modify]
    split
    · rw [Option.map_map]
    · rfl
  rw [update, update, hnodes, update]

/-- A node that is added gets the next id; the nodes before it stay. -/
theorem get?_add {arena : Arena} (hsize : arena.size < UInt32.size)
    (make : NodeId → Node) (id : NodeId) :
    (arena.add make).get? id =
      if id = arena.nextId then some (make arena.nextId) else arena.get? id := by
  have hid : id = arena.nextId ↔ id.toNat = arena.nodes.size := by
    rw [← UInt32.toNat_inj, nextId, UInt32.toNat_ofNat_of_lt' hsize, size]
  simp only [get?, add, Array.getElem?_push, hid]

/-- Fetching a node is looking it up, with the missing id as the error. -/
theorem fetch_eq_ok_iff {arena : Arena} {id : NodeId} {node : Node} :
    arena.fetch id = .ok node ↔ arena.get? id = some node := by
  rw [fetch]
  split <;> simp_all

theorem fetch_of_none {arena : Arena} {id : NodeId} (h : arena.get? id = none) :
    arena.fetch id = .error (.unknownNode id) := by
  rw [fetch, h]

end Arena

end Espalier
