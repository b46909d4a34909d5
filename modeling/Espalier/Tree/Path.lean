/-
Paths: the place of a node as `/body[1]/div[2]/span[1]`.  Each step is a tag and
the node's number, from 1, among its siblings with that tag.
-/
import Espalier.Tree.Document

namespace Espalier.Document

/-- The number of a node among its siblings with the same tag.  Siblings that do
not exist are passed over, and the top of a tree has number 1. -/
def stepNumber (document : Document) (node : Node) : Except TreeError Nat := do
  match node.parent with
  | none => return 1
  | some parent =>
      let siblings := (← document.children parent).filterMap document.arena.get?
      let alike := siblings.filter (·.tag == node.tag)
      match alike.findIdx? (·.id == node.id) with
      | some index => return index + 1
      | none => return 1

/-- The step of a path that leads to a node from its parent. -/
def step (document : Document) (node : Node) : Except TreeError String :=
  return node.tag ++ "[" ++ toString (← document.stepNumber node) ++ "]"

/-- The steps from the top of the tree down to a node, ahead of the `steps` from
there on.  A chain of distinct nodes is no longer than the arena; `levels` bounds
the number of nodes that are looked up. -/
def stepsDown (document : Document) :
    Nat → NodeId → List String → Except TreeError (List String)
  | 0, _, steps => return steps
  | levels + 1, id, steps => do
      let node ← document.fetch id
      let steps := (← document.step node) :: steps
      match node.parent with
      | none => return steps
      | some parent => document.stepsDown levels parent steps

/-- The path of a node. -/
def path (document : Document) (node : NodeId) : Except TreeError String :=
  return "/" ++ String.intercalate "/"
    (← document.stepsDown (document.size + 1) node [])

/-- Every bound lookup key with the path of its node, in order of the keys. -/
def keyPaths (document : Document) : Except TreeError (List (String × String)) :=
  document.registry.toList.mapM fun (key, node) =>
    return (key, ← document.path node)

end Espalier.Document
