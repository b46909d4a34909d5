/-
Node ids and the ways in which a tree operation fails.
-/

namespace Espalier

/-- The id of a node: its place among all nodes its tree has ever made. -/
abbrev NodeId := UInt32

/-- Why a tree operation fails. -/
inductive TreeError where
  /-- No node has this id. -/
  | unknownNode (id : NodeId)
  /-- The node is the top of its tree. -/
  | noParent (id : NodeId)
  /-- The node has no child at this index. -/
  | noChild (node : NodeId) (index : Int)
  /-- The root of a document cannot be removed. -/
  | rootRemoval (id : NodeId)
deriving DecidableEq, Repr

/-- The wording of a tree error. -/
def TreeError.message : TreeError → String
  | .unknownNode id => "Node not found: " ++ toString id.toNat
  | .noParent id => "Node " ++ toString id.toNat ++ " has no parent"
  | .noChild node index =>
      "Node " ++ toString node.toNat ++ " has no child at index " ++ toString index
  | .rootRemoval id =>
      "Cannot remove the document root (" ++ toString id.toNat ++ ")"

end Espalier
