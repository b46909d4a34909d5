/-
The lookup registry: keys bound to node ids.  It belongs to one document, so two
documents can use the same keys.
-/
import Std.Data.ExtTreeMap
import Espalier.Tree.Error

namespace Espalier

/-- Lookup keys, each bound to one node id. -/
structure Registry where
  bindings : Std.ExtTreeMap String NodeId := ∅
deriving DecidableEq, Inhabited

namespace Registry

/-- The node that a key is bound to. -/
def resolve (registry : Registry) (key : String) : Option NodeId :=
  registry.bindings[key]?

/-- Bind a key to a node, in place of any node it was bound to. -/
def bind (registry : Registry) (key : String) (node : NodeId) : Registry :=
  ⟨registry.bindings.insert key node⟩

/-- Take a key's binding away. -/
def unbind (registry : Registry) (key : String) : Registry :=
  ⟨registry.bindings.erase key⟩

/-- The number of bound keys. -/
def size (registry : Registry) : Nat :=
  registry.bindings.size

def isEmpty (registry : Registry) : Bool :=
  registry.bindings.isEmpty

/-- The bindings in ascending order of the keys. -/
def toList (registry : Registry) : List (String × NodeId) :=
  registry.bindings.toList

@[simp] theorem resolve_empty (key : String) : ({} : Registry).resolve key = none := by
  simp [resolve]

theorem resolve_bind (registry : Registry) (key other : String) (node : NodeId) :
    (registry.bind key node).resolve other =
      if key = other then some node else registry.resolve other := by
  simp [resolve, bind, Std.ExtTreeMap.getElem?_insert]

theorem resolve_unbind (registry : Registry) (key other : String) :
    (registry.unbind key).resolve other =
      if key = other then none else registry.resolve other := by
  simp [resolve, unbind, Std.ExtTreeMap.getElem?_erase]

end Registry

end Espalier
