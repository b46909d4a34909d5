/-
The links of an arena, apart from everything else that its nodes hold: the id
that a node carries, its parent and its children.  Most changes leave them alone.
In a sound shape the two directions of every link agree, and a parent is older
than its children.
-/
import Espalier.Tree.Arena

namespace Espalier

/-- What a node holds of its place in the tree. -/
structure Links where
  label : NodeId
  parent : Option NodeId := none
  children : List NodeId := []
deriving DecidableEq

/-- The links of all nodes, by id. -/
abbrev Shape := NodeId → Option Links

def Node.links (node : Node) : Links :=
  ⟨node.id, node.parent, node.children⟩

def Arena.shape (arena : Arena) : Shape :=
  fun id => (arena.get? id).map Node.links

namespace Shape

def childrenOf (shape : Shape) (id : NodeId) : List NodeId :=
  ((shape id).map Links.children).getD []

/-- One node lists another. -/
def Child (shape : Shape) (above below : NodeId) : Prop :=
  below ∈ shape.childrenOf above

/-- A node without a parent. -/
def Top (shape : Shape) (id : NodeId) : Prop :=
  ∃ links, shape id = some links ∧ links.parent = none

/-- Every node carries its own id. -/
def Labelled (shape : Shape) : Prop :=
  ∀ id links, shape id = some links → links.label = id

/-- The links of a shape fit together. -/
structure Sound (shape : Shape) : Prop where
  labelled : shape.Labelled
  listed : ∀ {id links}, shape id = some links → ∀ child ∈ links.children,
    ∃ below, shape child = some below ∧ below.parent = some id
  nodup : ∀ {id links}, shape id = some links → links.children.Nodup
  linked : ∀ {id links}, shape id = some links → ∀ {parent}, links.parent = some parent →
    parent < id ∧ ∃ above, shape parent = some above ∧ id ∈ above.children

theorem childrenOf_of_eq_some {shape : Shape} {id : NodeId} {links : Links}
    (h : shape id = some links) : shape.childrenOf id = links.children := by
  simp [childrenOf, h]

theorem child_of_mem {shape : Shape} {id child : NodeId} {links : Links}
    (h : shape id = some links) (hmem : child ∈ links.children) : shape.Child id child := by
  rw [Child, childrenOf_of_eq_some h]
  exact hmem

theorem exists_of_child {shape : Shape} {id child : NodeId} (h : shape.Child id child) :
    ∃ links, shape id = some links ∧ child ∈ links.children := by
  rw [Child] at h
  cases hid : shape id with
  | none => simp [childrenOf, hid] at h
  | some links => exact ⟨links, rfl, by simpa [childrenOf, hid] using h⟩

end Shape

/-! ### The shape of an arena -/

namespace Arena

variable {arena : Arena}

theorem shape_of_get? {id : NodeId} {node : Node} (h : arena.get? id = some node) :
    arena.shape id = some node.links := by
  simp [shape, h]

theorem child_of_mem {id child : NodeId} {node : Node} (h : arena.get? id = some node)
    (hmem : child ∈ node.children) : arena.shape.Child id child :=
  Shape.child_of_mem (shape_of_get? h) hmem

theorem exists_of_shape_eq_some {id : NodeId} {links : Links}
    (h : arena.shape id = some links) :
    ∃ node, arena.get? id = some node ∧ node.links = links := by
  simpa [shape] using h

theorem isSome_shape_iff {id : NodeId} :
    (arena.shape id).isSome ↔ (arena.get? id).isSome := by
  rw [shape, Option.isSome_map]

theorem shape_eq_none_iff {id : NodeId} :
    arena.shape id = none ↔ arena.size ≤ id.toNat := by
  rw [← Nat.not_lt, ← isSome_get?_iff]
  simp [shape]

/-- A change that does not touch the links leaves the shape as it is. -/
theorem shape_update_of_links {change : Node → Node}
    (h : ∀ node, (change node).links = node.links) (arena : Arena) (id : NodeId) :
    (arena.update id change).shape = arena.shape := by
  funext other
  rw [shape, get?_update]
  split
  · rw [Option.map_map]
    congr 1
    funext node
    exact h node
  · rfl

theorem labelled_update {change : Node → Node} (hchange : ∀ node, (change node).id = node.id)
    (h : arena.shape.Labelled) (id : NodeId) : (arena.update id change).shape.Labelled := by
  intro other links hother
  obtain ⟨node, hnode, rfl⟩ := exists_of_shape_eq_some hother
  rw [get?_update] at hnode
  split at hnode
  · obtain ⟨old, hold, rfl⟩ := Option.map_eq_some_iff.mp hnode
    rw [Node.links, hchange]
    exact h other old.links (shape_of_get? hold)
  · exact h other node.links (shape_of_get? hnode)

/-! ### A new node -/

theorem labelled_add {make : NodeId → Node} (hmake : ∀ id, (make id).id = id)
    (h : arena.shape.Labelled) : (arena.add make).shape.Labelled := by
  intro id links hid
  obtain ⟨node, hnode, rfl⟩ := exists_of_shape_eq_some hid
  rw [get?, add, Array.getElem?_push] at hnode
  split at hnode
  · next hlast =>
      obtain rfl : make arena.nextId = node := by simpa using hnode
      have hnext : arena.nextId = id := by
        rw [nextId, size, ← hlast, UInt32.ofNat_toNat]
      rw [Node.links, hmake, hnext]
  · exact h id node.links (shape_of_get? hnode)

/-- A node is there for the new id, even where the ids have run out and the id is an
older node's. -/
theorem isSome_get?_add_nextId (make : NodeId → Node) :
    ((arena.add make).get? arena.nextId).isSome := by
  rw [isSome_get?_iff, size_add, nextId, UInt32.toNat_ofNat']
  exact Nat.lt_succ_of_le (Nat.mod_le _ _)

theorem isSome_get?_add {id : NodeId} (h : (arena.get? id).isSome) (make : NodeId → Node) :
    ((arena.add make).get? id).isSome := by
  rw [isSome_get?_iff] at h ⊢
  rw [size_add]
  exact Nat.lt_succ_of_lt h

theorem isSome_get?_add_link (make : NodeId → Node) (parent : NodeId) (index : Nat) :
    (((arena.add make).link parent arena.nextId index).get? arena.nextId).isSome := by
  rw [isSome_get?_iff, size_link, ← isSome_get?_iff]
  exact isSome_get?_add_nextId make

/-- Where every node has an id of its own, a node that carries its id stands at that place. -/
theorem get?_of_getElem? (hlabel : arena.shape.Labelled) (hsize : arena.size ≤ UInt32.size)
    {index : Nat} {node : Node} (h : arena.nodes[index]? = some node) :
    arena.get? node.id = some node ∧ node.id.toNat = index := by
  obtain ⟨hlt, -⟩ := Array.getElem?_eq_some_iff.mp h
  have hnat : (UInt32.ofNat index).toNat = index :=
    UInt32.toNat_ofNat_of_lt' (Nat.lt_of_lt_of_le hlt hsize)
  have hget : arena.get? (UInt32.ofNat index) = some node := by rw [get?, hnat, h]
  have hid : node.id = UInt32.ofNat index := hlabel _ _ (shape_of_get? hget)
  rw [hid]
  exact ⟨hget, hnat⟩

theorem get?_of_mem (hlabel : arena.shape.Labelled) (hsize : arena.size ≤ UInt32.size)
    {node : Node} (h : node ∈ arena.nodes) : arena.get? node.id = some node := by
  obtain ⟨index, hindex⟩ := Array.mem_iff_getElem?.mp h
  exact (get?_of_getElem? hlabel hsize hindex).1

section Room

variable (hsize : arena.size < UInt32.size)
include hsize

theorem shape_add (make : NodeId → Node) (id : NodeId) :
    (arena.add make).shape id =
      if id = arena.nextId then some (make arena.nextId).links else arena.shape id := by
  rw [shape, get?_add hsize]
  split
  · rfl
  · rfl

theorem toNat_nextId : arena.nextId.toNat = arena.size := by
  rw [nextId, UInt32.toNat_ofNat_of_lt' hsize]

/-- The next id is no node's id yet. -/
theorem shape_nextId : arena.shape arena.nextId = none := by
  exact shape_eq_none_iff.mpr (Nat.le_of_eq (toNat_nextId hsize).symm)

theorem ne_nextId {id : NodeId} {node : Node} (h : arena.get? id = some node) :
    id ≠ arena.nextId := by
  rintro rfl
  have hnone := shape_nextId hsize
  rw [shape_of_get? h] at hnone
  contradiction

/-- Every node is older than the next one. -/
theorem lt_nextId {id : NodeId} {links : Links} (h : arena.shape id = some links) :
    id < arena.nextId := by
  have hthere : ¬ arena.size ≤ id.toNat := by
    rw [← shape_eq_none_iff, h]
    exact Option.some_ne_none links
  rw [UInt32.lt_iff_toNat_lt, toNat_nextId hsize]
  exact Nat.lt_of_not_le hthere

/-- A new node that is linked under another: the other lists it, and nothing else
changes. -/
theorem get?_add_link (make : NodeId → Node) {parent : NodeId} {above : Node}
    (hparent : arena.get? parent = some above) (index : Nat) (id : NodeId) :
    ((arena.add make).link parent arena.nextId index).get? id =
      if id = arena.nextId then some { make arena.nextId with parent := some parent }
      else if id = parent then
        some { above with
          children := above.children.insertIdx (min index above.children.length) arena.nextId }
      else arena.get? id := by
  have hne : parent ≠ arena.nextId := ne_nextId hsize hparent
  simp only [link, get?_update, get?_add hsize]
  by_cases hid : id = arena.nextId
  · subst hid
    simp [hne]
  · by_cases hother : id = parent
    · subst hother
      simp [hid, Ne.symm hid, hparent]
    · simp [hid, Ne.symm hid, hother, Ne.symm hother]

end Room

end Arena

end Espalier
