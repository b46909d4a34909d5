/-
Documents in which some nodes have forgotten their keys, and in which other parts of the
nodes have changed in a way that does not look at the keys.  Where the nodes that forgot
their keys are no longer listed, a search from the root meets what it met before, less
these nodes.
-/
import Espalier.Proofs.Tree.Bindings
import Espalier.Proofs.Tree.Order

namespace Espalier

open Espalier.Program Relation

namespace Document

variable {document before after : Document}

/-! ### Everything but the keys -/

/-- The nodes without their keys. -/
def unkeyed (document : Document) (id : NodeId) : Option Node :=
  (document.arena.get? id).map ({ · with key := none })

theorem rekeyable_unkeyed (nodes : NodeId → Option Node) :
    Rekeyable fun document => document.unkeyed = nodes where
  update document change hchange h id := by
    have hsame : ∀ node, { change node with key := none } = { node with key := none } := by
      intro node
      obtain ⟨key, hkey⟩ := hchange node
      rw [hkey]
    rw [← h]
    funext other
    simp only [unkeyed, Arena.get?_update]
    split
    · rw [Option.map_map]
      congr 1
      funext node
      exact hsame node
    · rfl
  registry _ h _ := h

theorem unkeyed_forgetKeys {start : NodeId} (h : forgetKeys start before = .ok () after) :
    after.unkeyed = before.unkeyed := by
  have hkeeps := keeps_forgetKeys (rekeyable_unkeyed before.unkeyed).forgetKey start before rfl
  rw [h] at hkeeps
  exact hkeeps

/-- A change that does not look at the key. -/
theorem unkeyed_update {change : Node → Node}
    (h : ∀ node, change { node with key := none } = { change node with key := none })
    (document : Document) (id other : NodeId) :
    ({ document with arena := document.arena.update id change } : Document).unkeyed other =
      (document.unkeyed other).map fun node => if id = other then change node else node := by
  simp only [unkeyed, Arena.get?_update]
  cases document.arena.get? other with
  | none => simp
  | some node =>
      split
      · exact congrArg some (h node).symm
      · rfl

/-- Where no node of a subtree remembers a key, there is nothing to forget. -/
theorem forgetKeys_of_keyless (hlabel : document.arena.shape.Labelled) {start : NodeId}
    (hthere : ∀ id ∈ document.arena.preorder start, (document.arena.get? id).isSome)
    (hnone : ∀ id ∈ document.arena.preorder start, document.keyOf id = none) :
    forgetKeys start document = .ok () document := by
  have hholders : (document.arena.preorder start).filter
      (document.arena.passes (·.key.isSome)) = [] := by
    rw [List.filter_eq_nil_iff]
    intro id hid
    have hkey := hnone id hid
    cases hnode : document.arena.get? id with
    | none => simp [Arena.passes, hnode]
    | some node => simpa [Arena.passes, keyOf, hnode] using hkey
  have hfind : document.find start (·.key.isSome) = .ok [] :=
    (Arena.find_eq_ok_iff hlabel).mpr ⟨hthere, hholders.symm⟩
  rw [forgetKeys, bind_of_ok (get_run document), hfind, bind_of_ok (ofExcept_ok_run _ document)]
  rfl

/-! ### What is dropped -/

/-- The nodes of a document change, some of them forget their keys, and the bindings of
these keys go.  Nothing else changes. -/
structure Drops (gone : List NodeId) (change : NodeId → Node → Node)
    (before after : Document) : Prop where
  size : after.size = before.size
  root : after.root = before.root
  nodes : ∀ id, after.arena.get? id = (before.arena.get? id).map fun node =>
    { change id node with key := if id ∈ gone then none else node.key }
  resolve : ∀ key, after.resolve key =
    if gone.any fun id => before.keyOf id == some key then none else before.resolve key

/-- Where every key leads to the node that remembers it, the keys that are forgotten are
no longer bound. -/
theorem Releases.drops {gone : List NodeId} {change : NodeId → Node → Node}
    (h : Releases (· ∈ gone) before after) (hbound : before.KeysBound)
    (hsize : after.size = before.size) (hroot : after.root = before.root)
    (hnodes : ∀ id, after.unkeyed id =
      (before.arena.get? id).map fun node => { change id node with key := none }) :
    Drops gone change before after := by
  refine ⟨hsize, hroot, ?_, ?_⟩
  · intro id
    have hnode := hnodes id
    have hkey : after.keyOf id = if id ∈ gone then none else before.keyOf id := by
      split
      · next hid => exact h.keyOf_gone id hid
      · next hid => exact h.keyOf_kept id hid
    rw [unkeyed] at hnode
    rw [keyOf, keyOf] at hkey
    cases hbefore : before.arena.get? id with
    | none => simpa [hbefore] using hnode
    | some old =>
        rw [hbefore] at hnode hkey
        obtain ⟨node, hafter, heq⟩ := Option.map_eq_some_iff.mp hnode
        rw [hafter] at hkey
        have hheld : node.key = if id ∈ gone then none else old.key := hkey
        have hwhole : node = { ({ node with key := none } : Node) with key := node.key } := rfl
        rw [hafter, hwhole, heq, hheld]
        rfl
  · intro key
    split
    · next hgone =>
        obtain ⟨id, hid, hheld⟩ := List.any_eq_true.mp hgone
        have hkey := beq_iff_eq.mp hheld
        rw [Option.eq_none_iff_forall_ne_some]
        intro other hother
        obtain ⟨hbefore, hkept⟩ := (h.resolve_iff key other).mp hother
        obtain rfl := Option.some.inj ((hbound id key hkey).symm.trans hbefore)
        exact hkept ⟨hid, hkey⟩
    · next hkept =>
        apply Option.ext
        intro id
        rw [h.resolve_iff]
        apply and_iff_left
        rintro ⟨hid, hkey⟩
        exact hkept (List.any_eq_true.mpr ⟨id, hid, beq_iff_eq.mpr hkey⟩)

/-! ### What a search still meets -/

theorem filter_not_mem_block {front block back : List NodeId}
    (h : (front ++ block ++ back).Nodup) :
    (front ++ block ++ back).filter (· ∉ block) = front ++ back := by
  rw [List.nodup_append] at h
  obtain ⟨hfront, -, hback⟩ := h
  have hdisjoint := List.disjoint_of_nodup_append hfront
  have hkeepFront : front.filter (· ∉ block) = front := by
    rw [List.filter_eq_self]
    exact fun id hid => decide_eq_true fun hblock => hdisjoint hid hblock
  have hkeepBack : back.filter (· ∉ block) = back := by
    rw [List.filter_eq_self]
    exact fun id hid => decide_eq_true fun hblock =>
      hback id (List.mem_append_right front hblock) id hid rfl
  have hdrop : block.filter (· ∉ block) = [] := by
    rw [List.filter_eq_nil_iff]
    exact fun id hid => by simpa using hid
  rw [List.filter_append, List.filter_append, hkeepFront, hdrop, hkeepBack, List.append_nil]

/-- The tree of a node that a search from the root meets stands in one piece in the order. -/
theorem Sound.exists_block (h : document.Sound) {node : NodeId}
    (hnode : node ∈ document.arena.preorder document.root) :
    ∃ front back, document.arena.preorder document.root =
      front ++ document.arena.preorder node ++ back := by
  have horder := Arena.lists_preorder h.shape.acyclic document.root
  obtain ⟨front, below, back, hsplit, hbelow⟩ := horder.exists_block hnode
  have htree := Arena.preorder_eq h.shape.acyclic (.cons hbelow .nil)
  rw [List.append_nil] at htree
  exact ⟨front, back, by rw [hsplit, htree]⟩

section Drops

variable {gone : List NodeId} {change : NodeId → Node → Node}
  (h : Drops gone change before after)
include h

theorem Drops.child_of_child (hsub : ∀ id node, (change id node).children ⊆ node.children)
    {above below : NodeId} (hchild : after.arena.shape.Child above below) :
    before.arena.shape.Child above below := by
  obtain ⟨_, hlinks, hmem⟩ := Shape.exists_of_child hchild
  obtain ⟨node, hnode, rfl⟩ := Arena.exists_of_shape_eq_some hlinks
  rw [h.nodes] at hnode
  obtain ⟨old, hold, rfl⟩ := Option.map_eq_some_iff.mp hnode
  exact Arena.child_of_mem hold (hsub above old hmem)

theorem Drops.keyOf_gone {id : NodeId} (hid : id ∈ gone) : after.keyOf id = none := by
  rw [keyOf, h.nodes]
  cases before.arena.get? id with
  | none => rfl
  | some node => exact if_pos hid

/-- Where everything below the nodes that are gone is gone, and is gone from the child
lists, a search from the root meets the other nodes in the order they had. -/
theorem Drops.descendants (hbefore : before.Sound) (hafter : after.Sound)
    (hroot : before.root ∉ gone)
    (hclosed : ∀ {above below}, above ∈ gone → before.arena.shape.Child above below →
      below ∈ gone)
    (hkept : ∀ id node, before.arena.get? id = some node → id ∉ gone →
      (change id node).children = node.children.filter (· ∉ gone)) :
    after.descendants after.root =
      .ok ((before.arena.preorder before.root).filter (· ∉ gone)) := by
  have hchildren : ∀ id, id ∉ gone → after.arena.shape.childrenOf id =
      (before.arena.shape.childrenOf id).filter (· ∉ gone) := by
    intro id hid
    have hnode := h.nodes id
    cases hold : before.arena.get? id with
    | none =>
        rw [hold] at hnode
        simp [Shape.childrenOf, Arena.shape, hold, hnode]
    | some old =>
        rw [hold] at hnode
        rw [Shape.childrenOf_of_eq_some (Arena.shape_of_get? hold),
          Shape.childrenOf_of_eq_some (Arena.shape_of_get? hnode)]
        exact hkept id old hold hid
  have horder := (Arena.lists_preorder hbefore.shape.acyclic before.root).prune hclosed hchildren
  rw [List.filter_cons_of_pos (by simpa using hroot), List.filter_nil] at horder
  rw [hafter.descendants hafter.isSome_root, h.root,
    Arena.preorder_eq hafter.shape.acyclic horder]

end Drops

end Document

end Espalier
