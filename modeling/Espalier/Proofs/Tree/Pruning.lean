/-
What a removal and a clearing leave of a document.  They change the links at the place
where a subtree is cut off, the content of a node that is cleared, and the keys of the
nodes that are cut off.
-/
import Espalier.Proofs.Tree.Drops

namespace Espalier.Document

open Espalier.Program Relation

variable {document before after : Document}

/-! ### Removing -/

/-- What a removal makes of the links of a node. -/
def struckFrom (node : NodeId) (parent : Option NodeId) (id : NodeId) (other : Node) : Node :=
  { other with
    parent := if id = node then none else other.parent
    children :=
      if parent = some id then other.children.filter (· != node) else other.children }

theorem get?_unlinked (document : Document) (parent node id : NodeId) :
    (document.unlinked parent node).arena.get? id =
      (document.arena.get? id).map (struckFrom node (some parent) id) := by
  simp only [unlinked, Arena.get?_update]
  cases document.arena.get? id with
  | none => simp
  | some other =>
      rcases eq_or_ne node id with rfl | hnode
      · rcases eq_or_ne parent node with rfl | hparent
        · simp [struckFrom]
        · simp [struckFrom, hparent]
      · rcases eq_or_ne parent id with rfl | hparent
        · simp [struckFrom, hnode, hnode.symm]
        · simp [struckFrom, hnode, hnode.symm, hparent]

/-- A node without a parent is listed by no other, so there is nothing to strike. -/
theorem struckFrom_none {node id : NodeId} {other : Node}
    (h : id = node → other.parent = none) : struckFrom node none id other = other := by
  have hparent : (if id = node then none else other.parent) = other.parent := by
    split
    · next hid => exact (h hid).symm
    · rfl
  rw [struckFrom, hparent]
  simp

theorem get?_cutOff {node : NodeId} {held : Node} (hnode : document.arena.get? node = some held)
    (id : NodeId) : (document.cutOff node).arena.get? id =
      (document.arena.get? id).map (struckFrom node held.parent id) := by
  rw [cutOff, hnode, Option.bind_some]
  cases hup : held.parent with
  | none =>
      have hsame : ∀ other ∈ document.arena.get? id, struckFrom node none id other = other := by
        intro other hother
        apply struckFrom_none
        rintro rfl
        rw [hnode] at hother
        obtain rfl := Option.some.inj hother
        exact hup
      rw [Option.map_congr hsame]
      simp
  | some parent => exact get?_unlinked document parent node id

/-- Removing a node that is there and is not the root takes its tree out. -/
theorem Sound.exists_drops_remove (h : before.Sound) (hbound : before.KeysBound) {node : NodeId}
    {held : Node} (hroot : node ≠ before.root) (hnode : before.arena.get? node = some held) :
    ∃ after, remove node before = .ok () after ∧ after.Sound ∧
      Drops (before.arena.preorder node) (struckFrom node held.parent) before after := by
  obtain ⟨after, hrun, hafter, hreleases⟩ := h.exists_remove hroot hnode
  have hgone : Releases (· ∈ before.arena.preorder node) before after := by
    simpa only [Arena.mem_preorder_iff] using hreleases
  have hsize := size_remove node before
  have hroot' := root_remove node before
  rw [hrun] at hsize hroot'
  refine ⟨after, hrun, hafter, hgone.drops hbound hsize hroot' ?_⟩
  intro id
  rw [remove_of_ne hroot] at hrun
  obtain ⟨_, middle, hdetach, hforget⟩ := exists_of_bind_ok hrun
  obtain ⟨-, -, -, -, rfl⟩ := detach_eq_ok_iff.mp hdetach
  rw [unkeyed_forgetKeys hforget, unkeyed, get?_cutOff hnode, Option.map_map]
  rfl

/-- The children that a node keeps are those that do not belong to the removed tree. -/
theorem Sound.children_struckFrom (h : document.Sound) {node id : NodeId} {held other : Node}
    (hnode : document.arena.get? node = some held) (hother : document.arena.get? id = some other)
    (hid : id ∉ document.arena.preorder node) :
    (struckFrom node held.parent id other).children =
      other.children.filter (· ∉ document.arena.preorder node) := by
  have hgone : ∀ child ∈ other.children,
      (child ∈ document.arena.preorder node ↔ child = node) := by
    intro child hmem
    have hchild := Arena.child_of_mem hother hmem
    rw [Arena.mem_preorder_iff] at hid ⊢
    rw [h.shape.below_child_iff hchild, or_iff_left hid, eq_comm]
  have hstruck : other.children.filter (· ∉ document.arena.preorder node) =
      other.children.filter (· != node) := by
    apply List.filter_congr
    intro child hmem
    rw [Bool.eq_iff_iff]
    simp [hgone child hmem]
  rw [hstruck]
  by_cases hup : held.parent = some id
  · exact if_pos hup
  · -- no other node than its parent lists the removed one
    have hfree : node ∉ other.children := by
      intro hmem
      obtain ⟨below, hbelow, hparent⟩ := h.shape.listed (Arena.shape_of_get? hother) node hmem
      rw [Arena.shape_of_get? hnode] at hbelow
      obtain rfl := Option.some.inj hbelow
      exact hup hparent
    have hkept : other.children.filter (· != node) = other.children := by
      rw [List.filter_eq_self]
      intro child hmem
      exact bne_iff_ne.mpr fun heq => hfree (heq ▸ hmem)
    rw [hkept]
    exact if_neg hup

/-- After a removal a search from the root meets the nodes that are not in the removed tree. -/
theorem Sound.descendants_remove (h : before.Sound) (hafter : after.Sound) {node : NodeId}
    {held : Node} (hroot : node ≠ before.root) (hnode : before.arena.get? node = some held)
    (hdrops : Drops (before.arena.preorder node) (struckFrom node held.parent) before after) :
    after.descendants after.root =
      .ok ((before.arena.preorder before.root).filter (· ∉ before.arena.preorder node)) := by
  apply hdrops.descendants h hafter
  · intro hgone
    exact hroot (h.shape.eq_of_below_top h.root (Arena.mem_preorder_iff.mp hgone))
  · intro above below hgone hchild
    rw [Arena.mem_preorder_iff] at hgone ⊢
    exact hgone.tail hchild
  · intro id other hother hid
    exact h.children_struckFrom hnode hother hid

/-- A node that was removed has no parent and no keys below it, so there is nothing left to
remove. -/
theorem Drops.remove_again {node : NodeId} {held : Node}
    (h : Drops (before.arena.preorder node) (struckFrom node held.parent) before after)
    (hafter : after.Sound) (hroot : node ≠ before.root)
    (hnode : before.arena.get? node = some held) : remove node after = .ok () after := by
  have hroot' : node ≠ after.root := by
    rw [h.root]
    exact hroot
  have hnode' := h.nodes node
  rw [hnode, Option.map_some] at hnode'
  have htop : (struckFrom node held.parent node held).parent = none := if_pos rfl
  have hsub : ∀ id other, (struckFrom node held.parent id other).children ⊆ other.children := by
    intro id other
    rw [struckFrom]
    dsimp only
    split
    · exact List.filter_subset_self _
    · exact List.Subset.refl _
  have hbelow : ∀ id ∈ after.arena.preorder node, id ∈ before.arena.preorder node := by
    intro id hid
    rw [Arena.mem_preorder_iff] at hid ⊢
    exact ReflTransGen.mono (fun _ _ => h.child_of_child hsub) _ _ hid
  rw [remove_of_ne hroot', bind_of_ok (detach_of_top hnode' htop)]
  apply forgetKeys_of_keyless hafter.shape.labelled
  · intro id hid
    apply hafter.isSome_of_below _ (Arena.mem_preorder_iff.mp hid)
    rw [Arena.isSome_shape_iff, hnode']
    rfl
  · intro id hid
    exact h.keyOf_gone (hbelow id hid)

/-! ### Clearing -/

/-- What a clearing makes of the links and the content of a node. -/
def clearedOf (node : NodeId) (children : List NodeId) (id : NodeId) (other : Node) : Node :=
  { other with
    parent := if id ∈ children then none else other.parent
    children := if id = node then [] else other.children
    content := if id = node then some (.html "") else other.content }

theorem unkeyed_drop {child : NodeId} (h : drop child before = .ok () after) (id : NodeId) :
    after.unkeyed id = (before.unkeyed id).map fun node =>
      if child = id then { node with parent := none } else node := by
  cases hheld : before.arena.get? child with
  | none =>
      rw [drop, bind_of_error (fetchM_of_none hheld)] at h
      contradiction
  | some held =>
      rw [drop_of_some hheld] at h
      rw [unkeyed_forgetKeys h]
      exact unkeyed_update (fun _ => rfl) before child id

theorem unkeyed_forM_drop {children : List NodeId} (h : children.forM drop before = .ok () after)
    (id : NodeId) : after.unkeyed id = (before.unkeyed id).map fun node =>
      if id ∈ children then { node with parent := none } else node := by
  induction children generalizing before with
  | nil =>
      obtain ⟨-, rfl⟩ := EStateM.Result.ok.inj h
      simp
  | cons child children ih =>
      rw [List.forM_eq_forM, List.forM_cons] at h
      obtain ⟨_, middle, hdrop, hrest⟩ := exists_of_bind_ok h
      rw [ih hrest, unkeyed_drop hdrop, Option.map_map]
      congr 1
      funext node
      by_cases hchild : child = id
      · by_cases hmem : id ∈ children
        · simp [hchild, hmem]
        · simp [hchild, hmem]
      · simp [hchild, Ne.symm hchild]

theorem unkeyed_clear {node answer : NodeId} {held : Node}
    (hnode : before.arena.get? node = some held) (h : clear node before = .ok answer after)
    (id : NodeId) : after.unkeyed id = (before.arena.get? id).map fun other =>
      { clearedOf node held.children id other with key := none } := by
  rw [clear_of_some hnode] at h
  obtain ⟨_, middle, hdrops, hhtml⟩ := exists_of_bind_ok h
  cases hlast : middle.arena.get? node with
  | none =>
      rw [setHtml, edit_of_none hlast] at hhtml
      contradiction
  | some last =>
      rw [setHtml, edit_of_some hlast] at hhtml
      obtain ⟨-, rfl⟩ := EStateM.Result.ok.inj hhtml
      rw [unkeyed_update (fun _ => rfl), unkeyed_forM_drop hdrops, emptied,
        unkeyed_update (fun _ => rfl), unkeyed]
      cases before.arena.get? id with
      | none => rfl
      | some other =>
          rcases eq_or_ne node id with rfl | hid
          · by_cases hmem : node ∈ held.children
            · simp [clearedOf, hmem]
            · simp [clearedOf, hmem]
          · by_cases hmem : id ∈ held.children
            · simp [clearedOf, hid, hid.symm, hmem]
            · simp [clearedOf, hid, hid.symm, hmem]

section Clear

variable {node : NodeId} {below : List NodeId} (h : before.Sound)
  (hbelow : before.arena.preorder node = node :: below)
include h hbelow

theorem Sound.mem_below_iff {id : NodeId} :
    id ∈ below ↔ TransGen before.arena.shape.Child node id := by
  have hnodup : (node :: below).Nodup := hbelow ▸ h.shape.nodup_preorder _ node
  have hmem : id ∈ node :: below ↔ before.arena.shape.Below node id := by
    rw [← hbelow, Arena.mem_preorder_iff]
  rw [List.mem_cons, Shape.Below, reflTransGen_iff_eq_or_transGen] at hmem
  constructor
  · intro hid
    rcases hmem.mp (.inr hid) with rfl | hproper
    · exact absurd hid (List.nodup_cons.mp hnodup).1
    · exact hproper
  · intro hproper
    rcases hmem.mpr (.inr hproper) with rfl | hid
    · exact absurd hproper (h.shape.acyclic id)
    · exact hid

/-- Clearing a node that is there takes out what is below it. -/
theorem Sound.exists_drops_clear (hbound : before.KeysBound) {held : Node}
    (hnode : before.arena.get? node = some held) :
    ∃ after, clear node before = .ok node after ∧ after.Sound ∧
      Drops below (clearedOf node held.children) before after := by
  obtain ⟨after, hrun, hafter, hreleases⟩ := h.exists_clear hnode
  have hgone : Releases (· ∈ below) before after := by
    simpa only [h.mem_below_iff hbelow] using hreleases
  have hsize := size_clear node before
  have hroot := root_clear node before
  rw [hrun] at hsize hroot
  exact ⟨after, hrun, hafter, hgone.drops hbound hsize hroot (unkeyed_clear hnode hrun)⟩

/-- Only the node that is cleared has listed nodes that are gone, and only such nodes. -/
theorem Sound.children_clearedOf {id : NodeId} {held other : Node}
    (hnode : before.arena.get? node = some held) (hother : before.arena.get? id = some other)
    (hid : id ∉ below) :
    (clearedOf node held.children id other).children =
      other.children.filter (· ∉ below) := by
  have hchild : ∀ child ∈ other.children, before.arena.shape.Child id child :=
    fun _ hmem => Arena.child_of_mem hother hmem
  symm
  by_cases heq : id = node
  · have hnone : other.children.filter (· ∉ below) = [] := by
      rw [List.filter_eq_nil_iff]
      intro child hmem
      have hgone := (h.mem_below_iff hbelow).mpr (TransGen.single (heq ▸ hchild child hmem))
      simpa using hgone
    rw [hnone]
    exact (if_pos heq).symm
  · have hall : other.children.filter (· ∉ below) = other.children := by
      rw [List.filter_eq_self]
      intro child hmem
      apply decide_eq_true
      intro hgone
      obtain ⟨parent, hup, hlast⟩ := TransGen.tail'_iff.mp ((h.mem_below_iff hbelow).mp hgone)
      obtain rfl := h.shape.eq_of_child hlast (hchild child hmem)
      rcases reflTransGen_iff_eq_or_transGen.mp hup with rfl | hproper
      · exact heq rfl
      · exact hid ((h.mem_below_iff hbelow).mpr hproper)
    rw [hall]
    exact (if_neg heq).symm

/-- After a clearing a search from the root meets the nodes that were not below the node. -/
theorem Sound.descendants_clear (hafter : after.Sound) {held : Node}
    (hnode : before.arena.get? node = some held)
    (hdrops : Drops below (clearedOf node held.children) before after) :
    after.descendants after.root =
      .ok ((before.arena.preorder before.root).filter (· ∉ below)) := by
  apply hdrops.descendants h hafter
  · intro hgone
    have hproper := (h.mem_below_iff hbelow).mp hgone
    obtain rfl := h.shape.eq_of_below_top h.root hproper.to_reflTransGen
    exact h.shape.acyclic _ hproper
  · intro above under hgone hchild
    rw [h.mem_below_iff hbelow] at hgone ⊢
    exact hgone.tail hchild
  · intro id other hother hid
    exact h.children_clearedOf hbelow hnode hother hid

end Clear

/-- A node that was cleared lists nothing and has no content, so there is nothing left to
clear. -/
theorem Drops.clear_again {node : NodeId} {below : List NodeId} {held : Node}
    (h : Drops below (clearedOf node held.children) before after)
    (hnode : before.arena.get? node = some held) : clear node after = .ok node after := by
  have hnode' := h.nodes node
  rw [hnode, Option.map_some] at hnode'
  have hsame : ∀ {change : Node → Node},
      (∀ node : Node, node.children = [] → node.content = some (.html "") →
        change node = node) →
      { after with arena := after.arena.update node change } = after := by
    intro change hchange
    rw [Arena.update_eq_self]
    intro last hlast
    obtain rfl := Option.some.inj (hnode'.symm.trans hlast)
    exact hchange _ (if_pos rfl) (if_pos rfl)
  have hempty : after.emptied node = after := by
    apply hsame
    intro last hchildren _
    rw [← hchildren]
  have hblank : setHtml node "" after = .ok node after := by
    rw [setHtml, edit_of_some hnode', hsame]
    intro last _ hcontent
    rw [← hcontent]
  have hnone : (clearedOf node held.children node held).children = [] := if_pos rfl
  rw [clear_of_some hnode', hempty]
  simp only [hnone]
  exact hblank

/-! ### Reached documents -/

/-- Taking a node of a reached document out, and taking out what is below it.  Both calls
succeed, the first unless the node is the root.  They change what `struckFrom` and
`clearedOf` say, and take the keys off the nodes that are gone; where a search from the
root met the node, the nodes that are gone stood in one piece in what it met, and it meets
the others in the order they had.  The same call again changes nothing.

Ids are 32-bit numbers, and the bound is the number of nodes that can have ids of their
own. -/
theorem reachable_prunings (h : Reachable document) (hsize : document.size ≤ UInt32.size)
    {node : NodeId} {held : Node} (hnode : document.arena.get? node = some held) :
    ∃ below order, document.descendants node = .ok (node :: below) ∧
      document.descendants document.root = .ok order ∧
      (node ≠ document.root → ∃ after, remove node document = .ok () after ∧
        Drops (node :: below) (struckFrom node held.parent) document after ∧
        (node ∈ order → ∃ front back, order = front ++ (node :: below) ++ back ∧
          after.descendants after.root = .ok (front ++ back)) ∧
        remove node after = .ok () after) ∧
      ∃ after, clear node document = .ok node after ∧
        Drops below (clearedOf node held.children) document after ∧
        (node ∈ order → ∃ front back, order = front ++ (node :: below) ++ back ∧
          after.descendants after.root = .ok (front ++ [node] ++ back)) ∧
        clear node after = .ok node after := by
  have hsound := soundInRoom_of_reachable h hsize
  have hbound : document.KeysBound := (keysAgree_of_reachable h).bound
  obtain ⟨below, hbelow⟩ : ∃ below, document.arena.preorder node = node :: below := ⟨_, rfl⟩
  have hthere : (document.arena.shape node).isSome := by
    rw [Arena.isSome_shape_iff, hnode]
    rfl
  have hdescendants := hsound.descendants hthere
  rw [hbelow] at hdescendants
  have hnodup : (document.arena.preorder document.root).Nodup :=
    hsound.shape.nodup_preorder _ document.root
  refine ⟨below, document.arena.preorder document.root, hdescendants,
    hsound.descendants hsound.isSome_root, ?_, ?_⟩
  · intro hroot
    obtain ⟨after, hrun, hafter, hdrops⟩ := hsound.exists_drops_remove hbound hroot hnode
    have hkept := hsound.descendants_remove hafter hroot hnode hdrops
    have hagain := hdrops.remove_again hafter hroot hnode
    refine ⟨after, hrun, hbelow ▸ hdrops, ?_, hagain⟩
    intro hreached
    obtain ⟨front, back, hsplit⟩ := hsound.exists_block hreached
    rw [hsplit] at hnodup
    rw [hsplit, filter_not_mem_block hnodup] at hkept
    exact ⟨front, back, hbelow ▸ hsplit, hkept⟩
  · obtain ⟨after, hrun, hafter, hdrops⟩ := hsound.exists_drops_clear hbelow hbound hnode
    have hkept := hsound.descendants_clear hbelow hafter hnode hdrops
    refine ⟨after, hrun, hdrops, ?_, hdrops.clear_again hnode⟩
    intro hreached
    obtain ⟨front, back, hsplit⟩ := hsound.exists_block hreached
    rw [hbelow] at hsplit
    -- the node itself stays, in front of what is gone
    have hcut : document.arena.preorder document.root = front ++ [node] ++ below ++ back := by
      simp [hsplit]
    rw [hcut] at hnodup
    rw [hcut, filter_not_mem_block hnodup] at hkept
    exact ⟨front, back, hsplit, hkept⟩

/-- A list with two items stands in front of a paragraph, and two of its nodes have keys. -/
theorem reachable_prunings_list :
    let calls : List Operation := [.insert 0 "ul", .insert 1 "li", .insert 1 "li",
      .insert 0 "p", .register 1 "list", .register 3 "item", .register 4 "text"]
    let document := calls.foldl Operation.apply (new "body")
    Reachable document ∧ document.descendants 1 = .ok [1, 2, 3] ∧
      document.descendants document.root = .ok [0, 1, 2, 3, 4] ∧
      (∃ after, remove 1 document = .ok () after ∧
        Drops [1, 2, 3] (struckFrom 1 (some 0)) document after ∧
        (∃ front back, [0, 1, 2, 3, 4] = front ++ [1, 2, 3] ++ back ∧
          after.descendants after.root = .ok (front ++ back)) ∧
        remove 1 after = .ok () after) ∧
      ∃ after, clear 1 document = .ok 1 after ∧
        Drops [2, 3] (clearedOf 1 [2, 3]) document after ∧
        (∃ front back, [0, 1, 2, 3, 4] = front ++ [1, 2, 3] ++ back ∧
          after.descendants after.root = .ok (front ++ [1] ++ back)) ∧
        clear 1 after = .ok 1 after := by
  intro calls document
  have hreach : Reachable document := (Reachable.new "body").foldl calls
  have hsize : document.size ≤ UInt32.size := by decide +kernel
  obtain ⟨held, hheld⟩ : ∃ held, document.arena.get? 1 = some held :=
    Option.isSome_iff_exists.mp (by decide +kernel)
  have hlinks : (document.arena.get? 1).map Node.links = some ⟨1, some 0, [2, 3]⟩ := by
    decide +kernel
  rw [hheld, Option.map_some, Option.some.injEq] at hlinks
  have hparent : held.parent = some 0 := congrArg Links.parent hlinks
  have hchildren : held.children = [2, 3] := congrArg Links.children hlinks
  have hsound := soundInRoom_of_reachable hreach hsize
  have htree : document.descendants 1 = .ok [1, 2, 3] := by
    rw [hsound.descendants (by decide +kernel)]
    decide +kernel
  have hwhole : document.descendants document.root = .ok [0, 1, 2, 3, 4] := by
    rw [hsound.descendants hsound.isSome_root]
    decide +kernel
  obtain ⟨below, order, hbelow, horder, hremove, after, hclear, hdrops, hkept, hagain⟩ :=
    reachable_prunings hreach hsize hheld
  obtain ⟨-, rfl⟩ := List.cons.inj (Except.ok.inj (hbelow.symm.trans htree))
  obtain rfl := Except.ok.inj (horder.symm.trans hwhole)
  obtain ⟨after', hremove', hdrops', hkept', hagain'⟩ := hremove (by decide +kernel)
  rw [hparent] at hdrops'
  rw [hchildren] at hdrops
  exact ⟨hreach, htree, hwhole, ⟨after', hremove', hdrops', hkept' (by decide), hagain'⟩,
    after, hclear, hdrops, hkept (by decide), hagain⟩

end Espalier.Document
