/-
Reached documents are forests.  The links of a document with no more nodes than
there are ids fit together after every call, so that the trees below the nodes
without a parent hold every node once.
-/
import Espalier.Proofs.Tree.Removal
import Espalier.Proofs.Tree.Reachable

namespace Espalier.Document

open Espalier.Program Relation

variable {document : Document}

/-- The links fit together, and the root is a top. -/
structure Sound (document : Document) : Prop where
  shape : document.arena.shape.Sound
  root : document.arena.shape.Top document.root

theorem Sound.isSome_root (h : document.Sound) : (document.arena.shape document.root).isSome := by
  obtain ⟨links, hroot, -⟩ := h.root
  simp [hroot]

/-- A document is sound as long as every node has an id of its own. -/
def SoundInRoom (document : Document) : Prop :=
  document.size ≤ UInt32.size → document.Sound

theorem structural_soundInRoom : Structural SoundInRoom := by
  apply Structural.of_sameTree
  intro before after htree h hsize
  rw [htree.size] at hsize
  obtain ⟨hshape, hroot⟩ := h hsize
  exact ⟨htree.shape ▸ hshape, by rw [htree.shape, htree.root]; exact hroot⟩

theorem soundInRoom_new (rootTag : String) : SoundInRoom (new rootTag) := by
  intro _
  let root : NodeId := ({} : Arena).nextId
  have hsize : ({} : Arena).size < UInt32.size := by decide
  have hshape : ∀ id, (new rootTag).arena.shape id =
      if id = root then some ⟨root, none, []⟩ else none := by
    intro id
    rw [new, Arena.addElement, Arena.shape_add hsize]
    rfl
  have honly : ∀ {id links}, (new rootTag).arena.shape id = some links →
      id = root ∧ links = ⟨root, none, []⟩ := by
    intro id links hid
    rw [hshape] at hid
    split at hid
    · next heq => exact ⟨heq, (Option.some.inj hid).symm⟩
    · contradiction
  constructor
  · constructor
    · intro id links hid
      obtain ⟨rfl, rfl⟩ := honly hid
      rfl
    · intro id links hid child hchild
      obtain ⟨-, rfl⟩ := honly hid
      exact absurd hchild List.not_mem_nil
    · intro id links hid
      obtain ⟨-, rfl⟩ := honly hid
      exact List.nodup_nil
    · intro id links hid parent hparent
      obtain ⟨-, rfl⟩ := honly hid
      contradiction
  · refine ⟨⟨root, none, []⟩, ?_, rfl⟩
    rw [hshape]
    exact if_pos rfl

/-! ### Growing -/

theorem links_newNode (spec : String) (above : Node) (id : NodeId) :
    (newNode spec above id).links = ⟨id, none, []⟩ := by
  obtain ⟨tag, ns, hnew⟩ := stripped_newNode spec above id
  exact Node.links_of_stripped hnew

theorem soundInRoom_insertAt (parent : NodeId) (spec : String) (index : Nat) :
    Keeps SoundInRoom (insertAt parent spec index) := by
  apply keeps_insertAt_inRoom
  intro document above hsize hparent h
  have habove := Arena.shape_of_get? hparent
  have hgraft := Arena.shape_add_link hsize (links_newNode spec above) habove index
  constructor
  · rw [hgraft]
    exact h.shape.graft habove (Arena.shape_nextId hsize) (Arena.lt_nextId hsize habove) index
  · rw [hgraft]
    exact h.root.graft habove (Arena.shape_nextId hsize) index

/-! ### Removing -/

/-- What can be read off the tree stays as it is. -/
theorem structural_eq {α : Type} {field : Document → α}
    (h : ∀ {before after : Document}, SameTree before after → field after = field before)
    (value : α) : Structural fun document => field document = value := by
  apply Structural.of_sameTree
  intro before after htree hvalue
  exact (h htree).trans hvalue

theorem structural_size (size : Nat) : Structural fun document => document.size = size :=
  structural_eq (fun htree => htree.size) size

theorem structural_root (root : NodeId) : Structural fun document => document.root = root :=
  structural_eq (fun htree => htree.root) root

theorem updateProof_size (size : Nat) : UpdateProof fun document => document.size = size := by
  intro document change _ _ hsize id
  exact (Arena.size_update _ _ _).trans hsize

theorem updateProof_root (root : NodeId) : UpdateProof fun document => document.root = root :=
  fun _ _ _ _ hroot _ => hroot

theorem size_clear (node : NodeId) (document : Document) :
    (stateAfter (clear node document)).size = document.size :=
  keeps_clear (updateProof_size document.size).withstands_trims.uproots
    (structural_size _).forgetKey node document rfl

theorem size_remove (node : NodeId) (document : Document) :
    (stateAfter (remove node document)).size = document.size :=
  keeps_remove (updateProof_size document.size).withstands_trims.uproots
    (structural_size _).forgetKey node document rfl

theorem root_clear (node : NodeId) (document : Document) :
    (stateAfter (clear node document)).root = document.root :=
  keeps_clear (updateProof_root document.root).withstands_trims.uproots
    (structural_root _).forgetKey node document rfl

theorem root_remove (node : NodeId) (document : Document) :
    (stateAfter (remove node document)).root = document.root :=
  keeps_remove (updateProof_root document.root).withstands_trims.uproots
    (structural_root _).forgetKey node document rfl

/-- Clearing a node of a sound document succeeds. -/
theorem Sound.exists_clear (h : document.Sound) {node : NodeId} {held : Node}
    (hnode : document.arena.get? node = some held) :
    ∃ after, clear node document = .ok node after ∧ after.Sound ∧
      Releases (TransGen document.arena.shape.Child node) document after := by
  obtain ⟨after, hrun, hshape, hroot, hreleases⟩ := clear_run h.shape.labelled hnode
    fun id hid => h.shape.isSome_of_transGen hid
  refine ⟨after, hrun, ⟨?_, ?_⟩, hreleases⟩
  · rw [hshape]
    exact h.shape.cleared node
  · rw [hshape, hroot]
    exact h.root.cleared node

/-- Removing a node of a sound document succeeds, unless it is the root. -/
theorem Sound.exists_remove (h : document.Sound) {node : NodeId} {held : Node}
    (hroot : node ≠ document.root) (hnode : document.arena.get? node = some held) :
    ∃ after, remove node document = .ok () after ∧ after.Sound ∧
      Releases (document.arena.shape.Below node) document after := by
  have hparent : ∀ parent, held.parent = some parent →
      (document.arena.get? parent).isSome := by
    intro parent hup
    obtain ⟨-, above, habove, -⟩ := h.shape.linked (Arena.shape_of_get? hnode) hup
    rw [← Arena.isSome_shape_iff, habove]
    rfl
  have hthere : ∀ id, document.arena.shape.Below node id →
      (document.arena.shape id).isSome := by
    intro id hid
    apply Shape.isSome_of_below h.shape.isSome_of_child _ hid
    rw [Arena.shape_of_get? hnode]
    rfl
  obtain ⟨after, hrun, hshape, hroot', hreleases⟩ :=
    remove_run h.shape.labelled hroot hnode hparent hthere
  refine ⟨after, hrun, ⟨?_, ?_⟩, hreleases⟩
  · rw [hshape]
    exact h.shape.cutOff node
  · rw [hshape, hroot']
    exact h.root.cutOff node

theorem soundInRoom_clear (node : NodeId) : Keeps SoundInRoom (clear node) := by
  intro document h hroom
  rw [size_clear] at hroom
  cases hnode : document.arena.get? node with
  | none =>
      rw [clear_of_none hnode]
      exact h hroom
  | some held =>
      obtain ⟨after, hrun, hafter, -⟩ := (h hroom).exists_clear hnode
      rw [hrun]
      exact hafter

theorem soundInRoom_remove (node : NodeId) : Keeps SoundInRoom (remove node) := by
  intro document h hroom
  rw [size_remove] at hroom
  by_cases hroot : node = document.root
  · rw [remove_of_eq hroot]
    exact h hroom
  cases hnode : document.arena.get? node with
  | none =>
      rw [remove_of_none hroot hnode]
      exact h hroom
  | some held =>
      obtain ⟨after, hrun, hafter, -⟩ := (h hroom).exists_remove hroot hnode
      rw [hrun]
      exact hafter

/-- A reached document is sound as long as every node has an id of its own. -/
theorem soundInRoom_of_reachable (h : Reachable document) : SoundInRoom document :=
  (structural_soundInRoom.kept soundInRoom_insertAt soundInRoom_clear
    soundInRoom_remove).of_reachable soundInRoom_new h

/-! ### Well-formed documents -/

/-- What a document promises of its nodes. -/
structure WellFormed (document : Document) : Prop where
  id_eq : ∀ (index : Nat) (node : Node),
    document.arena.nodes[index]? = some node → node.id.toNat = index
  listed : ∀ node ∈ document.arena.nodes, ∀ child ∈ node.children,
    ∃ below, document.arena.get? child = some below ∧ below.parent = some node.id
  linked : ∀ node ∈ document.arena.nodes, ∀ parent, node.parent = some parent →
    parent < node.id ∧ ∃ above, document.arena.get? parent = some above ∧
      above.children.count node.id = 1
  root_top : ∃ node, document.arena.get? document.root = some node ∧ node.parent = none

/-- The ids of all nodes, the detached ones included. -/
def ids (document : Document) : List NodeId :=
  (List.range document.size).map UInt32.ofNat

/-- The nodes without a parent: the root, and the tops of the detached trees. -/
def tops (document : Document) : List NodeId :=
  document.ids.filter fun id => (document.arena.get? id).any (·.parent.isNone)

theorem Sound.wellFormed (h : document.Sound) (hsize : document.size ≤ UInt32.size) :
    document.WellFormed := by
  have hplace : ∀ node ∈ document.arena.nodes,
      document.arena.shape node.id = some node.links := by
    intro node hnode
    exact Arena.shape_of_get? (Arena.get?_of_mem h.shape.labelled hsize hnode)
  constructor
  · intro index node hnode
    exact (Arena.get?_of_getElem? h.shape.labelled hsize hnode).2
  · intro node hnode child hchild
    obtain ⟨links, hlinks, hparent⟩ := h.shape.listed (hplace node hnode) child hchild
    obtain ⟨below, hbelow, rfl⟩ := Arena.exists_of_shape_eq_some hlinks
    exact ⟨below, hbelow, hparent⟩
  · intro node hnode parent hparent
    obtain ⟨hlt, links, hlinks, hmem⟩ := h.shape.linked (hplace node hnode) hparent
    obtain ⟨above, habove, rfl⟩ := Arena.exists_of_shape_eq_some hlinks
    exact ⟨hlt, above, habove, List.count_eq_one_of_mem (h.shape.nodup hlinks) hmem⟩
  · obtain ⟨links, hlinks, hnone⟩ := h.root
    obtain ⟨node, hnode, rfl⟩ := Arena.exists_of_shape_eq_some hlinks
    exact ⟨node, hnode, hnone⟩

theorem mem_ids_iff (hsize : document.size ≤ UInt32.size) {id : NodeId} :
    id ∈ document.ids ↔ (document.arena.shape id).isSome := by
  rw [Arena.isSome_shape_iff, Arena.isSome_get?_iff, ids, List.mem_map]
  constructor
  · rintro ⟨index, hindex, rfl⟩
    have hlt := List.mem_range.mp hindex
    rw [UInt32.toNat_ofNat_of_lt' (Nat.lt_of_lt_of_le hlt hsize)]
    exact hlt
  · intro hlt
    exact ⟨id.toNat, List.mem_range.mpr hlt, UInt32.ofNat_toNat⟩

/-- Different numbers give different ids, as long as there are enough ids. -/
theorem nodup_map_ofNat {indices : List Nat} (h : indices.Nodup)
    (hbound : ∀ index ∈ indices, index < UInt32.size) :
    (indices.map UInt32.ofNat).Nodup := by
  apply h.map_on
  intro first hfirst second hsecond heq
  rw [← UInt32.toNat_inj, UInt32.toNat_ofNat_of_lt' (hbound first hfirst),
    UInt32.toNat_ofNat_of_lt' (hbound second hsecond)] at heq
  exact heq

theorem nodup_ids (hsize : document.size ≤ UInt32.size) : document.ids.Nodup := by
  apply nodup_map_ofNat List.nodup_range
  intro index hindex
  exact Nat.lt_of_lt_of_le (List.mem_range.mp hindex) hsize

theorem mem_tops_iff (hsize : document.size ≤ UInt32.size) {id : NodeId} :
    id ∈ document.tops ↔ document.arena.shape.Top id := by
  rw [tops, List.mem_filter, mem_ids_iff hsize, Shape.Top]
  cases hid : document.arena.get? id with
  | none => simp [Arena.shape, hid]
  | some node => simp [Arena.shape, hid, Node.links]

/-- Everything below a node is a node. -/
theorem Sound.isSome_of_below (h : document.Sound) {start id : NodeId}
    (hstart : (document.arena.shape start).isSome) (hid : document.arena.shape.Below start id) :
    (document.arena.get? id).isSome := by
  rw [← Arena.isSome_shape_iff]
  exact Shape.isSome_of_below h.shape.isSome_of_child hstart hid

/-- A search from a node meets nothing but nodes. -/
theorem Sound.find (h : document.Sound) {start : NodeId}
    (hstart : (document.arena.shape start).isSome) (test : Node → Bool) :
    document.find start test =
      .ok ((document.arena.preorder start).filter (document.arena.passes test)) := by
  apply (Arena.find_eq_ok_iff h.shape.labelled).mpr
  refine ⟨?_, rfl⟩
  intro id hid
  exact h.isSome_of_below hstart (Arena.mem_preorder_iff.mp hid)

theorem Sound.descendants (h : document.Sound) {start : NodeId}
    (hstart : (document.arena.shape start).isSome) :
    document.descendants start = .ok (document.arena.preorder start) := by
  have hall : (document.arena.preorder start).filter
      (document.arena.passes fun _ => true) = document.arena.preorder start := by
    apply List.filter_eq_self.mpr
    intro id hid
    have hthere := h.isSome_of_below hstart (Arena.mem_preorder_iff.mp hid)
    obtain ⟨node, hnode⟩ := Option.isSome_iff_exists.mp hthere
    simp [Arena.passes, hnode]
  rw [Document.descendants, h.find hstart, hall]

/-- The trees below the tops hold every node once. -/
theorem Sound.perm_ids (h : document.Sound) (hsize : document.size ≤ UInt32.size) :
    (document.tops.flatMap document.arena.preorder).Perm document.ids := by
  have hnodup : (document.tops.flatMap document.arena.preorder).Nodup := by
    rw [List.nodup_flatMap]
    constructor
    · intro top _
      exact h.shape.nodup_preorder _ top
    · apply ((nodup_ids hsize).filter _).pairwise_of_forall_ne
      intro first hfirst second hsecond hne id hleft hright
      rw [← tops, mem_tops_iff hsize] at hfirst hsecond
      exact hne (h.shape.top_unique hfirst hsecond (Arena.mem_preorder_iff.mp hleft)
        (Arena.mem_preorder_iff.mp hright))
  rw [List.perm_ext_iff_of_nodup hnodup (nodup_ids hsize)]
  intro id
  rw [mem_ids_iff hsize, List.mem_flatMap]
  constructor
  · rintro ⟨top, htop, hid⟩
    obtain ⟨links, hlinks, -⟩ := (mem_tops_iff hsize).mp htop
    apply Shape.isSome_of_below h.shape.isSome_of_child _ (Arena.mem_preorder_iff.mp hid)
    simp [hlinks]
  · intro hid
    obtain ⟨top, htop, hbelow⟩ := h.shape.exists_top hid
    exact ⟨top, (mem_tops_iff hsize).mpr htop, Arena.mem_preorder_iff.mpr hbelow⟩

/-- Whatever calls led to a document, failed ones included, its nodes are well
formed, no node lies below itself, and the lists of descendants of the nodes
without a parent hold every node once. -/
theorem reachable_wellFormed (h : Reachable document)
    (hsize : document.size ≤ UInt32.size) :
    document.WellFormed ∧
      (∀ id, ¬ TransGen document.arena.shape.Child id id) ∧
      ∃ trees : NodeId → List NodeId,
        (∀ top ∈ document.tops, document.descendants top = .ok (trees top)) ∧
          (document.tops.flatMap trees).Perm document.ids := by
  have hsound := soundInRoom_of_reachable h hsize
  refine ⟨hsound.wellFormed hsize, hsound.shape.acyclic, document.arena.preorder, ?_, ?_⟩
  · intro top htop
    obtain ⟨links, hlinks, -⟩ := (mem_tops_iff hsize).mp htop
    apply hsound.descendants
    simp [hlinks]
  · exact hsound.perm_ids hsize

/-- A list with an item is inserted beside a paragraph and removed again. -/
theorem reachable_wellFormed_removed_list :
    let calls : List Operation := [.insert 0 "ul", .insert 1 "li", .insert 0 "p", .remove 1]
    let document := calls.foldl Operation.apply (new "body")
    Reachable document ∧ document.size = 4 ∧ document.WellFormed ∧
      (∀ id, ¬ TransGen document.arena.shape.Child id id) ∧
      ∃ trees : NodeId → List NodeId,
        (∀ top ∈ document.tops, document.descendants top = .ok (trees top)) ∧
          (document.tops.flatMap trees).Perm document.ids := by
  intro calls document
  have hreach : Reachable document :=
    ((((Reachable.new "body").step (.insert 0 "ul")).step (.insert 1 "li")).step
      (.insert 0 "p")).step (.remove 1)
  have hsize : document.size = 4 := (size_remove 1 _).trans rfl
  exact ⟨hreach, hsize, reachable_wellFormed hreach (by rw [hsize]; decide)⟩

end Espalier.Document
