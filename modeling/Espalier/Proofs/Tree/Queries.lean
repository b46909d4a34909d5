/-
The queries of a document.  Where the links fit together, a query about a node
meets nothing on its way but nodes, so that it can only be refused for its own
arguments: for a node that is not there, for a step past the top of a tree, or for
an index that the children do not reach.
-/
import Espalier.Proofs.Tree.Sound
import Espalier.Tree.Outline
import Espalier.Tree.Path
import Espalier.Tree.Snapshot

namespace Espalier.Document

open Espalier.Program

variable {document : Document} {node : NodeId} {held : Node}

/-! ### A node, its children and its parent -/

theorem fetch_of_some (h : document.arena.get? node = some held) :
    document.fetch node = .ok held :=
  Arena.fetch_eq_ok_iff.mpr h

theorem fetch_of_none (h : document.arena.get? node = none) :
    document.fetch node = .error (.unknownNode node) :=
  Arena.fetch_of_none h

theorem children_of_some (h : document.arena.get? node = some held) :
    document.children node = .ok held.children :=
  exceptBind_of_ok (fetch_of_some h) _

theorem children_of_none (h : document.arena.get? node = none) :
    document.children node = .error (.unknownNode node) :=
  exceptBind_of_error (fetch_of_none h) _

/-- An index outside the children, from either end, is refused. -/
theorem child_of_outside (h : document.arena.get? node = some held) {index : Int}
    (hindex : index < -held.children.length ∨ held.children.length ≤ index) :
    document.child node index = .error (.noChild node index) := by
  rw [child, exceptBind_of_ok (children_of_some h)]
  rcases hindex with hlow | hhigh
  · have hneg : index < 0 := by omega
    have hplace : index + held.children.length < 0 := by omega
    simp only [hneg, hplace, if_true]
    rfl
  · have hpos : ¬ index < 0 := by omega
    have hplace : held.children[index.toNat]? = none := by
      apply List.getElem?_eq_none
      omega
    simp only [hpos, if_false, hplace]
    rfl

/-- Each place in the child list has two indices: one from the front, one from the back. -/
theorem child_of_place (h : document.arena.get? node = some held) {place : Nat} {found : NodeId}
    (hplace : held.children[place]? = some found) {index : Int}
    (hindex : index = place ∨ index = place - held.children.length) :
    document.child node index = .ok found := by
  obtain ⟨hthere, -⟩ := List.getElem?_eq_some_iff.mp hplace
  have hresolved : (if index < 0 then index + held.children.length else index) = place := by
    split <;> omega
  rw [child, exceptBind_of_ok (children_of_some h)]
  simp only [hresolved, Int.not_lt.mpr (Int.natCast_nonneg place), if_false, Int.toNat_natCast,
    hplace]
  rfl

theorem exists_place {count : Nat} {index : Int} (hlow : -count ≤ index) (hhigh : index < count) :
    ∃ place < count, index = (place : Int) ∨ index = place - count := by
  by_cases hneg : index < 0
  · exact ⟨(index + count).toNat, by omega, .inr (by omega)⟩
  · exact ⟨index.toNat, by omega, .inl (by omega)⟩

theorem exists_child (h : document.arena.get? node = some held) {index : Int}
    (hlow : -held.children.length ≤ index) (hhigh : index < held.children.length) :
    ∃ found, document.child node index = .ok found := by
  obtain ⟨place, hthere, hindex⟩ := exists_place hlow hhigh
  exact ⟨_, child_of_place h (List.getElem?_eq_getElem hthere) hindex⟩

/-- A child is found at the indices of its places, and at no others. -/
theorem child_eq_ok_iff (h : document.arena.get? node = some held) {index : Int}
    {found : NodeId} :
    document.child node index = .ok found ↔
      ∃ place : Nat, held.children[place]? = some found ∧
        (index = place ∨ index = place - held.children.length) := by
  constructor
  · intro hfound
    by_cases hindex : index < -held.children.length ∨ held.children.length ≤ index
    · rw [child_of_outside h hindex] at hfound
      contradiction
    · rw [not_or, Int.not_lt, Int.not_le] at hindex
      obtain ⟨place, hthere, hplace⟩ := exists_place hindex.1 hindex.2
      have hchild := child_of_place h (List.getElem?_eq_getElem hthere) hplace
      rw [hfound] at hchild
      exact ⟨place, by rw [List.getElem?_eq_getElem hthere, Except.ok.inj hchild], hplace⟩
  · rintro ⟨place, hplace, hindex⟩
    exact child_of_place h hplace hindex

/-- The parent of a node of a sound document is there, and lists the node. -/
theorem Sound.exists_above (h : document.Sound) (hnode : document.arena.get? node = some held)
    {parent : NodeId} (hparent : held.parent = some parent) :
    ∃ above, document.arena.get? parent = some above ∧ node ∈ above.children := by
  obtain ⟨-, links, hlinks, hmem⟩ := h.shape.linked (Arena.shape_of_get? hnode) hparent
  obtain ⟨above, habove, rfl⟩ := Arena.exists_of_shape_eq_some hlinks
  exact ⟨above, habove, hmem⟩

theorem parent_of_none (h : document.arena.get? node = none) :
    document.parent node = .error (.unknownNode node) :=
  exceptBind_of_error (exceptBind_of_error (fetch_of_none h) _) _

/-- The parent of a node is the one that the node remembers. -/
theorem Sound.parent_of_some (h : document.Sound) (hnode : document.arena.get? node = some held) :
    document.parent node = .ok held.parent := by
  have hfetch : document.arena.fetch node = .ok held := fetch_of_some hnode
  cases hparent : held.parent with
  | none =>
      have hup : document.arena.parent? node = .ok none := by
        rw [Arena.parent?, exceptBind_of_ok hfetch, hparent]
        rfl
      exact exceptBind_of_ok hup _
  | some parent =>
      obtain ⟨above, habove, -⟩ := h.exists_above hnode hparent
      have hup : document.arena.parent? node = .ok (some above) := by
        rw [Arena.parent?, exceptBind_of_ok hfetch, hparent]
        exact exceptBind_of_ok (fetch_of_some habove) _
      have hid : above.id = parent := h.shape.labelled _ _ (Arena.shape_of_get? habove)
      rw [← hid]
      exact exceptBind_of_ok hup _

theorem Sound.exists_parent (h : document.Sound) (hnode : document.arena.get? node = some held) :
    ∃ answer, document.parent node = .ok answer :=
  ⟨held.parent, h.parent_of_some hnode⟩

/-- The parent of a node is the node that lists it. -/
theorem Sound.parent_eq_some_iff (h : document.Sound) {parent : NodeId} :
    document.parent node = .ok (some parent) ↔ document.arena.shape.Child parent node := by
  constructor
  · intro hup
    cases hnode : document.arena.get? node with
    | none =>
        rw [parent_of_none hnode] at hup
        contradiction
    | some held =>
        rw [h.parent_of_some hnode] at hup
        obtain ⟨above, habove, hmem⟩ := h.exists_above hnode (Except.ok.inj hup)
        exact Arena.child_of_mem habove hmem
  · intro hchild
    obtain ⟨-, links, hlinks, hparent⟩ := h.shape.parent_of_child hchild
    obtain ⟨held, hnode, rfl⟩ := Arena.exists_of_shape_eq_some hlinks
    rw [h.parent_of_some hnode]
    exact congrArg Except.ok hparent

/-! ### The place of a node -/

theorem position_of_none (h : document.arena.get? node = none) :
    position node document = .error (.unknownNode node) document := by
  rw [position, bind_of_ok (get_run document), Arena.placeOf_of_none h,
    bind_of_error (ofExcept_error_run _ document)]

theorem position_of_top (h : document.arena.shape.Top node) :
    position node document = .error (.noParent node) document := by
  obtain ⟨links, hlinks, hparent⟩ := h
  obtain ⟨held, hheld, rfl⟩ := Arena.exists_of_shape_eq_some hlinks
  rw [position, bind_of_ok (get_run document), Arena.placeOf_of_top hheld hparent,
    bind_of_ok (ofExcept_ok_run _ document)]
  rfl

/-- A node of a sound document is a top, or it has a place among the children of a
parent that is there. -/
theorem Sound.exists_position (h : document.Sound) (hnode : document.arena.get? node = some held)
    (htop : ¬ document.arena.shape.Top node) :
    ∃ parent above index, document.arena.get? parent = some above ∧
      position node document = .ok (parent, index) document := by
  obtain ⟨parent, hparent⟩ : ∃ parent, held.parent = some parent := by
    apply Option.ne_none_iff_exists'.mp
    intro hnone
    exact htop ⟨held.links, Arena.shape_of_get? hnode, hnone⟩
  obtain ⟨above, habove, hmem⟩ := h.exists_above hnode hparent
  obtain ⟨index, hindex⟩ := Option.isSome_iff_exists.mp (List.isSome_idxOf?.mpr hmem)
  refine ⟨parent, above, index, habove, ?_⟩
  rw [position, bind_of_ok (get_run document), Arena.placeOf_of_child hnode hparent habove, hindex,
    bind_of_ok (ofExcept_ok_run _ document)]
  rfl

/-! ### Ancestors -/

/-- A number of parent links leads from one node to another. -/
inductive Climbs (document : Document) : Nat → NodeId → NodeId → Prop where
  | here (node : NodeId) : Climbs document 0 node node
  | up {steps : Nat} {node parent top : NodeId} {held : Node}
      (hnode : document.arena.get? node = some held) (hparent : held.parent = some parent)
      (h : Climbs document steps parent top) : Climbs document (steps + 1) node top

/-- Climbing on from the top of a tree is refused there. -/
theorem ascend_of_climbs {steps levels : Nat} {top : NodeId} (h : document.Climbs steps node top)
    (htop : document.arena.shape.Top top) (hsteps : steps < levels) :
    document.ascend levels node = .error (.noParent top) := by
  induction h generalizing levels with
  | here node =>
      obtain ⟨links, hlinks, hparent⟩ := htop
      obtain ⟨held, hheld, rfl⟩ := Arena.exists_of_shape_eq_some hlinks
      obtain ⟨levels, rfl⟩ := Nat.exists_eq_succ_of_ne_zero (Nat.ne_of_gt hsteps)
      have hnone : held.parent = none := hparent
      rw [ascend, exceptBind_of_ok (fetch_of_some hheld), hnone]
      rfl
  | up hnode hparent _ ih =>
      have hpos : 0 < levels := Nat.zero_lt_of_lt hsteps
      obtain ⟨levels, rfl⟩ := Nat.exists_eq_succ_of_ne_zero (Nat.ne_of_gt hpos)
      rw [ascend, exceptBind_of_ok (fetch_of_some hnode), hparent]
      exact ih htop (Nat.lt_of_succ_lt_succ hsteps)

/-- Climbing in a sound document ends at a node, or at a top that is too near. -/
theorem Sound.ascend_cases (h : document.Sound) (levels : Nat)
    (hnode : document.arena.get? node = some held) :
    (∃ found, document.ascend levels node = .ok found) ∨
      ∃ steps top, document.Climbs steps node top ∧ document.arena.shape.Top top ∧
        steps < levels := by
  induction levels generalizing node held with
  | zero => exact Or.inl ⟨node, rfl⟩
  | succ levels ih =>
      cases hparent : held.parent with
      | none =>
          have htop : document.arena.shape.Top node :=
            ⟨held.links, Arena.shape_of_get? hnode, hparent⟩
          exact Or.inr ⟨0, node, Climbs.here node, htop, Nat.succ_pos levels⟩
      | some parent =>
          obtain ⟨above, habove, -⟩ := h.exists_above hnode hparent
          rcases ih habove with ⟨found, hfound⟩ | ⟨steps, top, hclimb, htop, hsteps⟩
          · refine Or.inl ⟨found, ?_⟩
            rw [ascend, exceptBind_of_ok (fetch_of_some hnode), hparent]
            exact hfound
          · exact Or.inr ⟨steps + 1, top, Climbs.up hnode hparent hclimb, htop,
              Nat.succ_lt_succ hsteps⟩

theorem ascend_of_none (h : document.arena.get? node = none) {levels : Nat} (hlevels : 0 < levels) :
    document.ascend levels node = .error (.unknownNode node) := by
  obtain ⟨levels, rfl⟩ := Nat.exists_eq_succ_of_ne_zero (Nat.ne_of_gt hlevels)
  exact exceptBind_of_error (fetch_of_none h) _

/-! ### Whole subtrees -/

theorem outlineFrom_of_none (h : document.arena.get? node = none) (settings : OutlineSettings) :
    document.outlineFrom settings node = .error (.unknownNode node) := by
  rw [outlineFrom]
  simp only [EStateM.run, Arena.walk_of_none h]

theorem Sound.exists_outlineFrom (h : document.Sound)
    (hnode : (document.arena.shape node).isSome) (settings : OutlineSettings) :
    ∃ text, document.outlineFrom settings node = .ok text := by
  have hwalk : Succeeds (document.arena.walkLevels (Outline.printer settings)
      (document.arena.size + 1) node 0) := by
    apply Arena.succeeds_walkLevels
    · exact fun _ _ => Succeeds.modify _
    · exact fun _ _ => Succeeds.modify _
    · exact fun _ hbelow => h.isSome_of_below hnode hbelow
  obtain ⟨_, text, hrun⟩ := hwalk ""
  refine ⟨text, ?_⟩
  rw [outlineFrom]
  simp only [EStateM.run, Arena.walk_eq, hrun]

/-- The nodes of a list of ids that all name one. -/
theorem exists_mapM_fetch {ids : List NodeId} (h : ∀ id ∈ ids, (document.arena.get? id).isSome) :
    ∃ nodes, ids.mapM document.fetch = .ok nodes ∧
      nodes.map some = ids.map document.arena.get? := by
  induction ids with
  | nil => exact ⟨[], rfl, rfl⟩
  | cons id ids ih =>
      obtain ⟨held, hheld⟩ := Option.isSome_iff_exists.mp (h id List.mem_cons_self)
      obtain ⟨nodes, hnodes, hsome⟩ :=
        ih fun other hother => h other (List.mem_cons_of_mem id hother)
      refine ⟨held :: nodes, ?_, ?_⟩
      · rw [List.mapM_cons, exceptBind_of_ok (fetch_of_some hheld), exceptBind_of_ok hnodes]
        rfl
      · rw [List.map_cons, List.map_cons, hheld, hsome]

/-- The nodes that can be reached from the root of a sound document are those that a walk
meets. -/
theorem Sound.exists_reachable (h : document.Sound) :
    ∃ nodes, document.reachable = .ok nodes ∧
      nodes.map some = (document.arena.preorder document.root).map document.arena.get? := by
  have hstart := h.isSome_root
  have hthere : ∀ id ∈ document.arena.preorder document.root,
      (document.arena.get? id).isSome := by
    intro id hid
    exact h.isSome_of_below hstart (Arena.mem_preorder_iff.mp hid)
  obtain ⟨nodes, hnodes, hsome⟩ := exists_mapM_fetch hthere
  refine ⟨nodes, ?_, hsome⟩
  rw [reachable, exceptBind_of_ok (h.descendants hstart)]
  exact hnodes

theorem toText_of_reachable {nodes : List Node} (h : document.reachable = .ok nodes) :
    document.toText = .ok (Json.ofMembers
      [("root", Node.wordJson document.root), ("nodes", .ofList Node.toJson nodes)]).toText := by
  have hjson : document.toJson = .ok (.ofMembers
      [("root", Node.wordJson document.root), ("nodes", .ofList Node.toJson nodes)]) :=
    exceptBind_of_ok h _
  exact exceptBind_of_ok hjson _

/-- A sound document can always be written down. -/
theorem Sound.exists_toText (h : document.Sound) : ∃ text, document.toText = .ok text := by
  obtain ⟨nodes, hnodes, -⟩ := h.exists_reachable
  exact ⟨_, toText_of_reachable hnodes⟩

/-! ### Paths -/

theorem path_of_none (h : document.arena.get? node = none) :
    document.path node = .error (.unknownNode node) :=
  exceptBind_of_error (exceptBind_of_error (fetch_of_none h) _) _

end Espalier.Document
