/-
What the removals do: to the links, and to the keys of everything that they take
out of the tree.
-/
import Espalier.Proofs.Tree.Attaching
import Espalier.Proofs.Tree.Keys
import Espalier.Proofs.Tree.Reshape

namespace Espalier

open Espalier.Program Relation

/-! ### What lies below a node that is cut off -/

namespace Shape

variable {shape : Shape}

theorem below_orphan (shape : Shape) (child : NodeId) :
    (shape.modify child Links.orphan).Below = shape.Below := by
  have hchild : (shape.modify child Links.orphan).Child = shape.Child := by
    funext up low
    exact propext child_orphan_iff
  rw [Below, hchild, Below]

/-- Striking a node off its parent's list leaves what lies below the node. -/
theorem below_unlink_iff {parent node id : NodeId} :
    (shape.unlink parent node).Below node id ↔ shape.Below node id := by
  constructor
  · intro hbelow
    exact ReflTransGen.mono (fun _ _ hchild => (child_unlink_iff.mp hchild).1) _ _ hbelow
  · intro hbelow
    induction hbelow with
    | refl => exact ReflTransGen.refl
    | @tail above below _ hchild ih =>
        by_cases hback : below = node
        · rw [hback]
          exact ReflTransGen.refl
        · exact ih.tail (child_unlink_iff.mpr ⟨hchild, fun hpair => hback hpair.2⟩)

theorem below_cutOff_iff {node id : NodeId} :
    (shape.cutOff node).Below node id ↔ shape.Below node id := by
  rw [cutOff]
  split
  · exact Iff.rfl
  · exact below_unlink_iff

/-- Below the children of a node lies what lies below the node, also when the node
no longer lists them. -/
theorem below_relist_iff {node id : NodeId} :
    (∃ child ∈ shape.childrenOf node, (shape.modify node (Links.relist [])).Below child id) ↔
      TransGen shape.Child node id := by
  have hsub : ∀ {above below}, (shape.modify node (Links.relist [])).Child above below →
      shape.Child above below := by
    intro above below hchild
    by_cases habove : above = node
    · subst habove
      rw [Child, childrenOf_modify_relist_nil] at hchild
      exact absurd hchild List.not_mem_nil
    · rw [Child, childrenOf_modify_of_ne habove] at hchild
      exact hchild
  constructor
  · rintro ⟨child, hchild, hbelow⟩
    apply TransGen.head' hchild
    exact ReflTransGen.mono (fun _ _ => hsub) _ _ hbelow
  · intro hbelow
    induction hbelow with
    | single hchild => exact ⟨_, hchild, ReflTransGen.refl⟩
    | @tail above below _ hchild ih =>
        by_cases habove : above = node
        · subst habove
          exact ⟨below, hchild, ReflTransGen.refl⟩
        · obtain ⟨child, hfirst, hbelow⟩ := ih
          refine ⟨child, hfirst, hbelow.tail ?_⟩
          rw [Child, childrenOf_modify_of_ne habove]
          exact hchild

end Shape

namespace Document

variable {document : Document}

/-! ### Dropping children -/

/-- The document in which a node has lost its parent. -/
def orphaned (document : Document) (child : NodeId) : Document :=
  { document with arena := document.arena.update child ({ · with parent := none }) }

theorem shape_orphaned (document : Document) (child : NodeId) :
    (document.orphaned child).arena.shape =
      document.arena.shape.modify child Links.orphan :=
  Arena.shape_orphan document.arena child

theorem labelled_orphaned (hlabel : document.arena.shape.Labelled) (child : NodeId) :
    (document.orphaned child).arena.shape.Labelled := by
  rw [shape_orphaned]
  exact hlabel.orphan child

theorem keyOf_orphaned (document : Document) (child : NodeId) :
    (document.orphaned child).keyOf = document.keyOf := by
  let orphan (node : Node) : Node := { node with parent := none }
  have hkey : ∀ node, (orphan node).key = node.key := fun _ => rfl
  exact keyOf_update hkey document child

theorem drop_of_some {child : NodeId} {held : Node}
    (h : document.arena.get? child = some held) :
    drop child document = forgetKeys child (document.orphaned child) := by
  rw [drop, bind_of_ok (fetchM_of_some h)]
  rfl

/-- A node that is dropped loses its parent, and its subtree the keys.  Whatever
lists the node goes on listing it. -/
theorem drop_run (hlabel : document.arena.shape.Labelled) {child : NodeId}
    (h : ∀ id, document.arena.shape.Below child id → (document.arena.shape id).isSome) :
    ∃ after, drop child document = .ok () after ∧
      after.arena.shape = document.arena.shape.modify child Links.orphan ∧
      after.root = document.root ∧
      Releases (document.arena.shape.Below child) document after := by
  have hthere : ∀ id ∈ (document.orphaned child).arena.preorder child,
      ((document.orphaned child).arena.get? id).isSome := by
    intro id hid
    rw [Arena.mem_preorder_iff, shape_orphaned, Shape.below_orphan] at hid
    rw [← Arena.isSome_shape_iff, shape_orphaned, Shape.isSome_modify]
    exact h id hid
  obtain ⟨after, hrun, htree, hreleases⟩ :=
    forgetKeys_run (labelled_orphaned hlabel child) hthere
  obtain ⟨held, hheld⟩ : ∃ held, document.arena.get? child = some held := by
    apply Option.isSome_iff_exists.mp
    exact Arena.isSome_shape_iff.mp (h child ReflTransGen.refl)
  refine ⟨after, ?_, ?_, htree.root, ?_⟩
  · rw [drop_of_some hheld]
    exact hrun
  · rw [htree.shape, shape_orphaned]
  · rw [shape_orphaned, Shape.below_orphan] at hreleases
    exact hreleases.congr (keyOf_orphaned document child).symm rfl rfl rfl

theorem exists_of_drop (hlabel : document.arena.shape.Labelled) {child : NodeId}
    {after : Document} (h : drop child document = .ok () after) :
    ∀ id, document.arena.shape.Below child id → (document.arena.shape id).isSome := by
  intro id hid
  cases hheld : document.arena.get? child with
  | none =>
      rw [drop, bind_of_error (fetchM_of_none hheld)] at h
      contradiction
  | some held =>
      rw [drop_of_some hheld] at h
      have hthere := exists_of_forgetKeys (labelled_orphaned hlabel child) h
      rw [← Shape.below_orphan _ child, ← shape_orphaned, ← Arena.mem_preorder_iff] at hid
      rw [← Shape.isSome_modify _ child, ← shape_orphaned, Arena.isSome_shape_iff]
      exact hthere id hid

/-- Dropping nodes one after the other. -/
theorem forM_drop_run (hlabel : document.arena.shape.Labelled) {children : List NodeId}
    (h : ∀ child ∈ children, ∀ id, document.arena.shape.Below child id →
      (document.arena.shape id).isSome) :
    ∃ after, children.forM drop document = .ok () after ∧
      after.arena.shape = document.arena.shape.abandon children ∧
      after.root = document.root ∧
      Releases (fun id => ∃ child ∈ children, document.arena.shape.Below child id)
        document after := by
  induction children generalizing document with
  | nil =>
      refine ⟨document, rfl, rfl, rfl, ?_⟩
      simpa using Releases.refl document
  | cons child children ih =>
      obtain ⟨middle, hrun, hshape, hroot, hreleases⟩ :=
        drop_run hlabel (h child List.mem_cons_self)
      have hlabel' : middle.arena.shape.Labelled := by
        rw [hshape]
        exact hlabel.orphan child
      have hbelow : middle.arena.shape.Below = document.arena.shape.Below := by
        rw [hshape, Shape.below_orphan]
      have hthere : ∀ other ∈ children, ∀ id, middle.arena.shape.Below other id →
          (middle.arena.shape id).isSome := by
        intro other hother id hid
        rw [hbelow] at hid
        rw [hshape, Shape.isSome_modify]
        exact h other (List.mem_cons_of_mem child hother) id hid
      obtain ⟨after, hrest, hshape', hroot', hreleases'⟩ := ih hlabel' hthere
      refine ⟨after, ?_, ?_, ?_, ?_⟩
      · rw [List.forM_eq_forM, List.forM_cons, bind_of_ok hrun]
        exact hrest
      · rw [hshape', hshape, Shape.abandon, Shape.abandon, List.foldl_cons]
      · rw [hroot', hroot]
      · rw [hbelow] at hreleases'
        simpa only [List.mem_cons, exists_eq_or_imp] using hreleases.trans hreleases'

theorem exists_of_forM_drop (hlabel : document.arena.shape.Labelled)
    {children : List NodeId} {after : Document}
    (h : children.forM drop document = .ok () after) :
    ∀ child ∈ children, ∀ id, document.arena.shape.Below child id →
      (document.arena.shape id).isSome := by
  induction children generalizing document with
  | nil => simp
  | cons child children ih =>
      rw [List.forM_eq_forM, List.forM_cons] at h
      obtain ⟨_, middle, hdrop, hrest⟩ := exists_of_bind_ok h
      have hfirst := exists_of_drop hlabel hdrop
      obtain ⟨other, hrun, hshape, -, -⟩ := drop_run hlabel hfirst
      obtain ⟨-, rfl⟩ : () = () ∧ other = middle := by
        rw [hdrop] at hrun
        cases hrun
        exact ⟨rfl, rfl⟩
      have hlabel' : other.arena.shape.Labelled := by
        rw [hshape]
        exact hlabel.orphan child
      have hlater := ih hlabel' hrest
      rw [hshape, Shape.below_orphan] at hlater
      intro sibling hsibling id hid
      rcases List.mem_cons.mp hsibling with rfl | hsibling
      · exact hfirst id hid
      · rw [← Shape.isSome_modify _ child]
        exact hlater sibling hsibling id hid

/-! ### Clearing -/

/-- The document in which a node lists nothing. -/
def emptied (document : Document) (node : NodeId) : Document :=
  { document with arena := document.arena.update node ({ · with children := [] }) }

theorem shape_emptied (document : Document) (node : NodeId) :
    (document.emptied node).arena.shape =
      document.arena.shape.modify node (Links.relist []) :=
  Arena.shape_relist document.arena node []

theorem labelled_emptied (hlabel : document.arena.shape.Labelled) (node : NodeId) :
    (document.emptied node).arena.shape.Labelled := by
  have hrelist : ∀ links : Links, (links.relist []).label = links.label := fun _ => rfl
  rw [shape_emptied]
  exact hlabel.modify hrelist node

theorem keyOf_emptied (document : Document) (node : NodeId) :
    (document.emptied node).keyOf = document.keyOf := by
  let empty (node : Node) : Node := { node with children := [] }
  have hkey : ∀ node, (empty node).key = node.key := fun _ => rfl
  exact keyOf_update hkey document node

theorem clear_of_none {node : NodeId} (h : document.arena.get? node = none) :
    clear node document = .error (.unknownNode node) document := by
  rw [clear, bind_of_error (fetchM_of_none h)]

theorem clear_of_some {node : NodeId} {held : Node}
    (h : document.arena.get? node = some held) :
    clear node document = (do
      held.children.forM drop
      setHtml node "" : DocumentM NodeId) (document.emptied node) := by
  rw [clear, bind_of_ok (fetchM_of_some h)]
  rfl

/-- A node that is cleared lists nothing any more, what it listed has no parent,
and everything that was below it loses the keys. -/
theorem clear_run (hlabel : document.arena.shape.Labelled) {node : NodeId} {held : Node}
    (hnode : document.arena.get? node = some held)
    (h : ∀ id, TransGen document.arena.shape.Child node id →
      (document.arena.shape id).isSome) :
    ∃ after, clear node document = .ok node after ∧
      after.arena.shape = document.arena.shape.cleared node ∧
      after.root = document.root ∧
      Releases (TransGen document.arena.shape.Child node) document after := by
  have hchildren : document.arena.shape.childrenOf node = held.children :=
    Shape.childrenOf_of_eq_some (Arena.shape_of_get? hnode)
  have hthere : ∀ child ∈ held.children, ∀ id,
      (document.emptied node).arena.shape.Below child id →
        ((document.emptied node).arena.shape id).isSome := by
    intro child hchild id hid
    rw [shape_emptied] at hid ⊢
    rw [Shape.isSome_modify]
    apply h
    rw [← Shape.below_relist_iff, hchildren]
    exact ⟨child, hchild, hid⟩
  obtain ⟨middle, hrun, hshape, hroot, hreleases⟩ :=
    forM_drop_run (labelled_emptied hlabel node) hthere
  rw [shape_emptied] at hshape hreleases
  obtain ⟨last, hlast⟩ : ∃ last, middle.arena.get? node = some last := by
    apply Option.isSome_iff_exists.mp
    rw [← Arena.isSome_shape_iff, hshape, Shape.isSome_abandon, Shape.isSome_modify,
      Arena.isSome_shape_iff, hnode]
    rfl
  let blank (node : Node) : Node := { node with content := some (.html "") }
  have hlinks : ∀ node, (blank node).links = node.links := fun _ => rfl
  have hkey : ∀ node, (blank node).key = node.key := fun _ => rfl
  have hgone : (fun id => ∃ child ∈ held.children,
      (document.arena.shape.modify node (Links.relist [])).Below child id) =
        TransGen document.arena.shape.Child node := by
    funext id
    rw [← hchildren]
    exact propext Shape.below_relist_iff
  rw [hgone] at hreleases
  refine ⟨{ middle with arena := middle.arena.update node blank }, ?_, ?_, hroot, ?_⟩
  · rw [clear_of_some hnode, bind_of_ok hrun]
    exact edit_of_some hlast blank
  · rw [Arena.shape_update_of_links hlinks, hshape, Shape.cleared, hchildren]
  · exact hreleases.congr (keyOf_emptied document node).symm rfl
      (keyOf_update hkey middle node) rfl

theorem exists_of_clear (hlabel : document.arena.shape.Labelled) {node answer : NodeId}
    {after : Document} (h : clear node document = .ok answer after) :
    ∃ held, document.arena.get? node = some held ∧
      ∀ id, TransGen document.arena.shape.Child node id →
        (document.arena.shape id).isSome := by
  cases hnode : document.arena.get? node with
  | none =>
      rw [clear, bind_of_error (fetchM_of_none hnode)] at h
      contradiction
  | some held =>
      refine ⟨held, rfl, ?_⟩
      rw [clear_of_some hnode] at h
      obtain ⟨_, middle, hdrop, -⟩ := exists_of_bind_ok h
      have hthere := exists_of_forM_drop (labelled_emptied hlabel node) hdrop
      intro id hid
      rw [← Shape.below_relist_iff,
        Shape.childrenOf_of_eq_some (Arena.shape_of_get? hnode)] at hid
      obtain ⟨child, hchild, hbelow⟩ := hid
      rw [← shape_emptied] at hbelow
      rw [← Shape.isSome_modify _ node (Links.relist []) id, ← shape_emptied]
      exact hthere child hchild id hbelow

/-! ### Removing -/

/-- The document in which a node is unlinked from a parent. -/
def unlinked (document : Document) (parent node : NodeId) : Document :=
  { document with
    arena := (document.arena.update node ({ · with parent := none })).update parent
      fun above => { above with children := above.children.filter (· != node) } }

theorem shape_unlinked (document : Document) (parent node : NodeId) :
    (document.unlinked parent node).arena.shape = document.arena.shape.unlink parent node :=
  Arena.shape_unlink document.arena parent node

theorem keyOf_unlinked (document : Document) (parent node : NodeId) :
    (document.unlinked parent node).keyOf = document.keyOf := by
  let strike (above : Node) : Node :=
    { above with children := above.children.filter (· != node) }
  have hkey : ∀ above, (strike above).key = above.key := fun _ => rfl
  have hstep := keyOf_update hkey (document.orphaned node) parent
  exact hstep.trans (keyOf_orphaned document node)

theorem detach_of_none {node : NodeId} (hnode : document.arena.get? node = none) :
    detach node document = .error (.unknownNode node) document := by
  rw [detach_run, Arena.detach_of_none hnode]

theorem detach_of_top {node : NodeId} {held : Node}
    (hnode : document.arena.get? node = some held) (htop : held.parent = none) :
    detach node document = .ok none document := by
  rw [detach_run, Arena.detach_of_top hnode htop]

section Child

variable {node parent : NodeId} {held : Node}
  (hnode : document.arena.get? node = some held) (hparent : held.parent = some parent)
include hnode hparent

theorem detach_of_child (habove : (document.arena.get? parent).isSome) :
    detach node document = .ok (some parent) (document.unlinked parent node) := by
  rw [detach_run, Arena.detach_of_child hnode hparent habove]
  rfl

/-- The link of a node to its parent goes before the parent is looked up. -/
theorem detach_of_dangling (habove : document.arena.get? parent = none) :
    detach node document = .error (.unknownNode parent) (document.orphaned node) := by
  rw [detach_run, Arena.detach_of_dangling hnode hparent habove]
  rfl

end Child

/-- The document in which a node is unlinked from its parent, if it has one. -/
def cutOff (document : Document) (node : NodeId) : Document :=
  match (document.arena.get? node).bind (·.parent) with
  | none => document
  | some parent => document.unlinked parent node

theorem shape_cutOff (document : Document) (node : NodeId) :
    (document.cutOff node).arena.shape = document.arena.shape.cutOff node := by
  have hparent : (document.arena.shape node).bind Links.parent =
      (document.arena.get? node).bind (·.parent) := by
    rw [Arena.shape, Option.bind_map]
    rfl
  rw [cutOff, Shape.cutOff, hparent]
  cases (document.arena.get? node).bind (·.parent) with
  | none => rfl
  | some parent => exact shape_unlinked document parent node

theorem keyOf_cutOff (document : Document) (node : NodeId) :
    (document.cutOff node).keyOf = document.keyOf := by
  rw [cutOff]
  split
  · rfl
  · exact keyOf_unlinked document _ node

theorem registry_cutOff (document : Document) (node : NodeId) :
    (document.cutOff node).registry = document.registry := by
  rw [cutOff]
  split
  · rfl
  · rfl

theorem root_cutOff (document : Document) (node : NodeId) :
    (document.cutOff node).root = document.root := by
  rw [cutOff]
  split
  · rfl
  · rfl

/-- A node is detached when it and its parent, if it has one, exist. -/
theorem detach_eq_ok_iff {node : NodeId} {answer : Option NodeId} {after : Document} :
    detach node document = .ok answer after ↔
      ∃ held, document.arena.get? node = some held ∧ answer = held.parent ∧
        (∀ parent, held.parent = some parent → (document.arena.get? parent).isSome) ∧
        after = document.cutOff node := by
  cases hnode : document.arena.get? node with
  | none =>
      rw [detach_of_none hnode]
      simp
  | some held =>
      have hcut : document.cutOff node = match held.parent with
          | none => document
          | some parent => document.unlinked parent node := by
        rw [cutOff, hnode]
        rfl
      rw [hcut]
      cases hparent : held.parent with
      | none =>
          rw [detach_of_top hnode hparent]
          constructor
          · rintro ⟨⟩
            exact ⟨held, rfl, hparent.symm, by simp [hparent], rfl⟩
          · rintro ⟨other, heq, rfl, -, rfl⟩
            obtain rfl := Option.some.inj heq
            rw [hparent]
      | some parent =>
          cases habove : document.arena.get? parent with
          | none =>
              rw [detach_of_dangling hnode hparent habove]
              simp [hparent, habove]
          | some above =>
              have hthere : (document.arena.get? parent).isSome :=
                Option.isSome_of_eq_some habove
              rw [detach_of_child hnode hparent hthere]
              constructor
              · rintro ⟨⟩
                exact ⟨held, rfl, hparent.symm, by simp [hparent, hthere], rfl⟩
              · rintro ⟨other, heq, rfl, -, rfl⟩
                obtain rfl := Option.some.inj heq
                rw [hparent]

theorem remove_of_eq {node : NodeId} (h : node = document.root) :
    remove node document = .error (.rootRemoval node) document := by
  rw [remove, bind_of_ok (get_run document), if_pos h,
    bind_of_error (throw_run _ document)]

theorem remove_of_ne {node : NodeId} (h : node ≠ document.root) :
    remove node document = (do
      let _ ← detach node
      forgetKeys node : DocumentM Unit) document := by
  rw [remove, bind_of_ok (get_run document), if_neg h]

theorem remove_of_none {node : NodeId} (hroot : node ≠ document.root)
    (hnode : document.arena.get? node = none) :
    remove node document = .error (.unknownNode node) document := by
  rw [remove_of_ne hroot, bind_of_error (detach_of_none hnode)]

/-- A node that is removed is cut off from its parent, and its subtree loses the
keys. -/
theorem remove_run (hlabel : document.arena.shape.Labelled) {node : NodeId} {held : Node}
    (hroot : node ≠ document.root) (hnode : document.arena.get? node = some held)
    (hparent : ∀ parent, held.parent = some parent → (document.arena.get? parent).isSome)
    (h : ∀ id, document.arena.shape.Below node id → (document.arena.shape id).isSome) :
    ∃ after, remove node document = .ok () after ∧
      after.arena.shape = document.arena.shape.cutOff node ∧
      after.root = document.root ∧
      Releases (document.arena.shape.Below node) document after := by
  have hdetach : detach node document = .ok held.parent (document.cutOff node) :=
    detach_eq_ok_iff.mpr ⟨held, hnode, rfl, hparent, rfl⟩
  have hlabel' : (document.cutOff node).arena.shape.Labelled := by
    rw [shape_cutOff]
    exact hlabel.cutOff node
  have hthere : ∀ id ∈ (document.cutOff node).arena.preorder node,
      ((document.cutOff node).arena.get? id).isSome := by
    intro id hid
    rw [Arena.mem_preorder_iff, shape_cutOff, Shape.below_cutOff_iff] at hid
    rw [← Arena.isSome_shape_iff, shape_cutOff, Shape.isSome_cutOff]
    exact h id hid
  obtain ⟨after, hrun, htree, hreleases⟩ := forgetKeys_run hlabel' hthere
  have hbelow : (document.cutOff node).arena.shape.Below node =
      document.arena.shape.Below node := by
    funext id
    rw [shape_cutOff]
    exact propext Shape.below_cutOff_iff
  rw [hbelow] at hreleases
  refine ⟨after, ?_, ?_, ?_, ?_⟩
  · rw [remove_of_ne hroot, bind_of_ok hdetach]
    exact hrun
  · rw [htree.shape, shape_cutOff]
  · rw [htree.root, root_cutOff]
  · exact hreleases.congr (keyOf_cutOff document node).symm
      (registry_cutOff document node).symm rfl rfl

theorem exists_of_remove (hlabel : document.arena.shape.Labelled) {node : NodeId}
    {after : Document} (h : remove node document = .ok () after) :
    node ≠ document.root ∧
      ∃ held, document.arena.get? node = some held ∧
        (∀ parent, held.parent = some parent → (document.arena.get? parent).isSome) ∧
        ∀ id, document.arena.shape.Below node id → (document.arena.shape id).isSome := by
  by_cases hroot : node = document.root
  · rw [remove_of_eq hroot] at h
    contradiction
  rw [remove_of_ne hroot] at h
  obtain ⟨answer, middle, hdetach, hforget⟩ := exists_of_bind_ok h
  obtain ⟨held, hnode, -, hparent, rfl⟩ := detach_eq_ok_iff.mp hdetach
  have hlabel' : (document.cutOff node).arena.shape.Labelled := by
    rw [shape_cutOff]
    exact hlabel.cutOff node
  have hthere := exists_of_forgetKeys hlabel' hforget
  refine ⟨hroot, held, hnode, hparent, ?_⟩
  intro id hid
  rw [← Shape.below_cutOff_iff, ← shape_cutOff, ← Arena.mem_preorder_iff] at hid
  rw [← Shape.isSome_cutOff _ node, ← shape_cutOff, Arena.isSome_shape_iff]
  exact hthere id hid

end Document

end Espalier
