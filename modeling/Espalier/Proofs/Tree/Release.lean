/-
Which bindings a removal leaves in the registry.  A node that is registered under
a second key stays bound to the first, but no longer remembers it; so when the
node is taken out of the tree, the first key goes on resolving to it.
-/
import Espalier.Proofs.Tree.Sound

namespace Espalier.Document

open Espalier.Program Relation

variable {document : Document}

/-! ### Reached documents carry their ids -/

theorem structural_labelled : Structural fun document => document.arena.shape.Labelled := by
  apply Structural.of_sameTree
  intro before after htree hlabel
  rw [htree.shape]
  exact hlabel

theorem stable_labelled : Stable fun document => document.arena.shape.Labelled where
  update _ _ hid _ hlabel id := Arena.labelled_update hid hlabel id
  add _ _ hid _ hlabel := Arena.labelled_add hid hlabel
  register := structural_labelled.register
  forgetKey := structural_labelled.forgetKey

/-- Every node of a reached document carries the id that leads to it, however many
nodes there are. -/
theorem labelled_of_reachable (h : Reachable document) : document.arena.shape.Labelled := by
  apply stable_labelled.kept.of_reachable _ h
  intro rootTag
  apply Arena.labelled_add (fun _ => rfl)
  intro id links hid
  have hnone : ({} : Arena).get? id = none := rfl
  rw [Arena.shape, hnone] at hid
  contradiction

/-! ### Stale bindings -/

/-- Some nodes cannot be reached through the registry. -/
def Unresolved (document : Document) (gone : NodeId → Prop) : Prop :=
  ∀ key id, gone id → document.resolve key ≠ some id

/-- Every key that leads to one of some nodes is the key that the node remembers. -/
def Remembered (document : Document) (gone : NodeId → Prop) : Prop :=
  ∀ key id, gone id → document.resolve key = some id → document.keyOf id = some key

theorem Releases.unresolved_iff {before after : Document} {gone : NodeId → Prop}
    (h : Releases gone before after) : after.Unresolved gone ↔ before.Remembered gone := by
  constructor
  · intro hnone key id hid hbound
    have hafter := hnone key id hid
    rw [ne_eq, h.resolve_iff, not_and_not_right] at hafter
    exact (hafter hbound).2
  · intro hown key id hid hbound
    rw [h.resolve_iff] at hbound
    exact hbound.2 ⟨hid, hown key id hid hbound.1⟩

/-- After a removal or a clearing, the nodes that were dropped are unreachable
through the registry exactly if, before the call, no key led to one of them but
the key that the node remembered. -/
theorem dropped_unresolved_iff (h : Reachable document) :
    (∀ node after, remove node document = .ok () after →
      (after.Unresolved (document.arena.shape.Below node) ↔
        document.Remembered (document.arena.shape.Below node))) ∧
    (∀ node answer after, clear node document = .ok answer after →
      (after.Unresolved (TransGen document.arena.shape.Child node) ↔
        document.Remembered (TransGen document.arena.shape.Child node))) := by
  have hlabel := labelled_of_reachable h
  constructor
  · intro node after hremove
    obtain ⟨hroot, held, hnode, hparent, hthere⟩ := exists_of_remove hlabel hremove
    obtain ⟨other, hrun, -, -, hreleases⟩ := remove_run hlabel hroot hnode hparent hthere
    rw [hremove] at hrun
    cases hrun
    exact hreleases.unresolved_iff
  · intro node answer after hclear
    obtain ⟨held, hnode, hthere⟩ := exists_of_clear hlabel hclear
    obtain ⟨other, hrun, -, -, hreleases⟩ := clear_run hlabel hnode hthere
    rw [hclear] at hrun
    cases hrun
    exact hreleases.unresolved_iff

/-- A node that is registered under two keys and dropped is still found under the
first of them. -/
theorem dropped_unresolved_iff_twice_registered :
    let calls : List Operation := [.insert 0 "p", .register 1 "a", .register 1 "b"]
    let document := calls.foldl Operation.apply (new "body")
    Reachable document ∧
      (∃ after, remove 1 document = .ok () after ∧
        ¬ after.Unresolved (document.arena.shape.Below 1) ∧ after.resolve "a" = some 1) ∧
      (∃ after, clear 0 document = .ok 0 after ∧
        ¬ after.Unresolved (TransGen document.arena.shape.Child 0) ∧
          after.resolve "a" = some 1) := by
  intro calls document
  have hreach : Reachable document :=
    (((Reachable.new "body").step (.insert 0 "p")).step (.register 1 "a")).step
      (.register 1 "b")
  have hbound : document.resolve "a" = some 1 := by decide
  have hkey : document.keyOf 1 ≠ some "a" := by decide
  have hchild : document.arena.shape.Child 0 1 := by
    unfold Shape.Child
    decide
  have hsize : document.size ≤ UInt32.size := by decide
  have hsound := soundInRoom_of_reachable hreach hsize
  obtain ⟨hremove, hclear⟩ := dropped_unresolved_iff hreach
  refine ⟨hreach, ?_, ?_⟩
  · have hroot : 1 ≠ document.root := by decide
    obtain ⟨held, hheld⟩ : ∃ held, document.arena.get? 1 = some held :=
      Option.isSome_iff_exists.mp (by decide)
    obtain ⟨after, hrun, -, hreleases⟩ := hsound.exists_remove hroot hheld
    refine ⟨after, hrun, ?_, ?_⟩
    · rw [hremove 1 after hrun]
      intro hown
      exact hkey (hown "a" 1 ReflTransGen.refl hbound)
    · rw [hreleases.resolve_iff]
      exact ⟨hbound, fun hown => hkey hown.2⟩
  · obtain ⟨held, hheld⟩ : ∃ held, document.arena.get? 0 = some held :=
      Option.isSome_iff_exists.mp (by decide)
    obtain ⟨after, hrun, -, hreleases⟩ := hsound.exists_clear hheld
    refine ⟨after, hrun, ?_, ?_⟩
    · rw [hclear 0 0 after hrun]
      intro hown
      exact hkey (hown "a" 1 (TransGen.single hchild) hbound)
    · rw [hreleases.resolve_iff]
      exact ⟨hbound, fun hown => hkey hown.2⟩

end Espalier.Document
