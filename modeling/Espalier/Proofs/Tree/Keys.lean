/-
How the nodes of a subtree forget their lookup keys.  A node remembers one key,
the last that it was registered under, and it is this key alone that is taken out
of the registry with the node: a binding under any other key stays.
-/
import Espalier.Proofs.Tree.Operations
import Espalier.Proofs.Tree.Walk

namespace Espalier.Document

open Espalier.Program

variable {document : Document}

/-- The lookup key that a node remembers. -/
def keyOf (document : Document) (id : NodeId) : Option String :=
  (document.arena.get? id).bind (·.key)

/-- Some nodes forget their keys, and the bindings of these keys to them go. -/
structure Releases (gone : NodeId → Prop) (before after : Document) : Prop where
  keyOf_gone : ∀ id, gone id → after.keyOf id = none
  keyOf_kept : ∀ id, ¬ gone id → after.keyOf id = before.keyOf id
  resolve_iff : ∀ key id, after.resolve key = some id ↔
    before.resolve key = some id ∧ ¬ (gone id ∧ before.keyOf id = some key)

theorem Releases.refl (document : Document) : Releases (fun _ => False) document document where
  keyOf_gone _ h := h.elim
  keyOf_kept _ _ := rfl
  resolve_iff key id := by simp

theorem Releases.trans {first second third : Document} {gone gone' : NodeId → Prop}
    (h : Releases gone first second) (h' : Releases gone' second third) :
    Releases (fun id => gone id ∨ gone' id) first third := by
  constructor
  · intro id hid
    by_cases hlate : gone' id
    · exact h'.keyOf_gone id hlate
    · rw [h'.keyOf_kept id hlate]
      exact h.keyOf_gone id (hid.resolve_right hlate)
  · intro id hid
    rw [not_or] at hid
    rw [h'.keyOf_kept id hid.2, h.keyOf_kept id hid.1]
  · intro key id
    rw [h'.resolve_iff, h.resolve_iff]
    by_cases hearly : gone id
    · simp [hearly, h.keyOf_gone id hearly]
    · simp [hearly, h.keyOf_kept id hearly]

/-- Nodes that remember no key have nothing to release. -/
theorem Releases.widen {before after : Document} {gone gone' : NodeId → Prop}
    (h : Releases gone before after) (hsub : ∀ id, gone id → gone' id)
    (hnone : ∀ id, gone' id → ¬ gone id → before.keyOf id = none) :
    Releases gone' before after := by
  constructor
  · intro id hid
    by_cases hgone : gone id
    · exact h.keyOf_gone id hgone
    · rw [h.keyOf_kept id hgone]
      exact hnone id hid hgone
  · intro id hid
    exact h.keyOf_kept id fun hgone => hid (hsub id hgone)
  · intro key id
    rw [h.resolve_iff]
    by_cases hgone : gone id
    · simp [hgone, hsub id hgone]
    · by_cases hgone' : gone' id
      · simp [hgone, hgone', hnone id hgone' hgone]
      · simp [hgone, hgone']

/-- Only the keys count, those of the nodes and those of the registry. -/
theorem Releases.congr {before before' after after' : Document} {gone : NodeId → Prop}
    (h : Releases gone before after)
    (hkeyOf : before'.keyOf = before.keyOf) (hregistry : before'.registry = before.registry)
    (hkeyOf' : after'.keyOf = after.keyOf) (hregistry' : after'.registry = after.registry) :
    Releases gone before' after' := by
  constructor
  · rw [hkeyOf']
    exact h.keyOf_gone
  · rw [hkeyOf, hkeyOf']
    exact h.keyOf_kept
  · intro key id
    rw [resolve, hregistry', ← resolve, h.resolve_iff, hkeyOf, resolve, resolve, hregistry]

theorem keyOf_update {change : Node → Node} (h : ∀ node, (change node).key = node.key)
    (document : Document) (id : NodeId) :
    ({ document with arena := document.arena.update id change } : Document).keyOf =
      document.keyOf := by
  funext other
  simp only [keyOf, Arena.get?_update]
  split
  · cases document.arena.get? other with
    | none => rfl
    | some node => exact h node
  · rfl

theorem structural_sameTree (document : Document) : Structural (SameTree document) :=
  .of_sameTree fun _ _ hstep h => h.trans hstep

theorem forgetKey_run {id : NodeId} (h : (document.arena.get? id).isSome) :
    ∃ after, forgetKey id document = .ok () after ∧ SameTree document after ∧
      Releases (· = id) document after := by
  obtain ⟨node, hnode⟩ := Option.isSome_iff_exists.mp h
  have hkeeps := (structural_sameTree document).forgetKey id document (SameTree.refl document)
  cases hkey : node.key with
  | none =>
      have hrun : forgetKey id document = .ok () document := by
        rw [forgetKey, bind_of_ok (fetchM_of_some hnode), hkey]
        rfl
      refine ⟨document, hrun, SameTree.refl document, ?_⟩
      apply (Releases.refl document).widen
      · intro other hother
        exact hother.elim
      · intro other hother _
        simp [keyOf, hother, hnode, hkey]
  | some key =>
      let registry := if document.resolve key = some id then document.registry.unbind key
        else document.registry
      let after : Document :=
        { document with
          arena := document.arena.update id ({ · with key := none })
          registry }
      have hrun : forgetKey id document = .ok () after := by
        rw [forgetKey, bind_of_ok (fetchM_of_some hnode), hkey]
        by_cases hbound : document.resolve key = some id
        · have hafter : after = { document with
              arena := document.arena.update id ({ · with key := none })
              registry := document.registry.unbind key } := by
            simp [after, registry, hbound]
          rw [hafter]
          exact congrFun (if_pos hbound) _
        · have hafter : after = { document with
              arena := document.arena.update id ({ · with key := none }) } := by
            simp [after, registry, hbound]
          rw [hafter]
          exact congrFun (if_neg hbound) _
      rw [hrun] at hkeeps
      have hkeyOf : ∀ other, after.keyOf other =
          if id = other then none else document.keyOf other := by
        intro other
        simp only [keyOf, after, Arena.get?_update]
        split
        · simp
        · rfl
      have hresolve : ∀ other, after.resolve other =
          if document.resolve key = some id ∧ key = other then none
          else document.resolve other := by
        intro other
        simp only [resolve, after, registry]
        by_cases hbound : document.resolve key = some id
        · simp only [resolve] at hbound
          simp [hbound, Registry.resolve_unbind]
        · simp only [resolve] at hbound
          simp [hbound]
      have hheld : document.keyOf id = some key := by simp [keyOf, hnode, hkey]
      refine ⟨after, hrun, hkeeps, ?_, ?_, ?_⟩
      · rintro other rfl
        rw [hkeyOf, if_pos rfl]
      · intro other hother
        rw [hkeyOf, if_neg fun heq => hother heq.symm]
      · intro other node
        rw [hresolve]
        grind

/-- A list of nodes that exist forget their keys one after the other. -/
theorem forM_forgetKey_run {ids : List NodeId}
    (h : ∀ id ∈ ids, (document.arena.get? id).isSome) :
    ∃ after, ids.forM forgetKey document = .ok () after ∧ SameTree document after ∧
      Releases (· ∈ ids) document after := by
  induction ids generalizing document with
  | nil =>
      refine ⟨document, rfl, SameTree.refl document, ?_⟩
      apply (Releases.refl document).widen
      · intro id hid
        exact hid.elim
      · intro id hid
        exact absurd hid List.not_mem_nil
  | cons id ids ih =>
      obtain ⟨middle, hrun, htree, hreleases⟩ := forgetKey_run (h id List.mem_cons_self)
      have hmiddle : ∀ other ∈ ids, (middle.arena.get? other).isSome := by
        intro other hother
        exact (htree.isSome_get?_iff other).mpr (h other (List.mem_cons_of_mem id hother))
      obtain ⟨after, hrest, htree', hreleases'⟩ := ih hmiddle
      refine ⟨after, ?_, htree.trans htree', ?_⟩
      · rw [List.forM_eq_forM, List.forM_cons, bind_of_ok hrun]
        exact hrest
      · simpa only [List.mem_cons] using hreleases.trans hreleases'

/-- A subtree forgets its keys, if every id in it names a node. -/
theorem forgetKeys_run (hlabel : document.arena.shape.Labelled) {start : NodeId}
    (h : ∀ id ∈ document.arena.preorder start, (document.arena.get? id).isSome) :
    ∃ after, forgetKeys start document = .ok () after ∧ SameTree document after ∧
      Releases (document.arena.shape.Below start) document after := by
  let holders := (document.arena.preorder start).filter
    (document.arena.passes (·.key.isSome))
  have hfind : document.find start (·.key.isSome) = .ok holders :=
    (Arena.find_eq_ok_iff hlabel).mpr ⟨h, rfl⟩
  have hthere : ∀ id ∈ holders, (document.arena.get? id).isSome :=
    fun id hid => h id (List.mem_filter.mp hid).1
  obtain ⟨after, hrun, htree, hreleases⟩ := forM_forgetKey_run hthere
  refine ⟨after, ?_, htree, hreleases.widen ?_ ?_⟩
  · rw [forgetKeys, bind_of_ok (get_run document), hfind,
      bind_of_ok (ofExcept_ok_run holders document)]
    exact hrun
  · intro id hid
    exact Arena.mem_preorder_iff.mp (List.mem_filter.mp hid).1
  · intro id hbelow hid
    have hmem := Arena.mem_preorder_iff.mpr hbelow
    obtain ⟨node, hnode⟩ := Option.isSome_iff_exists.mp (h id hmem)
    have hpasses : document.arena.passes (·.key.isSome) id = false := by
      simpa [holders, hmem] using hid
    simpa [Arena.passes, keyOf, hnode] using hpasses

theorem exists_of_forgetKeys (hlabel : document.arena.shape.Labelled) {start : NodeId}
    {after : Document} (h : forgetKeys start document = .ok () after) :
    ∀ id ∈ document.arena.preorder start, (document.arena.get? id).isSome := by
  rw [forgetKeys] at h
  obtain ⟨_, _, hget, hrest⟩ := exists_of_bind_ok h
  obtain ⟨holders, _, hfind, -⟩ := exists_of_bind_ok hrest
  cases hget
  cases hholders : document.find start (·.key.isSome) with
  | ok ids => exact ((Arena.find_eq_ok_iff hlabel).mp hholders).1
  | error error =>
      rw [hholders] at hfind
      contradiction

end Espalier.Document
