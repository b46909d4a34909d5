/-
The walk, which works a stack off, as a recursion over the child lists.  A
traversal visits the nodes in preorder, and fails at the first child id that
names no node.
-/
import Espalier.Proofs.Program
import Espalier.Proofs.Tree.Descent
import Espalier.Tree.Walk

namespace Espalier.Arena

open Espalier.Program

variable {σ : Type}

/-- Walk the subtree of a node at some depth, a number of levels deep. -/
def walkLevels (arena : Arena) (visitor : Visitor σ) :
    Nat → NodeId → Nat → EStateM TreeError σ Unit
  | 0, _, _ => return
  | levels + 1, id, depth =>
      match arena.get? id with
      | none => throw (.unknownNode id)
      | some node => do
          visitor.enter node depth
          node.children.forM fun child => walkLevels arena visitor levels child (depth + 1)
          visitor.leave node depth

/-- A node on top of the stack is walked with everything below it before the
stack below is worked off. -/
theorem runTasks_enter (arena : Arena) (visitor : Visitor σ) {levels depth : Nat}
    (h : levels + depth = arena.size + 1) (id : NodeId) (stack : List Task) :
    arena.runTasks visitor (.enter id depth :: stack) = (do
      arena.walkLevels visitor levels id depth
      arena.runTasks visitor stack) := by
  induction levels generalizing depth id stack with
  | zero =>
      have hdeep : ¬ depth ≤ arena.size := by omega
      rw [runTasks, dif_neg hdeep, walkLevels]
      simp
  | succ levels ih =>
      have hdepth : depth ≤ arena.size := by omega
      have hbelow : levels + (depth + 1) = arena.size + 1 := by omega
      have hchildren : ∀ (children : List NodeId) (rest : List Task),
          arena.runTasks visitor (children.map (Task.enter · (depth + 1)) ++ rest) = (do
            children.forM fun child => arena.walkLevels visitor levels child (depth + 1)
            arena.runTasks visitor rest) := by
        intro children rest
        induction children with
        | nil => simp
        | cons child children ihChildren =>
            rw [List.map_cons, List.cons_append, ih hbelow, ihChildren]
            simp
      rw [runTasks, dif_pos hdepth, walkLevels]
      split
      · next hnone => simp [hnone]; rfl
      · next node hsome =>
          simp only [hsome, expand, List.append_assoc, hchildren]
          simp [runTasks]

theorem walk_eq (arena : Arena) (start : NodeId) (visitor : Visitor σ) :
    arena.walk start visitor = arena.walkLevels visitor (arena.size + 1) start 0 := by
  have hdepth : arena.size + 1 + 0 = arena.size + 1 := rfl
  rw [walk, runTasks_enter arena visitor hdepth]
  simp [runTasks]

/-- A walk that starts at no node fails there. -/
theorem walk_of_none {arena : Arena} {start : NodeId} (h : arena.get? start = none)
    (visitor : Visitor σ) (s : σ) :
    arena.walk start visitor s = .error (.unknownNode start) s := by
  rw [walk_eq, walkLevels, h]
  rfl

/-- Where everything below its start is a node, a walk goes through, as long as its
visitor does. -/
theorem succeeds_walkLevels {arena : Arena} {visitor : Visitor σ}
    (henter : ∀ node depth, Succeeds (visitor.enter node depth))
    (hleave : ∀ node depth, Succeeds (visitor.leave node depth)) (levels : Nat) {id : NodeId}
    (h : ∀ other, arena.shape.Below id other → (arena.get? other).isSome) (depth : Nat) :
    Succeeds (arena.walkLevels visitor levels id depth) := by
  induction levels generalizing id depth with
  | zero => exact Succeeds.pure ()
  | succ levels ih =>
      obtain ⟨node, hnode⟩ := Option.isSome_iff_exists.mp (h id Relation.ReflTransGen.refl)
      have hchildren : ∀ child ∈ node.children,
          Succeeds (arena.walkLevels visitor levels child (depth + 1)) := by
        intro child hmem
        have hchild := child_of_mem hnode hmem
        exact ih (fun other hother => h other (hother.head hchild)) (depth + 1)
      rw [walkLevels, hnode]
      apply (henter node depth).bind
      intro _
      apply (Succeeds.forM hchildren).bind
      intro _
      exact hleave node depth

/-- Look a node up and visit it. -/
def visitAt (arena : Arena) (visit : Node → EStateM TreeError σ Unit) (id : NodeId) :
    EStateM TreeError σ Unit :=
  match arena.get? id with
  | none => throw (.unknownNode id)
  | some node => visit node

theorem visitAt_of_none {arena : Arena} {id : NodeId} (h : arena.get? id = none)
    (visit : Node → EStateM TreeError σ Unit) (s : σ) :
    arena.visitAt visit id s = .error (.unknownNode id) s := by
  rw [visitAt, h]
  rfl

theorem visitAt_of_some {arena : Arena} {id : NodeId} {node : Node}
    (h : arena.get? id = some node) (visit : Node → EStateM TreeError σ Unit) :
    arena.visitAt visit id = visit node := by
  rw [visitAt, h]

/-- A traversal visits the ids of the preorder, one after the other. -/
theorem traverse_eq (arena : Arena) (start : NodeId)
    (visit : Node → EStateM TreeError σ Unit) :
    arena.traverse start visit = (arena.preorder start).forM (arena.visitAt visit) := by
  rw [traverse, walk_eq, preorder]
  generalize 0 = depth
  generalize arena.size + 1 = levels
  induction levels generalizing start depth with
  | zero => rfl
  | succ levels ih =>
      rw [walkLevels, Shape.preorder, List.forM_eq_forM, List.forM_cons, visitAt]
      cases hnode : arena.get? start with
      | none => rfl
      | some node =>
          have hchildren : ∀ children : List NodeId,
              forM (children.flatMap (arena.shape.preorder levels)) (arena.visitAt visit) =
                children.forM fun child => arena.walkLevels
                  ⟨fun node _ => visit node, fun _ _ => return⟩ levels child (depth + 1) := by
            intro children
            induction children with
            | nil => rfl
            | cons child children ihChildren =>
                rw [List.flatMap_cons, List.forM_append, ihChildren, List.forM_eq_forM,
                  List.forM_cons, ih, List.forM_eq_forM]
          rw [Shape.childrenOf_of_eq_some (shape_of_get? hnode), Node.links, hchildren]
          simp

/-! ### Searching -/

/-- The node with an id exists and passes a test. -/
def passes (arena : Arena) (test : Node → Bool) (id : NodeId) : Bool :=
  (arena.get? id).any test

/-- Write down the id of a node that passes a test. -/
def collect (test : Node → Bool) (node : Node) :
    EStateM TreeError (Array NodeId) Unit :=
  if test node then modify (·.push node.id) else return

theorem collect_run (test : Node → Bool) (node : Node) (found : Array NodeId) :
    collect test node found = .ok () (if test node then found.push node.id else found) := by
  rw [collect]
  split
  · rfl
  · rfl

theorem forM_collect {arena : Arena} (hlabel : arena.shape.Labelled)
    (test : Node → Bool) {ids : List NodeId} (h : ∀ id ∈ ids, (arena.get? id).isSome)
    (found : Array NodeId) :
    ids.forM (arena.visitAt (collect test)) found =
      .ok () (found ++ (ids.filter (arena.passes test)).toArray) := by
  induction ids generalizing found with
  | nil => simp [pure, EStateM.pure]
  | cons id ids ih =>
      obtain ⟨node, hnode⟩ := Option.isSome_iff_exists.mp (h id List.mem_cons_self)
      have hrest := ih fun other hother => h other (List.mem_cons_of_mem id hother)
      have hid : node.id = id := hlabel id node.links (shape_of_get? hnode)
      have hvisit : arena.visitAt (collect test) id found =
          .ok () (if test node then found.push id else found) := by
        rw [visitAt_of_some hnode, collect_run, hid]
      rw [List.forM_eq_forM] at hrest ⊢
      rw [List.forM_cons, bind_of_ok hvisit, hrest]
      cases htest : test node with
      | true => simp [passes, hnode, htest]
      | false => simp [passes, hnode, htest]

theorem exists_of_forM_visitAt {arena : Arena} {visit : Node → EStateM TreeError σ Unit}
    {ids : List NodeId} {s s' : σ} (h : ids.forM (arena.visitAt visit) s = .ok () s') :
    ∀ id ∈ ids, (arena.get? id).isSome := by
  induction ids generalizing s with
  | nil => simp
  | cons id ids ih =>
      rw [List.forM_eq_forM, List.forM_cons] at h
      obtain ⟨_, middle, hvisit, hrest⟩ := exists_of_bind_ok h
      intro other hother
      rcases List.mem_cons.mp hother with rfl | hother
      · cases hnode : arena.get? other with
        | none =>
            rw [visitAt_of_none hnode] at hvisit
            contradiction
        | some node => rfl
      · exact ih hrest other hother

theorem find_eq (arena : Arena) (start : NodeId) (test : Node → Bool) :
    arena.find start test =
      match (arena.preorder start).forM (arena.visitAt (collect test)) #[] with
      | .ok _ found => .ok found.toList
      | .error error _ => .error error := by
  rw [find]
  simp only [traverse_eq]
  rfl

/-- A search succeeds when every id that it meets names a node, and then finds the
ones that pass, in document order. -/
theorem find_eq_ok_iff {arena : Arena} (hlabel : arena.shape.Labelled) {start : NodeId}
    {test : Node → Bool} {ids : List NodeId} :
    arena.find start test = .ok ids ↔
      (∀ id ∈ arena.preorder start, (arena.get? id).isSome) ∧
        ids = (arena.preorder start).filter (arena.passes test) := by
  constructor
  · intro h
    have hthere : ∀ id ∈ arena.preorder start, (arena.get? id).isSome := by
      rw [find_eq] at h
      split at h
      · next found hrun => exact exists_of_forM_visitAt hrun
      · contradiction
    rw [find_eq, forM_collect hlabel test hthere] at h
    refine ⟨hthere, ?_⟩
    simpa using h.symm
  · rintro ⟨hthere, rfl⟩
    rw [find_eq, forM_collect hlabel test hthere]
    simp

theorem find_of_none {arena : Arena} {start : NodeId} (h : arena.get? start = none)
    (test : Node → Bool) : arena.find start test = .error (.unknownNode start) := by
  rw [find]
  simp only [EStateM.run, traverse, walk_of_none h]

end Espalier.Arena
