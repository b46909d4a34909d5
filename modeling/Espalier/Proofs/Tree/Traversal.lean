/-
Traversals of arenas whose links need not fit together: a node may be listed by several
others or twice by one, and a child id may name no node.  As long as no node lies below
itself, a traversal is the loop over a stack of ids that has no bound on its depth, and
it visits the nodes of the recursive walk up to the first that is missing or refused.
-/
import Espalier.Proofs.Tree.Order
import Espalier.Proofs.Tree.Walk

namespace Espalier.Arena

open Espalier.Program

variable {σ : Type}

/-- The loop over a stack of ids: the first id is taken off, its node is looked up and
visited, and the children take its place. -/
inductive Loop (arena : Arena) (visit : Node → EStateM TreeError σ Unit) :
    List NodeId → σ → EStateM.Result TreeError σ Unit → Prop
  | done {s : σ} : Loop arena visit [] s (.ok () s)
  | missing {id : NodeId} {stack : List NodeId} {s : σ} (hnone : arena.get? id = none) :
      Loop arena visit (id :: stack) s (.error (.unknownNode id) s)
  | refused {id : NodeId} {stack : List NodeId} {node : Node} {s s' : σ} {e : TreeError}
      (hnode : arena.get? id = some node) (hvisit : visit node s = .error e s') :
      Loop arena visit (id :: stack) s (.error e s')
  | step {id : NodeId} {stack : List NodeId} {node : Node} {s s' : σ}
      {result : EStateM.Result TreeError σ Unit} (hnode : arena.get? id = some node)
      (hvisit : visit node s = .ok () s')
      (hrest : Loop arena visit (node.children ++ stack) s' result) :
      Loop arena visit (id :: stack) s result

/-- The ids name these nodes, one for one. -/
def Names (arena : Arena) (ids : List NodeId) (nodes : List Node) : Prop :=
  ids.map arena.get? = nodes.map some

/-- The visits to the nodes of an order, up to the first id that names no node or the
first node that the visitor fails at. -/
inductive Visited (arena : Arena) (visit : Node → EStateM TreeError σ Unit)
    (order : List NodeId) (s : σ) : EStateM.Result TreeError σ Unit → Prop
  | all {nodes : List Node} {s' : σ} (hnodes : arena.Names order nodes)
      (hvisits : nodes.forM visit s = .ok () s') : Visited arena visit order s (.ok () s')
  | missing {front back : List NodeId} {id : NodeId} {nodes : List Node} {s' : σ}
      (horder : order = front ++ id :: back) (hnodes : arena.Names front nodes)
      (hvisits : nodes.forM visit s = .ok () s') (hnone : arena.get? id = none) :
      Visited arena visit order s (.error (.unknownNode id) s')
  | refused {front back : List NodeId} {id : NodeId} {nodes : List Node} {node : Node}
      {s' s'' : σ} {e : TreeError} (horder : order = front ++ id :: back)
      (hnodes : arena.Names front nodes) (hvisits : nodes.forM visit s = .ok () s')
      (hnode : arena.get? id = some node) (hvisit : visit node s' = .error e s'') :
      Visited arena visit order s (.error e s'')

/-- The nodes of an order that pass a test, or the first id that names no node. -/
inductive Found (arena : Arena) (test : Node → Bool) (order : List NodeId) :
    Except TreeError (List NodeId) → Prop
  | all {nodes : List Node} (hnodes : arena.Names order nodes) :
      Found arena test order (.ok ((nodes.filter test).map Node.id))
  | missing {front back : List NodeId} {id : NodeId} {nodes : List Node}
      (horder : order = front ++ id :: back) (hnodes : arena.Names front nodes)
      (hnone : arena.get? id = none) : Found arena test order (.error (.unknownNode id))

variable {arena : Arena} {visit : Node → EStateM TreeError σ Unit}

theorem Loop.unique {stack : List NodeId} {s : σ}
    {first second : EStateM.Result TreeError σ Unit} (h : Loop arena visit stack s first)
    (h' : Loop arena visit stack s second) : first = second := by
  induction h generalizing second with
  | done => cases h' with | done => rfl
  | missing hnone => cases h' <;> grind
  | refused hnode hvisit => cases h' <;> grind
  | step hnode hvisit _ ih =>
      cases h' with
      | missing hnone => grind
      | refused hnode' hvisit' => grind
      | step hnode' hvisit' hrest =>
          obtain rfl := Option.some.inj (hnode.symm.trans hnode')
          obtain ⟨-, rfl⟩ := EStateM.Result.ok.inj (hvisit.symm.trans hvisit')
          exact ih hrest

theorem Names.nil : arena.Names [] [] := rfl

theorem Names.cons {id : NodeId} {ids : List NodeId} {node : Node} {nodes : List Node}
    (hnode : arena.get? id = some node) (h : arena.Names ids nodes) :
    arena.Names (id :: ids) (node :: nodes) := by
  simp only [Names, List.map_cons, hnode] at h ⊢
  rw [h]

/-- A node in front of an order that is visited without failing. -/
theorem Visited.cons {id : NodeId} {order : List NodeId} {node : Node} {s s' : σ}
    {result : EStateM.Result TreeError σ Unit} (hnode : arena.get? id = some node)
    (hvisit : visit node s = .ok () s') (h : Visited arena visit order s' result) :
    Visited arena visit (id :: order) s result := by
  have hvisits : ∀ {nodes : List Node} {s'' : σ}, nodes.forM visit s' = .ok () s'' →
      (node :: nodes).forM visit s = .ok () s'' := by
    intro nodes s'' hrest
    rw [List.forM_eq_forM] at hrest ⊢
    rw [List.forM_cons, bind_of_ok hvisit, hrest]
  cases h with
  | all hnodes hrest => exact .all (hnodes.cons hnode) (hvisits hrest)
  | missing horder hnodes hrest hnone =>
      exact .missing (congrArg (id :: ·) horder) (hnodes.cons hnode) (hvisits hrest) hnone
  | refused horder hnodes hrest hlast hfail =>
      exact .refused (congrArg (id :: ·) horder) (hnodes.cons hnode) (hvisits hrest) hlast hfail

/-- Visiting the ids of an order one after the other. -/
theorem visited_forM (order : List NodeId) (s : σ) :
    Visited arena visit order s (order.forM (arena.visitAt visit) s) := by
  induction order generalizing s with
  | nil => exact .all .nil rfl
  | cons id order ih =>
      rw [List.forM_eq_forM, List.forM_cons]
      cases hnode : arena.get? id with
      | none =>
          rw [bind_of_error (visitAt_of_none hnode visit s)]
          exact .missing (List.nil_append _).symm .nil rfl hnode
      | some node =>
          rw [visitAt_of_some hnode]
          cases hvisit : visit node s with
          | ok _ s' =>
              rw [bind_of_ok hvisit]
              exact (ih s').cons hnode hvisit
          | error e s' =>
              rw [bind_of_error hvisit]
              exact .refused (List.nil_append _).symm .nil rfl hnode hvisit

/-- The loop over the tops of some trees visits the ids of their order. -/
theorem loop_forM {tops order : List NodeId} (h : arena.shape.Lists tops order) (s : σ) :
    Loop arena visit tops s (order.forM (arena.visitAt visit) s) := by
  -- the order lists what the stack still leads to, so each turn takes its first id off
  induction order generalizing tops s with
  | nil =>
      cases h with
      | nil => exact .done
  | cons id order ih =>
      obtain ⟨stack, rfl, hrest⟩ := h.exists_of_cons
      rw [List.forM_eq_forM, List.forM_cons]
      cases hnode : arena.get? id with
      | none =>
          rw [bind_of_error (visitAt_of_none hnode visit s)]
          exact .missing hnode
      | some node =>
          rw [visitAt_of_some hnode]
          rw [Shape.childrenOf_of_eq_some (shape_of_get? hnode)] at hrest
          cases hvisit : visit node s with
          | ok _ s' =>
              rw [bind_of_ok hvisit]
              exact .step hnode hvisit (ih hrest s')
          | error e s' =>
              rw [bind_of_error hvisit]
              exact .refused hnode hvisit

theorem forM_collect_nodes (test : Node → Bool) (nodes : List Node) (found : Array NodeId) :
    nodes.forM (collect test) found =
      .ok () (found ++ ((nodes.filter test).map Node.id).toArray) := by
  induction nodes generalizing found with
  | nil => simp [pure, EStateM.pure]
  | cons node nodes ih =>
      rw [List.forM_eq_forM] at ih ⊢
      rw [List.forM_cons, bind_of_ok (collect_run test node found), ih]
      cases htest : test node with
      | true => simp [htest]
      | false => simp [htest]

theorem found_find (hacyclic : arena.shape.Acyclic) {start : NodeId} {order : List NodeId}
    (horder : arena.shape.Lists [start] order) (test : Node → Bool) :
    Found arena test order (arena.find start test) := by
  have hvisited : Visited arena (collect test) order #[]
      (order.forM (arena.visitAt (collect test)) #[]) := visited_forM order #[]
  rw [find_eq, preorder_eq hacyclic horder]
  generalize order.forM (arena.visitAt (collect test)) #[] = result at hvisited ⊢
  cases hvisited with
  | all hnodes hvisits =>
      rw [forM_collect_nodes] at hvisits
      obtain ⟨-, rfl⟩ := EStateM.Result.ok.inj hvisits
      simpa using Found.all hnodes
  | missing horder hnodes _ hnone => exact .missing horder hnodes hnone
  | refused _ _ _ _ hfail =>
      -- writing an id down never fails
      rw [collect_run] at hfail
      contradiction

/-- Where no node lies below itself, a walk from any start and with any visitor ends, and
is the loop over a stack.  It visits the nodes in the order of the recursion over the child
lists; that order goes through the ways down from the start, from left to right, so a node
is visited once for every way to it.  The walk goes up to the first id that names no node,
or the first node that the visitor fails at, and fails there.  So a search finds the nodes
of that order that pass, or fails at the first missing id. -/
theorem traverse_visits_preorder (hacyclic : arena.shape.Acyclic) (start : NodeId) :
    ∃ order, (∀ other, arena.shape.Lists [start] other ↔ other = order) ∧
      (∃ ways : List (List Nat), ways.Pairwise (· < ·) ∧
        (∀ way, way ∈ ways ↔ (arena.shape.end? start way).isSome) ∧
        order.map some = ways.map (arena.shape.end? start)) ∧
      (∀ (σ : Type) (visit : Node → EStateM TreeError σ Unit) (s : σ),
        (∀ result, Loop arena visit [start] s result ↔
          result = arena.traverse start visit s) ∧
        Visited arena visit order s (arena.traverse start visit s)) ∧
      ∀ test, Found arena test order (arena.find start test) := by
  have horder := lists_preorder hacyclic start
  refine ⟨arena.preorder start, ?_, horder.exists_ways_down, ?_, ?_⟩
  · intro other
    constructor
    · exact fun hother => hother.unique horder
    · rintro rfl
      exact horder
  · intro σ visit s
    rw [traverse_eq]
    have hloop : Loop arena visit [start] s
        ((arena.preorder start).forM (arena.visitAt visit) s) := loop_forM horder s
    refine ⟨fun result => ⟨fun hresult => hresult.unique hloop, ?_⟩, visited_forM _ s⟩
    rintro rfl
    exact hloop
  · exact found_find hacyclic horder

/-- A node is listed by two others and twice by one, and an id names no node. -/
theorem traverse_visits_preorder_shared :
    let listing (id : NodeId) (children : List NodeId) : Node :=
      { id, ns := .html, tag := "p", children }
    let arena : Arena :=
      ⟨#[listing 0 [2, 1, 2], listing 1 [2, 9], listing 2 [3, 3], listing 3 []]⟩
    arena.shape.Acyclic ∧
      ∃ order, (∀ other, arena.shape.Lists [0] other ↔ other = order) ∧
        order = [0, 2, 3, 3, 1, 2, 3, 3, 9, 2, 3, 3] ∧
        (∃ ways : List (List Nat), ways.Pairwise (· < ·) ∧
          (∀ way, way ∈ ways ↔ (arena.shape.end? 0 way).isSome) ∧
          order.map some = ways.map (arena.shape.end? 0)) ∧
        (∀ (σ : Type) (visit : Node → EStateM TreeError σ Unit) (s : σ),
          (∀ result, Loop arena visit [0] s result ↔
            result = arena.traverse 0 visit s) ∧
          Visited arena visit order s (arena.traverse 0 visit s)) ∧
        ∀ test, Found arena test order (arena.find 0 test) := by
  intro listing arena
  have hacyclic : arena.shape.Acyclic := by
    have hyounger : ∀ index : Fin 4,
        arena.nodes[index].children.all fun child => index.val < child.toNat := by
      decide
    apply Shape.acyclic_of_lt
    intro above below hchild
    obtain ⟨_, hlinks, hmem⟩ := Shape.exists_of_child hchild
    obtain ⟨node, hnode, rfl⟩ := exists_of_shape_eq_some hlinks
    obtain ⟨hindex, rfl⟩ := Array.getElem?_eq_some_iff.mp hnode
    have hlt := List.all_eq_true.mp (hyounger ⟨above.toNat, hindex⟩) below hmem
    exact UInt32.lt_iff_toNat_lt.mpr (of_decide_eq_true hlt)
  obtain ⟨order, hunique, hways, hvisits, hfound⟩ := traverse_visits_preorder hacyclic 0
  have horder : arena.preorder 0 = order := (hunique _).mp (lists_preorder hacyclic 0)
  refine ⟨hacyclic, order, hunique, ?_, hways, hvisits, hfound⟩
  rw [← horder]
  decide

end Espalier.Arena
