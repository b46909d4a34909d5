/-
The depth-first walk through a subtree, from left to right, by an explicit stack
of things still to do.  A node is looked up when its turn comes: a child id that
names no node fails the walk there, after the nodes before it.

A chain of distinct nodes is no longer than the arena, so in an arena without
cycles no node lies deeper below the start than the arena has nodes.  The walk
goes that deep and no deeper, which makes it end on every arena.
-/
import Espalier.Tree.Arena

namespace Espalier

/-- What a walk does at a node and its depth: before the children, and after
them. -/
structure Visitor (σ : Type) where
  enter (node : Node) (depth : Nat) : EStateM TreeError σ Unit
  leave (node : Node) (depth : Nat) : EStateM TreeError σ Unit

/-- A thing that a walk still has to do. -/
inductive Task where
  | enter (id : NodeId) (depth : Nat)
  | leave (node : Node) (depth : Nat)

namespace Arena

/-- The largest number of children that a node has. -/
def breadth (arena : Arena) : Nat :=
  arena.nodes.toList.foldr (fun node widest => max node.children.length widest) 0

/-- No node has more children than the arena's breadth. -/
theorem length_children_le_breadth {arena : Arena} {id : NodeId} {node : Node}
    (h : arena.get? id = some node) : node.children.length ≤ arena.breadth := by
  have hmem : node ∈ arena.nodes.toList := by
    rw [Arena.get?] at h
    exact Array.mem_toList_iff.2 (Array.mem_of_getElem? h)
  rw [Arena.breadth]
  generalize arena.nodes.toList = nodes at hmem
  induction nodes with
  | nil => simp at hmem
  | cons head tail ih =>
      rcases List.mem_cons.1 hmem with rfl | htail
      · exact Nat.le_max_left _ _
      · exact Nat.le_trans (ih htail) (Nat.le_max_right _ _)

/-- An upper bound on the number of steps that a task leads to. -/
def taskCost (arena : Arena) : Task → Nat
  | .enter _ depth => Nat.pow (arena.breadth + 2) (arena.size + 1 - depth)
  | .leave _ _ => 1

/-- An upper bound on the number of steps that a stack leads to. -/
def stackCost (arena : Arena) : List Task → Nat
  | [] => 0
  | task :: stack => arena.taskCost task + arena.stackCost stack

theorem taskCost_pos (arena : Arena) (task : Task) : 0 < arena.taskCost task := by
  cases task with
  | enter id depth => exact Nat.pow_pos (Nat.succ_pos _)
  | leave node depth => exact Nat.one_pos

/-- The tasks that entering a node at some depth leaves on the stack. -/
def expand (node : Node) (depth : Nat) : List Task :=
  node.children.map (Task.enter · (depth + 1)) ++ [.leave node depth]

theorem stackCost_append (arena : Arena) (front back : List Task) :
    arena.stackCost (front ++ back) = arena.stackCost front + arena.stackCost back := by
  induction front with
  | nil => simp [stackCost]
  | cons task rest ih => simp [stackCost, ih, Nat.add_assoc]

/-- Entering some nodes of one depth costs the same for each of them. -/
theorem stackCost_map_enter (arena : Arena) (ids : List NodeId) (depth : Nat) :
    arena.stackCost (ids.map (Task.enter · depth)) =
      ids.length * Nat.pow (arena.breadth + 2) (arena.size + 1 - depth) := by
  induction ids with
  | nil => simp [stackCost]
  | cons id rest ih =>
      rw [List.map_cons, stackCost, ih, taskCost, List.length_cons, Nat.succ_mul,
        Nat.add_comm]

/-- Entering a node within the depth bound costs more than what it leads to. -/
theorem stackCost_expand_lt {arena : Arena} {id : NodeId} {node : Node}
    {depth : Nat} (h : arena.get? id = some node) (hdepth : depth ≤ arena.size) :
    arena.stackCost (expand node depth) < arena.taskCost (.enter id depth) := by
  have hwidth := length_children_le_breadth h
  have hbelow : arena.size + 1 - (depth + 1) = arena.size - depth := by omega
  have hhere : arena.size + 1 - depth = arena.size - depth + 1 := by omega
  have hpos : 0 < Nat.pow (arena.breadth + 2) (arena.size - depth) :=
    Nat.pow_pos (Nat.succ_pos _)
  rw [expand, stackCost_append, stackCost_map_enter, hbelow, taskCost, hhere]
  change _ < Nat.pow (arena.breadth + 2) (arena.size - depth) * (arena.breadth + 2)
  have hchildren := Nat.mul_le_mul_right
    (Nat.pow (arena.breadth + 2) (arena.size - depth)) hwidth
  have hleave : arena.stackCost [.leave node depth] = 1 := rfl
  rw [Nat.mul_comm _ (arena.breadth + 2), Nat.add_mul, hleave]
  omega

variable {σ : Type}

/-- Work a stack of tasks off. -/
def runTasks (arena : Arena) (visitor : Visitor σ) :
    List Task → EStateM TreeError σ Unit
  | [] => return
  | .leave node depth :: stack => do
      visitor.leave node depth
      arena.runTasks visitor stack
  | .enter id depth :: stack =>
      if _hdepth : depth ≤ arena.size then
        match _hnode : arena.get? id with
        | none => throw (.unknownNode id)
        | some node => do
            visitor.enter node depth
            arena.runTasks visitor (expand node depth ++ stack)
      else arena.runTasks visitor stack
termination_by stack => arena.stackCost stack
decreasing_by
  · exact Nat.lt_add_of_pos_left (arena.taskCost_pos _)
  · rw [stackCost_append, stackCost]
    exact Nat.add_lt_add_right (stackCost_expand_lt _hnode _hdepth) _
  · exact Nat.lt_add_of_pos_left (arena.taskCost_pos _)

/-- Walk the subtree below a node, the node included. -/
def walk (arena : Arena) (start : NodeId) (visitor : Visitor σ) :
    EStateM TreeError σ Unit :=
  arena.runTasks visitor [.enter start 0]

/-- Walk a subtree in document order, visiting each node before its children. -/
def traverse (arena : Arena) (start : NodeId)
    (visit : Node → EStateM TreeError σ Unit) : EStateM TreeError σ Unit :=
  arena.walk start ⟨fun node _ => visit node, fun _ _ => return⟩

/-- The ids of the nodes of a subtree that pass a test, in document order. -/
def find (arena : Arena) (start : NodeId) (test : Node → Bool) :
    Except TreeError (List NodeId) :=
  let visit (node : Node) : EStateM TreeError (Array NodeId) Unit :=
    if test node then modify (·.push node.id) else return
  match (arena.traverse start visit).run #[] with
  | .ok _ found => .ok found.toList
  | .error error _ => .error error

/-- The nodes of a subtree with a tag, whatever its letter case. -/
def findTag (arena : Arena) (start : NodeId) (tag : String) :
    Except TreeError (List NodeId) :=
  arena.find start fun node => node.tag.toLower == tag.toLower

end Arena

end Espalier
