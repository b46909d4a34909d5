/-
What an insertion does to a document: which node it makes, and where that node stands
among the children of its parent.  A place is looked up before the node is made, and it is
still the right one because a parent lists a child once.
-/
import Espalier.Proofs.Tree.Attaching
import Espalier.Proofs.Tree.Queries
import Espalier.Proofs.Tree.Vocabulary

namespace Espalier

open Espalier.Program Espalier.Text

/-! ### The node that a specification describes -/

namespace Node

theorem addClasses_concat (node : Node) (names : List String) (name : String) :
    node.addClasses (names ++ [name]) = (node.addClasses names).addClass name := by
  simp [addClasses]

/-- Adding classes adds those that have a name and are not there yet, each of them once,
in the order in which they are first named. -/
theorem addClasses_eq (node : Node) (names : List String) :
    node.addClasses names =
      { node with
        classes := node.classes ++
          ((names.filter (!·.isEmpty)).removeAll node.classes).eraseDups } := by
  induction names using List.reverseRecOn with
  | nil => simp [addClasses, List.removeAll]
  | append_singleton names name ih =>
      rw [addClasses_concat, ih, addClass, lacksClass, hasClass]
      by_cases hempty : name = ""
      · simp [hempty]
      · by_cases hold : name ∈ node.classes
        · simp [List.removeAll, hempty, hold]
        · by_cases hnew : name ∈ names
          · simp [List.removeAll, List.eraseDups_append, hempty, hold, hnew]
          · simp [List.removeAll, List.eraseDups_append, List.eraseDups_cons, hempty, hold, hnew]

end Node

/-- The tag and the classes that a specification describes: what stands before its first
dot, in lower case, and the tokens behind the dots that are not empty, each of them once. -/
def Describes (spec tag : String) (classes : List String) : Prop :=
  ∃ name tokens, spec.toList = ['.'].intercalate (name :: tokens) ∧
    (∀ token ∈ name :: tokens, '.' ∉ token) ∧
    tag = (String.ofList name).toLower ∧
    classes = ((tokens.filter (!·.isEmpty)).map String.ofList).eraseDups

theorem describes_ofText (spec : String) :
    Describes spec (TagSpec.ofText spec).tag.toLower
      (TagSpec.ofText spec).classes.eraseDups := by
  obtain ⟨name, tokens, hpieces⟩ := List.exists_cons_of_ne_nil (pieces_ne_nil '.' spec.toList)
  refine ⟨name, tokens, ?_, ?_, ?_, ?_⟩
  · rw [← hpieces, intercalate_pieces]
  · intro token htoken
    exact not_mem_of_mem_pieces (hpieces ▸ htoken)
  · simp only [TagSpec.ofText, hpieces]
  · simp only [TagSpec.ofText, hpieces]

namespace Document

variable {document : Document}

theorem newNode_eq (spec : String) (above : Node) (id : NodeId) :
    newNode spec above id =
      { id
        ns := if above.isSvg || (TagSpec.ofText spec).tag.toLower == "svg" then .svg else .html
        tag := (TagSpec.ofText spec).tag.toLower
        classes := (TagSpec.ofText spec).classes.eraseDups } := by
  have hnamed : (TagSpec.ofText spec).classes.filter (!·.isEmpty) =
      (TagSpec.ofText spec).classes := by
    rw [List.filter_eq_self]
    simp only [TagSpec.ofText]
    split
    · simp
    · intro name hname
      obtain ⟨token, htoken, rfl⟩ := List.mem_map.mp hname
      simpa using (List.mem_filter.mp htoken).2
  rw [newNode, Node.addClasses_eq, hnamed]
  simp

/-- A document gains one node, which a specification describes and which a parent lists
among the children it has then.  The node has nothing but what the specification gives it;
the other nodes and the bindings of the keys stay as they are. -/
structure Gains (spec : String) (parent new : NodeId) (children : List NodeId)
    (before after : Document) : Prop where
  id : new.toNat = before.size
  size : after.size = before.size + 1
  root : after.root = before.root
  registry : after.registry = before.registry
  nodes : ∃ above tag classes, before.arena.get? parent = some above ∧
    Describes spec tag classes ∧ ∀ id, after.arena.get? id =
      if id = new then
        some { id, ns := if above.isSvg || tag == "svg" then .svg else .html,
               parent := some parent, tag, classes }
      else if id = parent then some { above with children }
      else before.arena.get? id

theorem gains_insertAt (hsize : document.size < UInt32.size) {parent new : NodeId}
    {above : Node} (hparent : document.arena.get? parent = some above) {front back : List NodeId}
    (hsplit : above.children = front ++ back) {spec : String} {after : Document}
    (h : insertAt parent spec front.length document = .ok new after) :
    Gains spec parent new (front ++ new :: back) document after := by
  rw [insertAt_of_some hparent] at h
  obtain ⟨rfl, rfl⟩ := EStateM.Result.ok.inj h
  have hlisted : above.children.insertIdx (min front.length above.children.length)
      document.arena.nextId = front ++ document.arena.nextId :: back := by
    have hmin : min front.length (front ++ back).length = front.length := by simp
    rw [hsplit, hmin, insertIdx_append_length]
  refine ⟨Arena.toNat_nextId hsize, ?_, rfl, rfl, above, _, _, hparent,
    describes_ofText spec, ?_⟩
  · simp [Document.size]
  · intro id
    rw [Arena.get?_add_link hsize _ hparent, newNode_eq, hlisted]
    by_cases hid : id = document.arena.nextId
    · simp [hid]
    · simp [hid]

/-! ### Places -/

/-- A node that has a place is listed by its parent, and its place is the number of the
children in front of it. -/
theorem Sound.exists_of_position (hsound : document.Sound) {node parent : NodeId} {index : Nat}
    {after : Document} (h : position node document = .ok (parent, index) after) :
    after = document ∧ ∃ held above, document.arena.get? node = some held ∧
      held.parent = some parent ∧ document.arena.get? parent = some above ∧
      node ∈ above.children ∧
      ∀ front back, above.children = front ++ [node] ++ back → index = front.length := by
  refine ⟨position_run h, ?_⟩
  cases hnode : document.arena.get? node with
  | none =>
      rw [position_of_none hnode] at h
      contradiction
  | some held =>
      cases hup : held.parent with
      | none =>
          rw [position_of_top ⟨held.links, Arena.shape_of_get? hnode, hup⟩] at h
          contradiction
      | some up =>
          obtain ⟨above, habove, hmem⟩ := hsound.exists_above hnode hup
          obtain ⟨place, hplace⟩ := Option.isSome_iff_exists.mp (List.isSome_idxOf?.mpr hmem)
          rw [position, bind_of_ok (get_run document), Arena.placeOf_of_child hnode hup habove,
            hplace, bind_of_ok (ofExcept_ok_run _ document)] at h
          obtain ⟨heq, -⟩ := EStateM.Result.ok.inj h
          obtain ⟨rfl, rfl⟩ := Prod.mk.inj heq
          refine ⟨held, above, rfl, hup, habove, hmem, ?_⟩
          intro front back hsplit
          rw [List.append_assoc, List.singleton_append] at hsplit
          -- a parent lists a child once, so the search stops where the list is cut
          have hnodup : (front ++ node :: back).Nodup :=
            hsplit ▸ hsound.shape.nodup (Arena.shape_of_get? habove)
          have hfront : node ∉ front := fun hfront =>
            List.disjoint_of_nodup_append hnodup hfront List.mem_cons_self
          rw [hsplit, idxOf?_append_cons hfront] at hplace
          exact (Option.some.inj hplace).symm

/-- Insertions that succeed, in a reached document.  The answer is the new node's id, the
number of nodes there were.  The node is the last child of its parent, or the next or the
previous sibling of a node, wherever that node stands among the children. -/
theorem reachable_insertions (h : Reachable document) (hsize : document.size < UInt32.size)
    (spec : String) :
    (∀ parent new after, insert parent spec document = .ok new after →
      ∃ above, document.arena.get? parent = some above ∧
        Gains spec parent new (above.children ++ [new]) document after) ∧
    (∀ node new after, append node spec document = .ok new after →
      ∃ held parent above, document.arena.get? node = some held ∧
        held.parent = some parent ∧ document.arena.get? parent = some above ∧
        node ∈ above.children ∧ ∀ front back, above.children = front ++ [node] ++ back →
          Gains spec parent new (front ++ [node, new] ++ back) document after) ∧
    ∀ node new after, prepend node spec document = .ok new after →
      ∃ held parent above, document.arena.get? node = some held ∧
        held.parent = some parent ∧ document.arena.get? parent = some above ∧
        node ∈ above.children ∧ ∀ front back, above.children = front ++ [node] ++ back →
          Gains spec parent new (front ++ [new, node] ++ back) document after := by
  have hsound := soundInRoom_of_reachable h (Nat.le_of_lt hsize)
  refine ⟨?_, ?_, ?_⟩
  · intro parent new after hinsert
    cases hparent : document.arena.get? parent with
    | none =>
        rw [insert_of_none hparent] at hinsert
        contradiction
    | some above =>
        rw [insert, bind_of_ok (fetchM_of_some hparent)] at hinsert
        have hsplit : above.children = above.children ++ [] := (List.append_nil _).symm
        exact ⟨above, rfl, gains_insertAt hsize hparent hsplit hinsert⟩
  · intro node new after happend
    obtain ⟨⟨parent, index⟩, middle, hplace, hinsert⟩ := exists_of_bind_ok happend
    obtain ⟨rfl, held, above, hnode, hup, hparent, hmem, hindex⟩ :=
      hsound.exists_of_position hplace
    refine ⟨held, parent, above, hnode, hup, hparent, hmem, ?_⟩
    intro front back hsplit
    obtain rfl := hindex front back hsplit
    -- the place behind the node is the length of the list up to it
    have hbehind : insertAt parent spec (front ++ [node]).length middle = .ok new after := by
      rw [List.length_append]
      exact hinsert
    simpa using gains_insertAt hsize hparent hsplit hbehind
  · intro node new after hprepend
    obtain ⟨⟨parent, index⟩, middle, hplace, hinsert⟩ := exists_of_bind_ok hprepend
    obtain ⟨rfl, held, above, hnode, hup, hparent, hmem, hindex⟩ :=
      hsound.exists_of_position hplace
    refine ⟨held, parent, above, hnode, hup, hparent, hmem, ?_⟩
    intro front back hsplit
    obtain rfl := hindex front back hsplit
    rw [List.append_assoc] at hsplit
    simpa using gains_insertAt hsize hparent hsplit hinsert

/-- An element is put into a list of three items at the end, and on either side of the
second. -/
theorem reachable_insertions_list :
    let calls : List Operation :=
      [.insert 0 "ul", .insert 1 "li", .append 2 "li", .prepend 2 "li"]
    let document := calls.foldl Operation.apply (new "body")
    let spec := "LI.wide..new.wide"
    Reachable document ∧ document.size = 5 ∧
      (∃ after, insert 1 spec document = .ok 5 after ∧
        Gains spec 1 5 [4, 2, 3, 5] document after) ∧
      (∃ after, append 2 spec document = .ok 5 after ∧
        Gains spec 1 5 [4, 2, 5, 3] document after) ∧
      ∃ after, prepend 2 spec document = .ok 5 after ∧
        Gains spec 1 5 [4, 5, 2, 3] document after := by
  intro calls document spec
  have hreach : Reachable document := (Reachable.new "body").foldl calls
  have hsize : document.size = 5 := by decide +kernel
  obtain ⟨hinsert, happend, hprepend⟩ :=
    reachable_insertions hreach (by rw [hsize]; decide) spec
  have hlisted : ∀ above, document.arena.get? 1 = some above → above.children = [4, 2, 3] := by
    have hchildren : (document.arena.get? 1).map Node.children = some [4, 2, 3] := by
      decide +kernel
    intro above habove
    simpa [habove] using hchildren
  have hparent : ∀ held parent, document.arena.get? 2 = some held →
      held.parent = some parent → parent = 1 := by
    have hup : (document.arena.get? 2).map Node.parent = some (some 1) := by decide +kernel
    intro held parent hheld hparent
    simpa [hheld, hparent] using hup
  refine ⟨hreach, hsize, ?_, ?_, ?_⟩
  · obtain ⟨after, hrun⟩ : ∃ after, insert 1 spec document = .ok 5 after := ⟨_, rfl⟩
    obtain ⟨above, habove, hgains⟩ := hinsert 1 5 after hrun
    rw [hlisted above habove] at hgains
    exact ⟨after, hrun, hgains⟩
  · obtain ⟨after, hrun⟩ : ∃ after, append 2 spec document = .ok 5 after := ⟨_, rfl⟩
    obtain ⟨held, parent, above, hnode, hup, habove, -, hgains⟩ := happend 2 5 after hrun
    obtain rfl := hparent held parent hnode hup
    exact ⟨after, hrun, hgains [4] [3] (hlisted above habove)⟩
  · obtain ⟨after, hrun⟩ : ∃ after, prepend 2 spec document = .ok 5 after := ⟨_, rfl⟩
    obtain ⟨held, parent, above, hnode, hup, habove, -, hgains⟩ := hprepend 2 5 after hrun
    obtain rfl := hparent held parent hnode hup
    exact ⟨after, hrun, hgains [4] [3] (hlisted above habove)⟩

end Document

end Espalier
