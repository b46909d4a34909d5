/-
Arenas by themselves.  Whoever attaches and detaches nodes directly may attach a node that has
a parent already, or attach it twice, or to itself; then lists hold more than the parents of
the listed nodes say.  The other direction holds through all of it: whatever is listed is
there, and a parent lists the nodes that remember it, so that no call fails but for a node
that its arguments name.
-/
import Espalier.Proofs.Tree.Attaching
import Espalier.Proofs.Tree.Reshape

namespace Espalier

open Espalier.Program

/-! ### Links in one direction -/

namespace Shape

variable {shape : Shape} {parent child : NodeId}

/-- Whatever is listed is there, and a parent lists the nodes that remember it. -/
structure Backed (shape : Shape) : Prop where
  listed : ∀ {up low}, shape.Child up low → (shape low).isSome
  linked : ∀ {id links}, shape id = some links → ∀ {up}, links.parent = some up →
    shape.Child up id

namespace Backed

variable (h : shape.Backed)
include h

/-- A parent is there. -/
theorem isSome_parent {id up : NodeId} {links : Links} (hid : shape id = some links)
    (hup : links.parent = some up) : (shape up).isSome := by
  obtain ⟨above, habove, -⟩ := exists_of_child (h.linked hid hup)
  exact Option.isSome_of_eq_some habove

/-- A new node has no links, and no node has a link to it. -/
theorem grow {after : Shape} {new : NodeId} (hfresh : shape new = none)
    (hafter : ∀ id, after id = if id = new then some ⟨new, none, []⟩ else shape id) :
    after.Backed := by
  have hold : ∀ {id : NodeId} {links : Links}, shape id = some links →
      after id = some links := by
    intro id links hid
    have hne : id ≠ new := by
      rintro rfl
      rw [hfresh] at hid
      contradiction
    rw [hafter, if_neg hne, hid]
  have hcases : ∀ {id : NodeId} {links : Links}, after id = some links →
      links = ⟨new, none, []⟩ ∨ shape id = some links := by
    intro id links hid
    rw [hafter] at hid
    split at hid
    · exact .inl (Option.some.inj hid).symm
    · exact .inr hid
  constructor
  · intro up low hchild
    obtain ⟨links, hlinks, hmem⟩ := exists_of_child hchild
    rcases hcases hlinks with rfl | hup
    · contradiction
    · obtain ⟨below, hbelow⟩ := Option.isSome_iff_exists.mp (h.listed (child_of_mem hup hmem))
      exact Option.isSome_of_eq_some (hold hbelow)
  · intro id links hid up hup
    rcases hcases hid with rfl | hid
    · contradiction
    · obtain ⟨above, habove, hmem⟩ := exists_of_child (h.linked hid hup)
      exact child_of_mem (hold habove) hmem

/-- A node that is attached loses its old parent, and only the new one needs to list it. -/
theorem link (hchild : (shape child).isSome) (hparent : (shape parent).isSome) (index : Nat) :
    ((shape.modify parent (Links.enter child index)).modify child (Links.adopt parent)).Backed := by
  constructor
  · intro up low hlow
    rw [isSome_modify, isSome_modify]
    rw [child_adopt_iff, child_enter_iff hparent] at hlow
    rcases hlow with ⟨-, rfl⟩ | hlow
    · exact hchild
    · exact h.listed hlow
  · intro id links hid up hup
    obtain ⟨middle, hmiddle, rfl⟩ := exists_of_modify hid
    obtain ⟨old, hold, rfl⟩ := exists_of_modify hmiddle
    rw [child_adopt_iff, child_enter_iff hparent]
    by_cases heq : id = child
    · rw [if_pos heq] at hup
      exact .inl ⟨(Option.some.inj hup).symm, heq⟩
    · right
      rw [if_neg heq] at hup
      split at hup
      · exact h.linked hold hup
      · exact h.linked hold hup

/-- A node that is detached has no parent, so none needs to list it. -/
theorem unlink (parent child : NodeId) : (shape.unlink parent child).Backed := by
  constructor
  · intro up low hlow
    rw [Shape.unlink, isSome_modify, isSome_modify]
    rw [child_unlink_iff] at hlow
    exact h.listed hlow.1
  · intro id links hid up hup
    obtain ⟨middle, hmiddle, rfl⟩ := exists_of_modify hid
    obtain ⟨old, hold, rfl⟩ := exists_of_modify hmiddle
    have hkept : id ≠ child ∧ old.parent = some up := by
      by_cases heq : id = child
      · rw [if_pos heq] at hup
        split at hup
        · contradiction
        · contradiction
      · rw [if_neg heq] at hup
        split at hup
        · exact ⟨heq, hup⟩
        · exact ⟨heq, hup⟩
    rw [child_unlink_iff]
    exact ⟨h.linked hold hkept.2, fun hpair => hkept.1 hpair.2⟩

end Backed

end Shape

namespace Arena

variable {arena : Arena}

/-! ### Calls -/

/-- Attaching, step by step: both nodes are looked up before the list of the parent changes,
and the node is looked up again before its parent changes. -/
def attaching (parent child : NodeId) (index : Nat) : EStateM TreeError Arena Unit := do
  let _ ← ofExcept ((← get).fetch child)
  let _ ← ofExcept ((← get).fetch parent)
  modify (·.update parent (·.enter child index))
  let _ ← ofExcept ((← get).fetch child)
  modify (·.update child (·.under (some parent)))

/-- A call that changes a bare arena. -/
inductive Call where
  | addElement (tag : String) (ns : Namespace)
  | attach (parent child : NodeId) (index : Nat)
  | detach (child : NodeId)

/-- The arena after a call, also after one that fails. -/
def Call.apply (arena : Arena) : Call → Arena
  | addElement tag ns => arena.addElement tag ns
  | attach parent child index => stateAfter (attaching parent child index arena)
  | detach child => stateAfter (Arena.detach child arena)

/-- The arenas that calls lead to, failed ones included. -/
inductive Reached : Arena → Prop where
  | empty : Reached {}
  | step {arena : Arena} (h : Reached arena) (call : Call) :
      Reached (call.apply arena)

theorem Reached.foldl (h : Reached arena) (calls : List Call) :
    Reached (calls.foldl Call.apply arena) := by
  induction calls generalizing arena with
  | nil => exact h
  | cons call calls ih => exact ih (h.step call)

/-- Attaching succeeds or is refused as a whole. -/
theorem attaching_run (arena : Arena) (parent child : NodeId) (index : Nat) :
    attaching parent child index arena =
      match arena.attach parent child index with
      | .ok after => .ok () after
      | .error error => .error error arena := by
  rw [attaching, bind_of_ok (get_run arena)]
  cases hchild : arena.get? child with
  | none =>
      rw [fetch_of_none hchild, bind_of_error (ofExcept_error_run _ _),
        attach_of_none_child hchild]
  | some held =>
      have hthere : (arena.get? child).isSome := Option.isSome_of_eq_some hchild
      rw [fetch_eq_ok_iff.mpr hchild, bind_of_ok (ofExcept_ok_run _ _),
        bind_of_ok (get_run arena)]
      cases hparent : arena.get? parent with
      | none =>
          rw [fetch_of_none hparent, bind_of_error (ofExcept_error_run _ _),
            attach_of_none_parent hthere hparent]
      | some above =>
          -- the list that was changed leaves the node there
          rw [attach_of_isSome hthere (Option.isSome_of_eq_some hparent)]
          rw [← isSome_get?_update arena parent child (·.enter child index)] at hthere
          obtain ⟨listed, -, hfetch⟩ := exists_of_isSome hthere
          have hmodify : (modify (·.update parent (·.enter child index)) :
              EStateM TreeError Arena Unit) arena =
              .ok () (arena.update parent (·.enter child index)) := rfl
          rw [fetch_eq_ok_iff.mpr hparent, bind_of_ok (ofExcept_ok_run _ _),
            bind_of_ok hmodify, bind_of_ok (get_run _), hfetch,
            bind_of_ok (ofExcept_ok_run _ _)]
          rfl

/-- What attaching can come to. -/
theorem attaching_cases (arena : Arena) (parent child : NodeId) (index : Nat) :
    (arena.get? child = none ∧
      attaching parent child index arena = .error (.unknownNode child) arena) ∨
    ((arena.get? child).isSome ∧ arena.get? parent = none ∧
      attaching parent child index arena = .error (.unknownNode parent) arena) ∨
    ((arena.get? child).isSome ∧ (arena.get? parent).isSome ∧
      attaching parent child index arena = .ok () (arena.link parent child index)) := by
  rw [attaching_run]
  cases hchild : arena.get? child with
  | none => exact .inl ⟨rfl, by rw [attach_of_none_child hchild]⟩
  | some held =>
      have hthere : (arena.get? child).isSome := Option.isSome_of_eq_some hchild
      right
      cases hparent : arena.get? parent with
      | none => exact .inl ⟨rfl, rfl, by rw [attach_of_none_parent hthere hparent]⟩
      | some above =>
          have hthere' : (arena.get? parent).isSome := Option.isSome_of_eq_some hparent
          exact .inr ⟨rfl, rfl, by rw [attach_of_isSome hthere hthere']⟩

/-- What detaching can come to. -/
theorem detach_cases (arena : Arena) (child : NodeId) :
    (arena.get? child = none ∧ detach child arena = .error (.unknownNode child) arena) ∨
    detach child arena = .ok none arena ∨
    (∃ parent, detach child arena = .ok (some parent) (arena.unlink parent child)) ∨
    ∃ held parent, arena.get? child = some held ∧ held.parent = some parent ∧
      arena.get? parent = none := by
  cases hchild : arena.get? child with
  | none => exact .inl ⟨rfl, detach_of_none hchild⟩
  | some held =>
      right
      cases hparent : held.parent with
      | none => exact .inl (detach_of_top hchild hparent)
      | some parent =>
          right
          cases habove : arena.get? parent with
          | none => exact .inr ⟨held, parent, rfl, hparent, habove⟩
          | some above =>
              have hthere : (arena.get? parent).isSome := Option.isSome_of_eq_some habove
              exact .inl ⟨parent, detach_of_child hchild hparent hthere⟩

/-! ### Reached arenas -/

/-- Nodes carry their ids, and their links hold in one direction, as long as every node has an
id of its own. -/
def BackedInRoom (arena : Arena) : Prop :=
  arena.size ≤ UInt32.size → arena.shape.Labelled ∧ arena.shape.Backed

theorem BackedInRoom.addElement (h : arena.BackedInRoom) (tag : String) (ns : Namespace) :
    (arena.addElement tag ns).BackedInRoom := by
  intro hroom
  rw [Arena.addElement, size_add] at hroom
  have hsize : arena.size < UInt32.size := Nat.lt_of_succ_le hroom
  obtain ⟨hlabel, hbacked⟩ := h (Nat.le_of_lt hsize)
  refine ⟨labelled_add (fun _ => rfl) hlabel, ?_⟩
  exact hbacked.grow (shape_nextId hsize) fun id => shape_add hsize _ id

theorem BackedInRoom.link (h : arena.BackedInRoom) {parent child : NodeId}
    (hchild : (arena.get? child).isSome) (hparent : (arena.get? parent).isSome) (index : Nat) :
    (arena.link parent child index).BackedInRoom := by
  intro hroom
  rw [size_link] at hroom
  obtain ⟨hlabel, hbacked⟩ := h hroom
  have henter : ∀ links : Links, (links.enter child index).label = links.label := fun _ => rfl
  have hadopt : ∀ links : Links, (links.adopt parent).label = links.label := fun _ => rfl
  rw [← isSome_shape_iff] at hchild hparent
  rw [shape_link]
  exact ⟨(hlabel.modify henter parent).modify hadopt child, hbacked.link hchild hparent index⟩

theorem BackedInRoom.unlink (h : arena.BackedInRoom) (parent child : NodeId) :
    (arena.unlink parent child).BackedInRoom := by
  have hshape : (arena.unlink parent child).shape = arena.shape.unlink parent child :=
    shape_unlink arena parent child
  intro hroom
  rw [Arena.unlink, size_update, size_update] at hroom
  obtain ⟨hlabel, hbacked⟩ := h hroom
  rw [hshape]
  exact ⟨hlabel.unlink parent child, hbacked.unlink parent child⟩

/-- Where links are backed, no parent is missing. -/
theorem not_dangling (h : arena.shape.Backed) {child parent : NodeId} {held : Node}
    (hchild : arena.get? child = some held) (hparent : held.parent = some parent) :
    arena.get? parent ≠ none := by
  have hthere := h.isSome_parent (shape_of_get? hchild) hparent
  rw [isSome_shape_iff] at hthere
  exact Option.isSome_iff_ne_none.mp hthere

/-- One call, whatever it comes to. -/
theorem BackedInRoom.apply (h : arena.BackedInRoom) (call : Call) :
    (call.apply arena).BackedInRoom := by
  cases call with
  | addElement tag ns => exact h.addElement tag ns
  | attach parent child index =>
      rw [Call.apply]
      rcases attaching_cases arena parent child index with
        ⟨-, hrun⟩ | ⟨-, -, hrun⟩ | ⟨hchild, hparent, hrun⟩
      · rw [hrun]
        exact h
      · rw [hrun]
        exact h
      · rw [hrun]
        exact h.link hchild hparent index
  | detach child =>
      rw [Call.apply]
      rcases detach_cases arena child with
        ⟨-, hrun⟩ | hrun | ⟨parent, hrun⟩ | ⟨held, parent, hchild, hparent, hnone⟩
      · rw [hrun]
        exact h
      · rw [hrun]
        exact h
      · rw [hrun]
        exact h.unlink parent child
      · rw [detach_of_dangling hchild hparent hnone]
        intro hroom
        rw [stateAfter, size_update] at hroom
        exact absurd hnone (not_dangling (h hroom).2 hchild hparent)

theorem shape_empty (id : NodeId) : ({} : Arena).shape id = none := rfl

theorem backedInRoom_empty : BackedInRoom {} := by
  intro _
  refine ⟨?_, ?_, ?_⟩
  · intro id links hid
    rw [shape_empty] at hid
    contradiction
  · intro up low hchild
    obtain ⟨links, hlinks, -⟩ := Shape.exists_of_child hchild
    rw [shape_empty] at hlinks
    contradiction
  · intro id links hid
    rw [shape_empty] at hid
    contradiction

theorem backedInRoom_of_reached (h : Reached arena) : arena.BackedInRoom := by
  induction h with
  | empty => exact backedInRoom_empty
  | step _ call ih => exact ih.apply call

/-- What an arena promises of its nodes. -/
structure Linked (arena : Arena) : Prop where
  id_eq : ∀ (index : Nat) (node : Node), arena.nodes[index]? = some node → node.id.toNat = index
  listed : ∀ node ∈ arena.nodes, ∀ child ∈ node.children, (arena.get? child).isSome
  linked : ∀ node ∈ arena.nodes, ∀ parent, node.parent = some parent →
    ∃ above, arena.get? parent = some above ∧ node.id ∈ above.children
  /-- A node has a place exactly if it has a parent, and the place is with the parent. -/
  placed : ∀ id, (arena.get? id).isSome → ∃ place up, arena.placeOf id = .ok place ∧
    arena.parent? id = .ok up ∧ place.map Prod.fst = up.map Node.id

theorem Backed.linked (hlabel : arena.shape.Labelled) (h : arena.shape.Backed)
    (hsize : arena.size ≤ UInt32.size) : arena.Linked := by
  have hlinked : ∀ {id : NodeId} {node : Node}, arena.get? id = some node →
      ∀ {parent}, node.parent = some parent →
        ∃ above, arena.get? parent = some above ∧ id ∈ above.children := by
    intro id node hnode parent hparent
    obtain ⟨links, hlinks, hmem⟩ :=
      Shape.exists_of_child (h.linked (shape_of_get? hnode) hparent)
    obtain ⟨above, habove, rfl⟩ := exists_of_shape_eq_some hlinks
    exact ⟨above, habove, hmem⟩
  constructor
  · intro index node hnode
    exact (get?_of_getElem? hlabel hsize hnode).2
  · intro node hnode child hchild
    rw [← isSome_shape_iff]
    exact h.listed (child_of_mem (get?_of_mem hlabel hsize hnode) hchild)
  · intro node hnode parent hparent
    exact hlinked (get?_of_mem hlabel hsize hnode) hparent
  · intro id hid
    obtain ⟨node, hnode, hfetch⟩ := exists_of_isSome hid
    cases hparent : node.parent with
    | none =>
        refine ⟨none, none, placeOf_of_top hnode hparent, ?_, rfl⟩
        rw [parent?, exceptBind_of_ok hfetch, hparent]
        rfl
    | some parent =>
        obtain ⟨above, habove, hmem⟩ := hlinked hnode hparent
        obtain ⟨index, hindex⟩ := Option.isSome_iff_exists.mp (List.isSome_idxOf?.mpr hmem)
        have hid : above.id = parent := hlabel _ _ (shape_of_get? habove)
        refine ⟨some (parent, index), some above, ?_, ?_, ?_⟩
        · rw [placeOf_of_child hnode hparent habove, hindex]
          rfl
        · rw [parent?, exceptBind_of_ok hfetch, hparent]
          dsimp only
          rw [exceptBind_of_ok (fetch_eq_ok_iff.mpr habove)]
          rfl
        · rw [Option.map_some, Option.map_some, hid]

/-- What attaching a node is refused with: the node is missing, or else the parent. -/
def AttachRefused (arena : Arena) (parent child : NodeId) (error : TreeError) : Prop :=
  (arena.get? child = none ∧ error = .unknownNode child) ∨
    ((arena.get? child).isSome ∧ arena.get? parent = none ∧ error = .unknownNode parent)

theorem attaching_error_iff (arena : Arena) (parent child : NodeId) (index : Nat)
    (error : TreeError) (after : Arena) :
    attaching parent child index arena = .error error after ↔
      arena.AttachRefused parent child error ∧ after = arena := by
  refine run_eq_error_iff ?_ ?_ error after
  · rintro error (⟨hchild, rfl⟩ | ⟨hchild, hparent, rfl⟩)
    · rw [attaching_run, attach_of_none_child hchild]
    · rw [attaching_run, attach_of_none_parent hchild hparent]
  · intro hnone
    rcases attaching_cases arena parent child index with
      ⟨hchild, -⟩ | ⟨hchild, hparent, -⟩ | ⟨-, -, hrun⟩
    · exact absurd (.inl ⟨hchild, rfl⟩) (hnone _)
    · exact absurd (.inr ⟨hchild, hparent, rfl⟩) (hnone _)
    · exact ⟨_, _, hrun⟩

/-- Attaching is refused with the errors that its step-by-step form stops with. -/
theorem attach_error_iff (arena : Arena) (parent child : NodeId) (index : Nat)
    (error : TreeError) :
    arena.attach parent child index = .error error ↔ arena.AttachRefused parent child error := by
  have hrun := attaching_error_iff arena parent child index error arena
  rw [attaching_run] at hrun
  cases hattach : arena.attach parent child index with
  | ok after => simpa [hattach] using hrun
  | error other => simpa [hattach] using hrun

theorem detach_error_iff (h : arena.shape.Backed) (child : NodeId) (error : TreeError)
    (after : Arena) :
    detach child arena = .error error after ↔
      (arena.get? child = none ∧ error = .unknownNode child) ∧ after = arena := by
  apply run_eq_error_iff
  · rintro error ⟨hchild, rfl⟩
    exact detach_of_none hchild
  · intro hnone
    rcases detach_cases arena child with
      ⟨hchild, -⟩ | hrun | ⟨parent, hrun⟩ | ⟨held, parent, hchild, hparent, hdangling⟩
    · exact absurd ⟨hchild, rfl⟩ (hnone _)
    · exact ⟨_, _, hrun⟩
    · exact ⟨_, _, hrun⟩
    · exact absurd hdangling (not_dangling h hchild hparent)

/-- In an arena that any calls led to, whatever nodes they were given and in whatever order,
a node stands where its id says, whatever is listed is there, a parent lists the nodes that
remember it, and a node has a place exactly if it has a parent.  Attaching is refused exactly
if the child is missing, or else the parent, and detaching exactly if the child is missing; a
refused call leaves the arena as it was.

Ids are 32-bit numbers, and the bound is the number of nodes that can have ids of their
own. -/
theorem reached_linked (h : Reached arena) (hsize : arena.size ≤ UInt32.size) :
    arena.Linked ∧
    (∀ parent child index error,
      arena.attach parent child index = .error error ↔ arena.AttachRefused parent child error) ∧
    (∀ parent child index error after,
      attaching parent child index arena = .error error after ↔
        arena.AttachRefused parent child error ∧ after = arena) ∧
    ∀ child error after, detach child arena = .error error after ↔
      (arena.get? child = none ∧ error = .unknownNode child) ∧ after = arena := by
  obtain ⟨hlabel, hbacked⟩ := backedInRoom_of_reached h hsize
  exact ⟨Backed.linked hlabel hbacked hsize, attach_error_iff arena, attaching_error_iff arena,
    detach_error_iff hbacked⟩

/-- An item is attached twice to a first list and once to a second, and a list to itself; then
the item is detached from the second, and calls with a missing node fail. -/
theorem reached_linked_shared :
    let calls : List Call :=
      [.addElement "ul" .html, .addElement "ol" .html, .addElement "li" .html, .attach 0 2 0,
        .attach 0 2 7, .attach 1 2 0, .attach 1 1 0, .detach 2, .attach 0 9 0, .attach 9 2 0,
        .detach 9]
    let arena := calls.foldl Call.apply {}
    Reached arena ∧ arena.size = 3 ∧
      arena.nodes.toList.map Node.links = [⟨0, none, [2, 2]⟩, ⟨1, some 1, [1]⟩, ⟨2, none, []⟩] ∧
      arena.Linked ∧ arena.placeOf 1 = .ok (some (1, 0)) ∧
      attaching 8 9 0 arena = .error (.unknownNode 9) arena ∧
      attaching 9 2 0 arena = .error (.unknownNode 9) arena ∧
      detach 9 arena = .error (.unknownNode 9) arena := by
  intro calls arena
  have hreach : Reached arena := Reached.empty.foldl calls
  have hsize : arena.size = 3 := by decide +kernel
  have hlinks : arena.nodes.toList.map Node.links =
      [⟨0, none, [2, 2]⟩, ⟨1, some 1, [1]⟩, ⟨2, none, []⟩] := by decide +kernel
  have hplace : arena.placeOf 1 = .ok (some (1, 0)) := by rfl
  have hthere : (arena.get? 2).isSome := by decide +kernel
  have hmissing : arena.get? 9 = none := by decide +kernel
  clear_value arena
  obtain ⟨hlinked, -, hattaching, hdetach⟩ := reached_linked hreach (by rw [hsize]; decide)
  refine ⟨hreach, hsize, hlinks, hlinked, hplace, ?_, ?_, ?_⟩
  · exact (hattaching 8 9 0 _ _).mpr ⟨.inl ⟨hmissing, rfl⟩, rfl⟩
  · exact (hattaching 9 2 0 _ _).mpr ⟨.inr ⟨hthere, hmissing, rfl⟩, rfl⟩
  · exact (hdetach 9 _ _).mpr ⟨⟨hmissing, rfl⟩, rfl⟩

end Arena

end Espalier
