/-
Attaching and detaching.  Each changes the two nodes of a link one after the other, and each
undoes the other: a node that is entered among the children of a parent and taken off again
leaves the arena as it was, and so does a node that is taken off and put back to its place.
Nothing is asked of the other nodes, and the parent may be the node itself.
-/
import Espalier.Proofs.Program
import Espalier.Tree.Arena

namespace Espalier

open Espalier.Program

/-! ### Child lists -/

theorem insertIdx_append_length {α : Type} (front back : List α) (new : α) :
    (front ++ back).insertIdx front.length new = front ++ new :: back := by
  induction front with
  | nil => simp
  | cons head front ih => simp [ih]

theorem idxOf?_append_cons {α : Type} [BEq α] [LawfulBEq α] {front : List α} {x : α}
    (h : x ∉ front) (back : List α) : (front ++ x :: back).idxOf? x = some front.length := by
  induction front with
  | nil => simp [List.idxOf?_cons]
  | cons head front ih =>
      rw [List.mem_cons, not_or] at h
      simp [List.idxOf?_cons, Ne.symm h.1, ih h.2]

theorem filter_append_cons {α : Type} [BEq α] [LawfulBEq α] {front back : List α} {x : α}
    (hfront : x ∉ front) (hback : x ∉ back) :
    (front ++ x :: back).filter (· != x) = front ++ back := by
  have hkeeps : ∀ items : List α, x ∉ items → items.filter (· != x) = items := by
    intro items hitems
    rw [List.filter_eq_self]
    intro item hitem
    have hne : item ≠ x := fun heq => hitems (heq ▸ hitem)
    simpa using hne
  rw [List.filter_append, List.filter_cons_of_neg (by simp), hkeeps front hfront,
    hkeeps back hback]

/-! ### The two ends of a link -/

namespace Node

/-- A node that lists a child at an index, or at the end if that is nearer. -/
def enter (child : NodeId) (index : Nat) (node : Node) : Node :=
  { node with children := node.children.insertIdx (min index node.children.length) child }

/-- A node that does not list a child. -/
def strike (child : NodeId) (node : Node) : Node :=
  { node with children := node.children.filter (· != child) }

/-- A node that remembers a parent, or none. -/
def under (parent : Option NodeId) (node : Node) : Node :=
  { node with parent }

variable {node : Node} {child : NodeId} {front back : List NodeId}

theorem exists_enter (node : Node) (child : NodeId) (index : Nat) :
    ∃ front back, node.children = front ++ back ∧
      front.length = min index node.children.length ∧
      (node.enter child index).children = front ++ child :: back := by
  let place := min index node.children.length
  have hsplit : node.children = node.children.take place ++ node.children.drop place :=
    (List.take_append_drop _ _).symm
  have hlength : (node.children.take place).length = place :=
    List.length_take_of_le (Nat.min_le_right _ _)
  refine ⟨_, _, hsplit, hlength, ?_⟩
  rw [← insertIdx_append_length, ← hsplit, hlength]
  rfl

theorem strike_enter (h : child ∉ node.children) (index : Nat) :
    (node.enter child index).strike child = node := by
  obtain ⟨front, back, hsplit, -, hentered⟩ := node.exists_enter child index
  rw [hsplit, List.mem_append, not_or] at h
  have hchildren : (node.enter child index).children.filter (· != child) = node.children := by
    rw [hentered, filter_append_cons h.1 h.2, hsplit]
  rw [strike, hchildren]
  rfl

theorem enter_strike (hsplit : node.children = front ++ child :: back) (hfront : child ∉ front)
    (hback : child ∉ back) : (node.strike child).enter child front.length = node := by
  have hstruck : (node.strike child).children = front ++ back := by
    rw [← filter_append_cons hfront hback, ← hsplit]
    rfl
  have hplace : min front.length (front ++ back).length = front.length := by simp
  rw [enter, hstruck, hplace, insertIdx_append_length, ← hsplit]
  rfl

end Node

namespace Arena

variable {arena : Arena} {parent child : NodeId} {held above : Node}

/-- Changes that do not see each other can be made in either order. -/
theorem update_comm {first second : Node → Node}
    (h : ∀ node, second (first node) = first (second node)) (arena : Arena) (id other : NodeId) :
    (arena.update id first).update other second =
      (arena.update other second).update id first := by
  have hnodes : (arena.nodes.modify id.toNat first).modify other.toNat second =
      (arena.nodes.modify other.toNat second).modify id.toNat first := by
    apply Array.ext_getElem?
    intro index
    simp only [Array.getElem?_modify]
    by_cases hid : id.toNat = index
    · by_cases hother : other.toNat = index
      · have hcomm : second ∘ first = first ∘ second := funext h
        simp [hid, hother, hcomm]
      · simp [hid, hother]
    · simp [hid]
  rw [update, update, hnodes, update, update]

theorem isSome_get?_update (arena : Arena) (id other : NodeId) (change : Node → Node) :
    ((arena.update id change).get? other).isSome = (arena.get? other).isSome := by
  rw [get?_update]
  split
  · rw [Option.isSome_map]
  · rfl

theorem exists_of_isSome (h : (arena.get? child).isSome) :
    ∃ node, arena.get? child = some node ∧ arena.fetch child = .ok node := by
  obtain ⟨node, hnode⟩ := Option.isSome_iff_exists.mp h
  exact ⟨node, hnode, fetch_eq_ok_iff.mpr hnode⟩

/-! ### Places -/

theorem placeOf_of_none (h : arena.get? child = none) :
    arena.placeOf child = .error (.unknownNode child) :=
  exceptBind_of_error (fetch_of_none h) _

theorem placeOf_of_top (hchild : arena.get? child = some held) (htop : held.parent = none) :
    arena.placeOf child = .ok none := by
  rw [placeOf, exceptBind_of_ok (fetch_eq_ok_iff.mpr hchild), htop]
  rfl

/-- The place of a node is where the parent first lists it. -/
theorem placeOf_of_child (hchild : arena.get? child = some held)
    (hparent : held.parent = some parent) (habove : arena.get? parent = some above) :
    arena.placeOf child =
      .ok ((above.children.idxOf? child).map fun index => (parent, index)) := by
  rw [placeOf, exceptBind_of_ok (fetch_eq_ok_iff.mpr hchild), hparent]
  dsimp only
  rw [exceptBind_of_ok (fetch_eq_ok_iff.mpr habove)]
  rfl

/-! ### Runs -/

theorem attach_of_isSome (hchild : (arena.get? child).isSome) (hparent : (arena.get? parent).isSome)
    (index : Nat) : arena.attach parent child index = .ok (arena.link parent child index) := by
  obtain ⟨held, -, hheld⟩ := exists_of_isSome hchild
  obtain ⟨above, -, habove⟩ := exists_of_isSome hparent
  rw [attach, exceptBind_of_ok hheld, exceptBind_of_ok habove]
  rfl

theorem attach_of_none_child (hchild : arena.get? child = none) (parent : NodeId) (index : Nat) :
    arena.attach parent child index = .error (.unknownNode child) :=
  exceptBind_of_error (fetch_of_none hchild) _

theorem attach_of_none_parent (hchild : (arena.get? child).isSome)
    (hparent : arena.get? parent = none) (index : Nat) :
    arena.attach parent child index = .error (.unknownNode parent) := by
  obtain ⟨held, -, hheld⟩ := exists_of_isSome hchild
  rw [attach, exceptBind_of_ok hheld]
  exact exceptBind_of_error (fetch_of_none hparent) _

/-- The arena in which a node is unlinked from a parent. -/
def unlink (arena : Arena) (parent child : NodeId) : Arena :=
  (arena.update child (·.under none)).update parent (·.strike child)

theorem detach_of_none (h : arena.get? child = none) :
    detach child arena = .error (.unknownNode child) arena := by
  rw [detach, bind_of_ok (get_run arena), fetch_of_none h, bind_of_error (ofExcept_error_run _ _)]

theorem detach_of_top (hchild : arena.get? child = some held) (htop : held.parent = none) :
    detach child arena = .ok none arena := by
  rw [detach, bind_of_ok (get_run arena), fetch_eq_ok_iff.mpr hchild,
    bind_of_ok (ofExcept_ok_run _ _), htop]
  rfl

section Child

variable (hchild : arena.get? child = some held) (hparent : held.parent = some parent)
include hchild hparent

/-- The link of a node to its parent goes before the parent is looked up. -/
theorem detach_eq :
    detach child arena = (do
      let arena ← get
      let _ ← ofExcept (arena.fetch parent)
      modify (·.update parent (·.strike child))
      return some parent : EStateM TreeError Arena (Option NodeId))
        (arena.update child (·.under none)) := by
  rw [detach, bind_of_ok (get_run arena), fetch_eq_ok_iff.mpr hchild,
    bind_of_ok (ofExcept_ok_run _ _), hparent]
  rfl

theorem detach_of_child (habove : (arena.get? parent).isSome) :
    detach child arena = .ok (some parent) (arena.unlink parent child) := by
  rw [← isSome_get?_update arena child parent (·.under none)] at habove
  obtain ⟨above, -, hfetch⟩ := exists_of_isSome habove
  rw [detach_eq hchild hparent, bind_of_ok (get_run _), hfetch,
    bind_of_ok (ofExcept_ok_run _ _)]
  rfl

theorem detach_of_dangling (habove : arena.get? parent = none) :
    detach child arena =
      .error (.unknownNode parent) (arena.update child (·.under none)) := by
  have hnone : (arena.update child (·.under none)).get? parent = none := by
    rw [← Option.not_isSome_iff_eq_none, isSome_get?_update, habove]
    decide
  rw [detach_eq hchild hparent, bind_of_ok (get_run _), fetch_of_none hnone,
    bind_of_error (ofExcept_error_run _ _)]

end Child

/-! ### Attaching and detaching are inverse -/

theorem link_eq (arena : Arena) (parent child : NodeId) (index : Nat) :
    arena.link parent child index =
      (arena.update parent (·.enter child index)).update child (·.under (some parent)) :=
  rfl

/-- Entering or striking a child and changing the parent do not see each other, also where
they are made to one node. -/
theorem unlink_link (hchild : arena.get? child = some held) (htop : held.parent = none)
    (habove : arena.get? parent = some above) (hnew : child ∉ above.children) (index : Nat) :
    (arena.link parent child index).unlink parent child = arena := by
  have hcomm : ∀ node : Node, (node.enter child index).under none =
      (node.under none).enter child index := fun _ => rfl
  have hunder : arena.update child (·.under none) = arena := by
    apply update_eq_self
    intro node hnode
    rw [hchild] at hnode
    obtain rfl := Option.some.inj hnode
    rw [Node.under, ← htop]
  have hstrike : arena.update parent ((·.strike child) ∘ (·.enter child index)) = arena := by
    apply update_eq_self
    intro node hnode
    rw [habove] at hnode
    obtain rfl := Option.some.inj hnode
    exact Node.strike_enter hnew index
  calc (arena.link parent child index).unlink parent child
      = ((arena.update parent (·.enter child index)).update child (·.under none)).update parent
          (·.strike child) := by
        rw [link_eq, unlink, update_update]
        rfl
    _ = ((arena.update child (·.under none)).update parent (·.enter child index)).update parent
          (·.strike child) := by rw [update_comm hcomm]
    _ = arena := by rw [hunder, update_update, hstrike]

theorem link_unlink (hchild : arena.get? child = some held) (hparent : held.parent = some parent)
    (habove : arena.get? parent = some above) {front back : List NodeId}
    (hsplit : above.children = front ++ child :: back) (hfront : child ∉ front)
    (hback : child ∉ back) :
    (arena.unlink parent child).link parent child front.length = arena := by
  have hcomm : ∀ node : Node, ((node.under none).strike child).enter child front.length =
      ((node.strike child).enter child front.length).under none := fun _ => rfl
  have hswap : (arena.update child (·.under none)).update parent
      ((·.enter child front.length) ∘ (·.strike child)) =
      (arena.update parent ((·.enter child front.length) ∘ (·.strike child))).update child
        (·.under none) := update_comm hcomm arena child parent
  have henter : arena.update parent ((·.enter child front.length) ∘ (·.strike child)) =
      arena := by
    apply update_eq_self
    intro node hnode
    rw [habove] at hnode
    obtain rfl := Option.some.inj hnode
    exact Node.enter_strike hsplit hfront hback
  have hunder : arena.update child ((·.under (some parent)) ∘ (·.under none)) = arena := by
    apply update_eq_self
    intro node hnode
    rw [hchild] at hnode
    obtain rfl := Option.some.inj hnode
    rw [Function.comp_apply, Node.under, Node.under, ← hparent]
  calc (arena.unlink parent child).link parent child front.length
      = ((arena.update child (·.under none)).update parent
          ((·.enter child front.length) ∘ (·.strike child))).update child
          (·.under (some parent)) := by rw [link_eq, unlink, update_update]
    _ = ((arena.update parent ((·.enter child front.length) ∘ (·.strike child))).update child
          (·.under none)).update child (·.under (some parent)) := by rw [hswap]
    _ = arena := by rw [henter, update_update, hunder]

/-- A node is put among the children of a parent, behind some of them and in front of the
others, and no third node changes. -/
structure Joins (parent child : NodeId) (front back : List NodeId) (before after : Arena) :
    Prop where
  listed : (before.get? parent).map Node.children = some (front ++ back)
  lists : (after.get? parent).map Node.children = some (front ++ child :: back)
  remembers : (after.get? child).bind Node.parent = some parent
  others : ∀ id, id ≠ parent → id ≠ child → after.get? id = before.get? id

theorem exists_joins (hchild : (arena.get? child).isSome)
    (habove : arena.get? parent = some above) (index : Nat) :
    ∃ front back, Joins parent child front back arena (arena.link parent child index) ∧
      front.length = min index above.children.length := by
  obtain ⟨front, back, hsplit, hlength, hentered⟩ := above.exists_enter child index
  refine ⟨front, back, ⟨?_, ?_, ?_, ?_⟩, hlength⟩
  · rw [habove, Option.map_some, hsplit]
  · have hparent : (arena.update parent (·.enter child index)).get? parent =
        some (above.enter child index) := by
      rw [get?_update, if_pos rfl, habove, Option.map_some]
    rw [link_eq, get?_update, hparent]
    split
    · exact congrArg some hentered
    · exact congrArg some hentered
  · rw [← isSome_get?_update arena parent child (·.enter child index)] at hchild
    obtain ⟨held, hheld⟩ := Option.isSome_iff_exists.mp hchild
    rw [link_eq, get?_update, if_pos rfl, hheld]
    rfl
  · intro id hparent hchild
    rw [link_eq, get?_update, if_neg (Ne.symm hchild), get?_update, if_neg (Ne.symm hparent)]

/-- Where an arena has a parent and a node, a node that has no parent and is not listed can
be attached at any index.  It then stands at the index, or at the end if that is nearer, the
others in their order around it, and detaching it gives the parent and the arena as it was.
The other way round, a node that its parent lists once has a place there, and detaching it
and attaching it at that place gives the arena as it was. -/
theorem attach_detach_inverse (hchild : arena.get? child = some held)
    (habove : arena.get? parent = some above) :
    (held.parent = none → child ∉ above.children → ∀ index, ∃ after front back,
      arena.attach parent child index = .ok after ∧
      Joins parent child front back arena after ∧
      after.placeOf child = .ok (some (parent, min index above.children.length)) ∧
      detach child after = .ok (some parent) arena) ∧
    (held.parent = some parent → above.children.count child = 1 → ∃ index between,
      arena.placeOf child = .ok (some (parent, index)) ∧
      detach child arena = .ok (some parent) between ∧
      between.attach parent child index = .ok arena) := by
  have hthere : (arena.get? child).isSome := Option.isSome_of_eq_some hchild
  have hthere' : (arena.get? parent).isSome := Option.isSome_of_eq_some habove
  constructor
  · intro htop hnew index
    obtain ⟨front, back, hjoins, hlength⟩ := exists_joins hthere habove index
    obtain ⟨joined, hjoined, hremembers⟩ := Option.bind_eq_some_iff.mp hjoins.remembers
    obtain ⟨listing, hlisting, hlists⟩ := Option.map_eq_some_iff.mp hjoins.lists
    refine ⟨_, front, back, attach_of_isSome hthere hthere' index, hjoins, ?_, ?_⟩
    · have hfront : child ∉ front := by
        have hlisted := hjoins.listed
        rw [habove, Option.map_some, Option.some_inj] at hlisted
        exact fun hmem => hnew (hlisted ▸ List.mem_append_left back hmem)
      rw [placeOf_of_child hjoined hremembers hlisting, hlists, idxOf?_append_cons hfront,
        hlength]
      rfl
    · rw [detach_of_child hjoined hremembers (Option.isSome_of_eq_some hlisting),
        unlink_link hchild htop habove hnew]
  · intro hparent hcount
    have hmem : child ∈ above.children := List.count_pos_iff.mp (by omega)
    obtain ⟨front, back, hsplit, hfront⟩ := List.eq_append_cons_of_mem hmem
    have hback : child ∉ back := by
      rw [hsplit, List.count_append, List.count_cons_self] at hcount
      exact List.count_eq_zero.mp (by omega)
    refine ⟨front.length, arena.unlink parent child, ?_, detach_of_child hchild hparent hthere', ?_⟩
    · rw [placeOf_of_child hchild hparent habove, hsplit, idxOf?_append_cons hfront]
      rfl
    · rw [attach_of_isSome, link_unlink hchild hparent habove hsplit hfront hback]
      · rw [unlink, isSome_get?_update, isSome_get?_update]
        exact hthere
      · rw [unlink, isSome_get?_update, isSome_get?_update]
        exact hthere'

/-- A list that names a node that is not there, twice: a second node is put behind it and taken
off again, a node is put under itself, and the node that is listed is taken off and put back. -/
theorem attach_detach_inverse_dangling :
    let list : Node := { id := 0, ns := .html, tag := "ul", children := [2, 7, 7] }
    let item : Node := { id := 2, ns := .html, tag := "li", parent := some 0 }
    let arena : Arena := ⟨#[list, { id := 1, ns := .html, tag := "p" }, item]⟩
    (∃ after front back, arena.attach 0 1 18446744073709551615 = .ok after ∧
      Joins 0 1 front back arena after ∧ after.placeOf 1 = .ok (some (0, 3)) ∧
      detach 1 after = .ok (some 0) arena) ∧
    (∃ after front back, arena.attach 1 1 5 = .ok after ∧ Joins 1 1 front back arena after ∧
      after.placeOf 1 = .ok (some (1, 0)) ∧ detach 1 after = .ok (some 1) arena) ∧
    ∃ index between, arena.placeOf 2 = .ok (some (0, index)) ∧
      detach 2 arena = .ok (some 0) between ∧ between.attach 0 2 index = .ok arena := by
  intro list item arena
  have hlist : arena.get? 0 = some list := rfl
  have hother : arena.get? 1 = some { id := 1, ns := .html, tag := "p" } := rfl
  have hitem : arena.get? 2 = some item := rfl
  have hnew : 1 ∉ list.children := by simp [list]
  exact ⟨(attach_detach_inverse hother hlist).1 rfl hnew _,
    (attach_detach_inverse hother hother).1 rfl List.not_mem_nil _,
    (attach_detach_inverse hitem hlist).2 rfl rfl⟩

end Arena

end Espalier
