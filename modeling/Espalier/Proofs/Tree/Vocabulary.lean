/-
The vocabularies of a tree.  The vocabulary of a node is settled when the node is made,
from the parent that it is made for.  Later calls may take a node off its parent but never
give it another one, so what held of the two then holds as long as the link does.
-/
import Espalier.Proofs.Markup.Shorthand
import Espalier.Proofs.Tree.Sound

namespace Espalier

open Espalier.Program Relation

/-! ### Lower case -/

theorem isUpper_iff {c : Char} : c.isUpper ↔ c.val ≥ 'A'.val ∧ c.val ≤ 'Z'.val :=
  decide_eq_true_iff

theorem isLower_iff {c : Char} : c.isLower ↔ c.val ≥ 'a'.val ∧ c.val ≤ 'z'.val := by
  have hlower : c.isLower = (decide (c.val ≥ 'a'.val) && decide (c.val ≤ 'z'.val)) := rfl
  rw [hlower, Bool.and_eq_true, decide_eq_true_eq, decide_eq_true_eq]

theorem isLower_toLower {c : Char} (h : c.isUpper) : c.toLower.isLower := by
  rw [isUpper_iff] at h
  have hval : c.toLower.val = c.val + 32 := congrArg Char.val (dif_pos h)
  simp only [isLower_iff, hval, ge_iff_le, UInt32.le_iff_toNat_le, UInt32.toNat_add,
    Char.reduceVal, UInt32.reduceToNat] at *
  omega

theorem toLower_of_not_isUpper {c : Char} (h : ¬ c.isUpper) : c.toLower = c :=
  dif_neg fun hupper => h (isUpper_iff.mpr hupper)

theorem not_isUpper_of_isLower {c : Char} (h : c.isLower) : ¬ c.isUpper := by
  simp only [isLower_iff, isUpper_iff, ge_iff_le, UInt32.le_iff_toNat_le, Char.reduceVal,
    UInt32.reduceToNat] at *
  omega

/-- A letter in lower case stays as it is. -/
theorem toLower_toLower_char (c : Char) : c.toLower.toLower = c.toLower := by
  by_cases hupper : c.isUpper
  · exact toLower_of_not_isUpper (not_isUpper_of_isLower (isLower_toLower hupper))
  · rw [toLower_of_not_isUpper hupper, toLower_of_not_isUpper hupper]

theorem toLower_toLower (text : String) : text.toLower.toLower = text.toLower := by
  have hlower := Markup.toLower_ofList text.toList
  rw [String.ofList_toList] at hlower
  rw [hlower, Markup.toLower_ofList, List.map_map]
  congr 2
  funext c
  exact toLower_toLower_char c

theorem Node.isSvg_of_ns {node other : Node} (h : node.ns = other.ns) :
    node.isSvg = other.isSvg := by
  rw [isSvg, h, isSvg]

theorem Node.isSvg_of_stripped {node other : Node} (h : node.stripped = other.stripped) :
    node.isSvg = other.isSvg :=
  (congrArg Node.isSvg h :)

namespace Document

variable {document : Document}

/-! ### New nodes -/

theorem tag_newNode (spec : String) (above : Node) (id : NodeId) :
    (newNode spec above id).tag = (TagSpec.ofText spec).tag.toLower :=
  (congrArg Node.tag (Node.stripped_addClasses _ _) :)

theorem isSvg_newNode (spec : String) (above : Node) (id : NodeId) :
    (newNode spec above id).isSvg ↔
      above.isSvg ∨ (TagSpec.ofText spec).tag.toLower = "svg" := by
  have hns : (newNode spec above id).ns =
      if above.isSvg || (TagSpec.ofText spec).tag.toLower == "svg" then .svg else .html :=
    (congrArg Node.ns (Node.stripped_addClasses _ _) :)
  rw [Node.isSvg, hns]
  split <;> simp_all

/-! ### The invariant -/

/-- The root belongs to HTML, and below it a node belongs to SVG if its parent does or if
its own tag is `svg`.  Tags are in lower case. -/
structure Inherits (document : Document) : Prop where
  root : ∃ top, document.arena.get? document.root = some top ∧ top.ns = .html
  child : ∀ {id node parent}, document.arena.get? id = some node → node.parent = some parent →
    ∃ above, document.arena.get? parent = some above ∧
      (node.isSvg ↔ above.isSvg ∨ node.tag = "svg")
  lower : ∀ {id node}, document.arena.get? id = some node → node.tag.toLower = node.tag

/-- A node after changes that settle nothing anew: vocabulary and tag stay, and so does the
parent unless it is lost. -/
structure Settled (before after : Node) : Prop where
  ns_eq : after.ns = before.ns
  tag_eq : after.tag = before.tag
  parent_eq : after.parent = before.parent ∨ after.parent = none

theorem Settled.refl (node : Node) : Settled node node :=
  ⟨rfl, rfl, .inl rfl⟩

/-- What a node is made with, in the document where it is linked. -/
structure MadeIn (document : Document) (node : Node) : Prop where
  child : ∀ {parent}, node.parent = some parent →
    ∃ above, document.arena.get? parent = some above ∧
      (node.isSvg ↔ above.isSvg ∨ node.tag = "svg")
  lower : node.tag.toLower = node.tag

theorem Inherits.of_settled {before after : Document} (h : before.Inherits)
    (hroot : after.root = before.root)
    (hstays : ∀ {id : NodeId} {old : Node}, before.arena.get? id = some old →
      ∃ node, after.arena.get? id = some node ∧ node.ns = old.ns)
    (hnodes : ∀ {id : NodeId} {node : Node}, after.arena.get? id = some node →
      (∃ old, before.arena.get? id = some old ∧ Settled old node) ∨ MadeIn after node) :
    after.Inherits := by
  constructor
  · obtain ⟨top, htop, hhtml⟩ := h.root
    obtain ⟨top', htop', hns⟩ := hstays htop
    exact ⟨top', by rw [hroot]; exact htop', hns.trans hhtml⟩
  · intro id node parent hnode hparent
    rcases hnodes hnode with ⟨old, hold, hsettled⟩ | hmade
    · have hparent' : old.parent = some parent := by
        rcases hsettled.parent_eq with hsame | hnone
        · rw [← hsame, hparent]
        · rw [hnone] at hparent
          contradiction
      obtain ⟨above, habove, hiff⟩ := h.child hold hparent'
      obtain ⟨above', habove', hns⟩ := hstays habove
      refine ⟨above', habove', ?_⟩
      rw [Node.isSvg_of_ns hsettled.ns_eq, Node.isSvg_of_ns hns, hsettled.tag_eq]
      exact hiff
    · exact hmade.child hparent
  · intro id node hnode
    rcases hnodes hnode with ⟨old, hold, hsettled⟩ | hmade
    · rw [hsettled.tag_eq]
      exact h.lower hold
    · exact hmade.lower

theorem Inherits.update (h : document.Inherits) {change : Node → Node}
    (hchange : ∀ node, Settled node (change node)) (id : NodeId) :
    Inherits { document with arena := document.arena.update id change } := by
  refine h.of_settled rfl ?_ ?_
  · intro other old hold
    rw [Arena.get?_update, hold]
    split
    · exact ⟨change old, rfl, (hchange old).ns_eq⟩
    · exact ⟨old, rfl, rfl⟩
  · intro other node hnode
    left
    rw [Arena.get?_update] at hnode
    split at hnode
    · obtain ⟨old, hold, rfl⟩ := Option.map_eq_some_iff.mp hnode
      exact ⟨old, hold, hchange old⟩
    · exact ⟨node, hnode, .refl node⟩

/-- A new node is made for the parent that it is linked under. -/
theorem Inherits.add_link (h : document.Inherits) (hsize : document.arena.size < UInt32.size)
    {parent : NodeId} {above : Node} (hparent : document.arena.get? parent = some above)
    (spec : String) (index : Nat) :
    Inherits { document with
      arena := (document.arena.add (newNode spec above)).link parent document.arena.nextId
        index } := by
  have hget := Arena.get?_add_link hsize (newNode spec above) hparent index
  have hnext : ∀ {id : NodeId} {node : Node}, document.arena.get? id = some node →
      id ≠ document.arena.nextId := Arena.ne_nextId hsize
  refine h.of_settled rfl ?_ ?_
  · intro id old hold
    rw [hget, if_neg (hnext hold)]
    split
    · next heq =>
        rw [heq, hparent] at hold
        obtain rfl := Option.some.inj hold
        exact ⟨_, rfl, rfl⟩
    · exact ⟨old, hold, rfl⟩
  · intro id node hnode
    rw [hget] at hnode
    split at hnode
    · -- the new node
      right
      obtain rfl := Option.some.inj hnode
      constructor
      · rintro _ ⟨⟩
        refine ⟨_, by rw [hget, if_neg (hnext hparent), if_pos rfl], ?_⟩
        have hiff := isSvg_newNode spec above document.arena.nextId
        rw [← tag_newNode spec above document.arena.nextId] at hiff
        exact hiff
      · have htag := tag_newNode spec above document.arena.nextId
        have hlower : (newNode spec above document.arena.nextId).tag.toLower =
            (newNode spec above document.arena.nextId).tag := by
          rw [htag, toLower_toLower]
        exact hlower
    · left
      split at hnode
      · next heq =>
          obtain rfl := Option.some.inj hnode
          exact ⟨above, by rw [heq]; exact hparent, rfl, rfl, .inl rfl⟩
      · exact ⟨node, hnode, .refl node⟩

/-- The vocabularies are inherited as long as every node has an id of its own.  Where the
ids have run out, a new node would be linked in the place of an older one. -/
def InheritsInRoom (document : Document) : Prop :=
  document.size ≤ UInt32.size → document.Inherits

theorem rekeyable_inheritsInRoom : Rekeyable InheritsInRoom where
  update document change hchange h id hroom := by
    have hsize : document.size ≤ UInt32.size := by simpa [Document.size] using hroom
    refine (h hsize).update ?_ id
    intro node
    obtain ⟨key, hkey⟩ := hchange node
    rw [hkey]
    exact ⟨rfl, rfl, .inl rfl⟩
  registry document h registry hroom := by
    obtain ⟨hroot, hchild, hlower⟩ := h hroom
    exact ⟨hroot, hchild, hlower⟩

theorem withstands_trims_inheritsInRoom : Withstands Trims InheritsInRoom := by
  intro document change hchange h id hroom
  have hsize : document.size ≤ UInt32.size := by simpa [Document.size] using hroom
  refine (h hsize).update ?_ id
  intro node
  exact ⟨(hchange node).ns_eq, (hchange node).tag_eq, (hchange node).parent_eq⟩

theorem inheritsInRoom_new (rootTag : String) : InheritsInRoom (new rootTag) := by
  intro _
  have hsize : ({} : Arena).size < UInt32.size := by decide
  have honly : ∀ id, (new rootTag).arena.get? id =
      if id = (new rootTag).root then some { id, ns := .html, tag := rootTag.toLower }
      else none := by
    intro id
    rw [new, Arena.addElement, Arena.get?_add hsize]
    split
    · next heq => rw [heq]
    · rfl
  constructor
  · exact ⟨_, by rw [honly, if_pos rfl], rfl⟩
  · intro id node parent hnode hparent
    rw [honly] at hnode
    split at hnode
    · obtain rfl := Option.some.inj hnode
      contradiction
    · contradiction
  · intro id node hnode
    rw [honly] at hnode
    split at hnode
    · obtain rfl := Option.some.inj hnode
      exact toLower_toLower rootTag
    · contradiction

theorem inheritsInRoom_insertAt (parent : NodeId) (spec : String) (index : Nat) :
    Keeps InheritsInRoom (insertAt parent spec index) := by
  apply keeps_insertAt_inRoom
  intro document above hsize hparent h
  exact h.add_link hsize hparent spec index

theorem inheritsInRoom_of_reachable (h : Reachable document) : InheritsInRoom document :=
  (kept_of_trims withstands_trims_inheritsInRoom inheritsInRoom_insertAt
    rekeyable_inheritsInRoom.register rekeyable_inheritsInRoom.forgetKey).of_reachable
    inheritsInRoom_new h

/-! ### Below the root -/

/-- A node is an `svg` element or below one.  The root does not count. -/
def InDrawing (document : Document) (id : NodeId) : Prop :=
  ∃ up held, document.arena.shape.Below up id ∧ up ≠ document.root ∧
    document.arena.get? up = some held ∧ held.tag = "svg"

theorem Sound.not_inDrawing_root (h : document.Sound) : ¬ document.InDrawing document.root := by
  rintro ⟨up, held, hup, hother, -⟩
  exact hother (h.shape.eq_of_below_top h.root hup)

theorem Sound.inDrawing_child_iff (h : document.Sound) {parent id : NodeId} {node : Node}
    (hchild : document.arena.shape.Child parent id) (hne : id ≠ document.root)
    (hnode : document.arena.get? id = some node) :
    document.InDrawing id ↔ document.InDrawing parent ∨ node.tag = "svg" := by
  simp only [InDrawing, h.shape.below_child_iff hchild]
  constructor
  · rintro ⟨up, held, rfl | hup, hother, hheld, htag⟩
    · rw [hnode] at hheld
      obtain rfl := Option.some.inj hheld
      exact .inr htag
    · exact .inl ⟨up, held, hup, hother, hheld, htag⟩
  · rintro (⟨up, held, hup, hother, hheld, htag⟩ | htag)
    · exact ⟨up, held, .inr hup, hother, hheld, htag⟩
    · exact ⟨id, node, .inl rfl, hne, hnode, htag⟩

/-- A node below the root belongs to SVG exactly if it is an `svg` element, or below one that
is not the root. -/
theorem Inherits.isSvg_iff_inDrawing (h : document.Inherits) (hsound : document.Sound)
    {id : NodeId} (hbelow : document.arena.shape.Below document.root id)
    (hne : id ≠ document.root) {node : Node} (hnode : document.arena.get? id = some node) :
    node.isSvg ↔ document.InDrawing id := by
  induction hbelow generalizing node with
  | refl => contradiction
  | @tail parent id hparent hchild ih =>
      obtain ⟨-, links, hlinks, hlink⟩ := hsound.shape.parent_of_child hchild
      rw [Arena.shape_of_get? hnode] at hlinks
      obtain rfl := Option.some.inj hlinks
      obtain ⟨above, habove, hiff⟩ := h.child hnode hlink
      rw [hsound.inDrawing_child_iff hchild hne hnode, hiff]
      by_cases hroot : parent = document.root
      · -- the root counts neither by its vocabulary nor by its tag
        obtain ⟨top, htop, hhtml⟩ := h.root
        rw [hroot, htop] at habove
        obtain rfl := Option.some.inj habove
        have hhtml' : ¬ top.isSvg := by simp [Node.isSvg, hhtml]
        rw [hroot, or_iff_right hsound.not_inDrawing_root, or_iff_right hhtml']
      · rw [ih hroot habove]

/-! ### Insertions -/

/-- The calls that make one element of a specification. -/
inductive Insertion (spec : String) : DocumentM NodeId → Prop
  | insert (parent : NodeId) : Insertion spec (insert parent spec)
  | insertWith (parent : NodeId) (attributes : Attributes) :
      Insertion spec (insertWith parent spec attributes)
  | append (node : NodeId) : Insertion spec (append node spec)
  | prepend (node : NodeId) : Insertion spec (prepend node spec)

/-- A node is an element of a specification, linked under its parent. -/
def Holds (spec : String) (id : NodeId) (document : Document) : Prop :=
  ∃ node parent above, document.arena.get? id = some node ∧ node.parent = some parent ∧
    document.arena.get? parent = some above ∧
    node.tag = (TagSpec.ofText spec).tag.toLower ∧
    (node.isSvg ↔ above.isSvg ∨ (TagSpec.ofText spec).tag.toLower = "svg")

theorem holds_insertAt (hsize : document.size < UInt32.size) {parent id : NodeId}
    {spec : String} {index : Nat} {after : Document}
    (h : insertAt parent spec index document = .ok id after) : Holds spec id after := by
  cases hparent : document.arena.get? parent with
  | none =>
      rw [insertAt_of_none hparent] at h
      contradiction
  | some above =>
      rw [insertAt_of_some hparent] at h
      obtain ⟨rfl, rfl⟩ := EStateM.Result.ok.inj h
      have hget := Arena.get?_add_link hsize (newNode spec above) hparent index
      have hnode := hget document.arena.nextId
      rw [if_pos rfl] at hnode
      have habove := hget parent
      rw [if_neg (Arena.ne_nextId hsize hparent), if_pos rfl] at habove
      exact ⟨_, parent, _, hnode, rfl, habove, tag_newNode spec above _,
        isSvg_newNode spec above _⟩

theorem Holds.update {spec : String} {id : NodeId} (h : Holds spec id document)
    {change : Node → Node} (hchange : ∀ node : Node, (change node).stripped = node.stripped)
    (other : NodeId) :
    Holds spec id { document with arena := document.arena.update other change } := by
  have hget : ∀ {id : NodeId} {node : Node}, document.arena.get? id = some node →
      ∃ after, (document.arena.update other change).get? id = some after ∧
        after.stripped = node.stripped := by
    intro id node hnode
    rw [Arena.get?_update, hnode]
    split
    · exact ⟨change node, rfl, hchange node⟩
    · exact ⟨node, rfl, rfl⟩
  obtain ⟨node, parent, above, hnode, hparent, habove, htag, hsvg⟩ := h
  obtain ⟨node', hnode', hsame⟩ := hget hnode
  obtain ⟨above', habove', hsame'⟩ := hget habove
  refine ⟨node', parent, above', hnode', ?_, habove', ?_, ?_⟩
  · exact (congrArg Node.parent hsame).trans hparent
  · exact (congrArg Node.tag hsame).trans htag
  · rw [Node.isSvg_of_stripped hsame, Node.isSvg_of_stripped hsame']
    exact hsvg

/-- Looking for the place of a node changes nothing. -/
theorem position_run {node : NodeId} {place : NodeId × Nat} {after : Document}
    (h : position node document = .ok place after) : after = document := by
  rw [position, bind_of_ok (get_run document)] at h
  cases hplace : document.arena.placeOf node with
  | error error =>
      rw [hplace, bind_of_error (ofExcept_error_run error document)] at h
      contradiction
  | ok found =>
      rw [hplace, bind_of_ok (ofExcept_ok_run found document)] at h
      cases found with
      | none => contradiction
      | some place =>
          obtain ⟨-, rfl⟩ := EStateM.Result.ok.inj h
          rfl

theorem holds_insert (hsize : document.size < UInt32.size) {parent id : NodeId}
    {spec : String} {after : Document} (h : insert parent spec document = .ok id after) :
    Holds spec id after := by
  cases hparent : document.arena.get? parent with
  | none =>
      rw [insert_of_none hparent] at h
      contradiction
  | some above =>
      rw [insert, bind_of_ok (fetchM_of_some hparent)] at h
      exact holds_insertAt hsize h

/-- Every insertion that succeeds gives an element of its specification. -/
theorem Insertion.holds {spec : String} {call : DocumentM NodeId} (hcall : Insertion spec call)
    (hsize : document.size < UInt32.size) {id : NodeId} {after : Document}
    (h : call document = .ok id after) : Holds spec id after := by
  cases hcall with
  | insert parent => exact holds_insert hsize h
  | insertWith parent attributes =>
      obtain ⟨new, middle, hinsert, hset⟩ := exists_of_bind_ok h
      have hholds := holds_insert hsize hinsert
      obtain ⟨node, _, _, hnode, -⟩ := show Holds spec new middle from hholds
      rw [setAttributes, edit_of_some hnode] at hset
      obtain ⟨rfl, rfl⟩ := EStateM.Result.ok.inj hset
      exact hholds.update (fun held => held.stripped_setAttributes _) new
  | append node =>
      obtain ⟨place, middle, hplace, hinsert⟩ := exists_of_bind_ok h
      obtain rfl := position_run hplace
      exact holds_insertAt hsize hinsert
  | prepend node =>
      obtain ⟨place, middle, hplace, hinsert⟩ := exists_of_bind_ok h
      obtain rfl := position_run hplace
      exact holds_insertAt hsize hinsert

/-! ### Reached documents -/

/-- In a reached document a node with a parent belongs to SVG exactly if the parent does or
the node's own tag is `svg`, and the root belongs to HTML.  So below the root a node belongs
to SVG exactly if it is an `svg` element, or below one other than the root.  The letter case
in which an insertion spells a tag does not matter: tags are stored in lower case.

Ids are 32-bit numbers, and the bound is the number of nodes that can have ids of their
own. -/
theorem reachable_inherits_svg (h : Reachable document) (hsize : document.size ≤ UInt32.size) :
    (∀ id node parent, document.arena.get? id = some node → node.parent = some parent →
      ∃ above, document.arena.get? parent = some above ∧
        (node.isSvg ↔ above.isSvg ∨ node.tag = "svg")) ∧
    (∃ root, document.arena.get? document.root = some root ∧ root.ns = .html) ∧
    (∀ id node, document.arena.shape.Below document.root id → id ≠ document.root →
      document.arena.get? id = some node →
        (node.isSvg ↔ ∃ up held, document.arena.shape.Below up id ∧ up ≠ document.root ∧
          document.arena.get? up = some held ∧ held.tag = "svg")) ∧
    (∀ id node, document.arena.get? id = some node → node.tag.toLower = node.tag) ∧
    ∀ spec call, Insertion spec call → document.size < UInt32.size →
      ∀ id after, call document = .ok id after →
        ∃ node parent above, after.arena.get? id = some node ∧ node.parent = some parent ∧
          after.arena.get? parent = some above ∧
          node.tag = (TagSpec.ofText spec).tag.toLower ∧
          (node.isSvg ↔ above.isSvg ∨ (TagSpec.ofText spec).tag.toLower = "svg") := by
  have hinherits := inheritsInRoom_of_reachable h hsize
  have hsound := soundInRoom_of_reachable h hsize
  refine ⟨?_, hinherits.root, ?_, ?_, ?_⟩
  · intro id node parent hnode hparent
    exact hinherits.child hnode hparent
  · intro id node hbelow hne hnode
    exact hinherits.isSvg_iff_inDrawing hsound hbelow hne hnode
  · intro id node hnode
    exact hinherits.lower hnode
  · intro spec call hcall hroom id after hrun
    exact hcall.holds hroom hrun

/-- A group inside a drawing whose tag is spelled in both cases, and a paragraph beside it, in
a document whose root has the tag `svg`; the drawing is taken out of the tree again. -/
theorem reachable_inherits_svg_detached :
    let calls : List Operation :=
      [.insert 0 "SvG.big", .insert 1 "g", .prepend 1 "p", .remove 1]
    let document := calls.foldl Operation.apply (new "svg")
    Reachable document ∧ document.size = 4 ∧
      (document.arena.nodes.toList.map fun node => (node.tag, node.isSvg, node.parent)) =
        [("svg", false, none), ("svg", true, none), ("g", true, some 1), ("p", false, some 0)] ∧
      ∀ id node parent, document.arena.get? id = some node → node.parent = some parent →
        ∃ above, document.arena.get? parent = some above ∧
          (node.isSvg ↔ above.isSvg ∨ node.tag = "svg") := by
  intro calls document
  have hreach : Reachable document := (Reachable.new "svg").foldl calls
  have hsize : document.size = 4 := (size_remove 1 _).trans rfl
  obtain ⟨hinherits, -⟩ := reachable_inherits_svg hreach (by rw [hsize]; decide)
  exact ⟨hreach, hsize, by decide +kernel, hinherits⟩

end Document

end Espalier
