/-
How the operations of a document run, and what the operations on single nodes
keep.  An operation that addresses a missing node fails and changes nothing.
-/
import Espalier.Proofs.Program
import Espalier.Proofs.Tree.Attaching
import Espalier.Proofs.Tree.Links
import Espalier.Tree.Document

namespace Espalier

open Espalier.Program

/-! ### Changes to the attributes, the style and the content of a node -/

namespace Node

/-- A node without its attributes, its style and its content: its place in the tree
and its name in the document. -/
def stripped (node : Node) : Node :=
  { node with classes := [], properties := ∅, style := ∅, content := none }

@[simp] theorem stripped_addClass (node : Node) (name : String) :
    (node.addClass name).stripped = node.stripped := by
  rw [addClass]
  split
  · rfl
  · rfl

@[simp] theorem stripped_addClasses (node : Node) (names : List String) :
    (node.addClasses names).stripped = node.stripped := by
  rw [addClasses]
  induction names generalizing node with
  | nil => rfl
  | cons name names ih => rw [List.foldl_cons, ih, stripped_addClass]

@[simp] theorem stripped_setAttribute (node : Node) (entry : String × String) :
    (node.setAttribute entry).stripped = node.stripped := by
  obtain ⟨name, value⟩ := entry
  simp only [setAttribute]
  split
  · exact stripped_addClasses node _
  · split
    · rfl
    · rfl

@[simp] theorem stripped_setAttributes (node : Node) (attributes : List (String × String)) :
    (node.setAttributes attributes).stripped = node.stripped := by
  rw [setAttributes]
  induction attributes generalizing node with
  | nil => rfl
  | cons entry attributes ih => rw [List.foldl_cons, ih, stripped_setAttribute]

@[simp] theorem stripped_removeClass (node : Node) (name : Option String) :
    (node.removeClass name).stripped = node.stripped := by
  cases name with
  | none => rfl
  | some name => rfl

@[simp] theorem stripped_assignStyle (node : Node) (entries : List (String × String)) :
    (node.assignStyle entries).stripped = node.stripped := rfl

@[simp] theorem stripped_replaceStyle (node : Node) (text : String) :
    (node.replaceStyle text).stripped = node.stripped := rfl

@[simp] theorem stripped_content (node : Node) (content : Option Content) :
    ({ node with content } : Node).stripped = node.stripped := rfl

theorem links_of_stripped {node other : Node} (h : node.stripped = other.stripped) :
    node.links = other.links :=
  (congrArg links h :)

theorem id_of_stripped {node other : Node} (h : node.stripped = other.stripped) :
    node.id = other.id :=
  (congrArg id h :)

theorem key_of_stripped {node other : Node} (h : node.stripped = other.stripped) :
    node.key = other.key :=
  (congrArg key h :)

end Node

namespace Document

variable {document : Document}

/-! ### Runs -/

section Runs

variable {id parent : NodeId} {node above : Node}

theorem fetchM_of_some (h : document.arena.get? id = some node) :
    fetchM id document = .ok node document := by
  have hfetch : document.fetch id = .ok node := Arena.fetch_eq_ok_iff.mpr h
  rw [fetchM, bind_of_ok (get_run document), hfetch, ofExcept_ok_run]

theorem fetchM_of_none (h : document.arena.get? id = none) :
    fetchM id document = .error (.unknownNode id) document := by
  have hfetch : document.fetch id = .error (.unknownNode id) := Arena.fetch_of_none h
  rw [fetchM, bind_of_ok (get_run document), hfetch, ofExcept_error_run]

theorem edit_of_some (h : document.arena.get? id = some node) (change : Node → Node) :
    edit id change document =
      .ok id { document with arena := document.arena.update id change } := by
  rw [edit, bind_of_ok (fetchM_of_some h)]
  rfl

theorem edit_of_none (h : document.arena.get? id = none) (change : Node → Node) :
    edit id change document = .error (.unknownNode id) document := by
  rw [edit, bind_of_error (fetchM_of_none h)]

theorem create_of_some (h : document.arena.get? parent = some above) (spec : String) :
    create spec parent document = .ok document.arena.nextId
      { document with arena := document.arena.add (newNode spec above) } := by
  rw [create, bind_of_ok (fetchM_of_some h)]
  rfl

theorem create_of_none (h : document.arena.get? parent = none) (spec : String) :
    create spec parent document = .error (.unknownNode parent) document := by
  rw [create, bind_of_error (fetchM_of_none h)]

/-- Under a node that is there a new node is attached without fail. -/
theorem insertAt_of_some (h : document.arena.get? parent = some above) (spec : String)
    (index : Nat) :
    insertAt parent spec index document =
      .ok document.arena.nextId
        { document with
          arena := (document.arena.add (newNode spec above)).link parent
            document.arena.nextId index } := by
  have hchild : ((document.arena.add (newNode spec above)).get? document.arena.nextId).isSome :=
    Arena.isSome_get?_add_nextId _
  have hparent : ((document.arena.add (newNode spec above)).get? parent).isSome :=
    Arena.isSome_get?_add (Option.isSome_of_eq_some h) _
  rw [insertAt, bind_of_ok (create_of_some h spec), bind_of_ok (get_run _),
    Arena.attach_of_isSome hchild hparent, bind_of_ok (ofExcept_ok_run _ _)]
  rfl

theorem insertAt_of_none (h : document.arena.get? parent = none) (spec : String)
    (index : Nat) :
    insertAt parent spec index document = .error (.unknownNode parent) document := by
  rw [insertAt, bind_of_error (create_of_none h spec)]

theorem insert_of_some (h : document.arena.get? parent = some above) (spec : String) :
    insert parent spec document =
      .ok document.arena.nextId
        { document with
          arena := (document.arena.add (newNode spec above)).link parent
            document.arena.nextId above.children.length } := by
  rw [insert, bind_of_ok (fetchM_of_some h), insertAt_of_some h]

theorem insert_of_none (h : document.arena.get? parent = none) (spec : String) :
    insert parent spec document = .error (.unknownNode parent) document := by
  rw [insert, bind_of_error (fetchM_of_none h)]

/-- Detaching works on the arena alone. -/
theorem detach_run (id : NodeId) :
    detach id document =
      match Arena.detach id document.arena with
      | .ok parent arena => .ok parent { document with arena }
      | .error error arena => .error error { document with arena } := by
  rw [detach, bind_of_ok (get_run document), EStateM.run]
  cases Arena.detach id document.arena with
  | ok parent arena => rfl
  | error error arena => rfl

end Runs

/-! ### Changes to one node -/

/-- One node of a document becomes another, and nothing else changes. -/
structure Alters (id : NodeId) (node : Node) (before after : Document) : Prop where
  size : after.size = before.size
  root : after.root = before.root
  registry : after.registry = before.registry
  nodes : ∀ other, after.arena.get? other =
    if other = id then some node else before.arena.get? other

theorem alters_update {id : NodeId} {node : Node} (h : document.arena.get? id = some node)
    (change : Node → Node) :
    Alters id (change node) document
      { document with arena := document.arena.update id change } := by
  refine ⟨Arena.size_update _ _ _, rfl, rfl, ?_⟩
  intro other
  rw [Arena.get?_update]
  by_cases hother : other = id
  · subst hother
    simp [h]
  · rw [if_neg (Ne.symm hother), if_neg hother]

/-- Changes of one node, made by one call for each, are one change. -/
theorem forM_edit_run {α : Type} {id : NodeId} {node : Node} {call : α → DocumentM NodeId}
    {step : Node → α → Node} (hcall : ∀ item, call item = edit id (step · item))
    (h : document.arena.get? id = some node) (items : List α) :
    (do items.forM fun item => do let _ ← call item : DocumentM Unit) document =
      .ok () { document with
        arena := document.arena.update id fun node => items.foldl step node } := by
  induction items generalizing document node with
  | nil =>
      have hsame : document.arena.update id (fun node => [].foldl step node) = document.arena :=
        Arena.update_eq_self fun _ _ => rfl
      rw [hsame]
      rfl
  | cons item items ih =>
      have hfirst : call item document = .ok id
          { document with arena := document.arena.update id (step · item) } := by
        rw [hcall, edit_of_some h]
      have hnode := (alters_update h (step · item)).nodes id
      rw [if_pos rfl] at hnode
      have hrest := ih hnode
      rw [Arena.update_update] at hrest
      rw [List.forM_eq_forM] at hrest ⊢
      rw [List.forM_cons, bind_assoc, bind_of_ok hfirst]
      exact hrest

/-! ### What the operations on single nodes keep -/

/-- Two documents hold the same tree, whatever their nodes say beyond the links. -/
structure SameTree (before after : Document) : Prop where
  shape : after.arena.shape = before.arena.shape
  size : after.size = before.size
  root : after.root = before.root

theorem SameTree.refl (document : Document) : SameTree document document :=
  ⟨rfl, rfl, rfl⟩

theorem SameTree.trans {first second third : Document} (h : SameTree first second)
    (h' : SameTree second third) : SameTree first third :=
  ⟨h'.shape.trans h.shape, h'.size.trans h.size, h'.root.trans h.root⟩

theorem SameTree.isSome_get?_iff {before after : Document} (h : SameTree before after)
    (id : NodeId) : (after.arena.get? id).isSome ↔ (before.arena.get? id).isSome := by
  rw [← Arena.isSome_shape_iff, h.shape, Arena.isSome_shape_iff]

theorem sameTree_update {change : Node → Node}
    (h : ∀ node : Node, (change node).links = node.links) (document : Document)
    (id : NodeId) :
    SameTree document { document with arena := document.arena.update id change } :=
  ⟨Arena.shape_update_of_links h _ _, Arena.size_update _ _ _, rfl⟩

theorem sameTree_registry (document : Document) (registry : Registry) :
    SameTree document { document with registry } :=
  ⟨rfl, rfl, rfl⟩

/-- A property that no change of the registry breaks, and no change of a node that
leaves its links alone. -/
structure Structural (P : Document → Prop) : Prop where
  update : ∀ ⦃document : Document⦄ ⦃change : Node → Node⦄,
    (∀ node : Node, (change node).links = node.links) → P document →
      ∀ id, P { document with arena := document.arena.update id change }
  registry : ∀ ⦃document : Document⦄, P document →
    ∀ registry, P { document with registry }

/-- A property that only looks at the tree. -/
theorem Structural.of_sameTree {P : Document → Prop}
    (h : ∀ ⦃before after : Document⦄, SameTree before after → P before → P after) :
    Structural P where
  update document _ hlinks hP id := h (sameTree_update hlinks document id) hP
  registry document hP registry := h (sameTree_registry document registry) hP

theorem keeps_fetchM {P : Document → Prop} (id : NodeId) : Keeps P (fetchM id) := by
  rw [fetchM]
  refine Keeps.get.bind ?_
  intro document
  exact Keeps.ofExcept (document.fetch id)

/-- A property that holds as long as every node has an id of its own is kept by an insertion
as soon as a new node that gets one keeps it. -/
theorem keeps_insertAt_inRoom {P : Document → Prop} {parent : NodeId} {spec : String} {index : Nat}
    (hgrow : ∀ ⦃document : Document⦄ ⦃above : Node⦄, document.size < UInt32.size →
      document.arena.get? parent = some above → P document →
        P { document with
          arena := (document.arena.add (newNode spec above)).link parent
            document.arena.nextId index }) :
    Keeps (fun document => document.size ≤ UInt32.size → P document)
      (insertAt parent spec index) := by
  intro document h
  cases hparent : document.arena.get? parent with
  | none =>
      rw [insertAt_of_none hparent]
      exact h
  | some above =>
      rw [insertAt_of_some hparent]
      intro hroom
      have hgrown : document.size + 1 ≤ UInt32.size := by
        simpa [stateAfter, Document.size] using hroom
      have hsize := Nat.lt_of_succ_le hgrown
      exact hgrow hsize hparent (h (Nat.le_of_lt hsize))

/-- A property that no change of a class breaks when it is made to one node. -/
def Withstands (Allowed : (Node → Node) → Prop) (P : Document → Prop) : Prop :=
  ∀ ⦃document : Document⦄ ⦃change : Node → Node⦄, Allowed change → P document →
    ∀ id, P { document with arena := document.arena.update id change }

section Withstands

variable {Allowed : (Node → Node) → Prop} {P : Document → Prop} (h : Withstands Allowed P)
  {change : Node → Node} (hchange : Allowed change)
include h hchange

theorem Withstands.updateM (id : NodeId) : Keeps P (updateM id change) := by
  rw [Document.updateM]
  apply Keeps.modify
  intro document hP
  exact h hchange hP id

theorem Withstands.edit (id : NodeId) : Keeps P (edit id change) := by
  rw [Document.edit]
  refine (keeps_fetchM id).bind ?_
  intro _
  exact (h.updateM hchange id).bind fun _ => Keeps.pure id

omit hchange in
/-- Linking a node under another is a change of each of the two. -/
theorem Withstands.link {document : Document} (hP : P document)
    (hlist : ∀ list : List NodeId → List NodeId,
      Allowed fun node => { node with children := list node.children })
    (hadopt : ∀ parent : NodeId, Allowed ({ · with parent := some parent }))
    (parent child : NodeId) (index : Nat) :
    P { document with arena := document.arena.link parent child index } := by
  have hlisted := h (hlist fun children => children.insertIdx (min index children.length) child)
    hP parent
  exact h (hadopt parent) hlisted child

end Withstands

/-! ### What the operations on keys keep -/

/-- A change of nothing but the key. -/
def Rekeys (change : Node → Node) : Prop :=
  ∀ node, ∃ key, change node = { node with key }

theorem rekeys_key (key : Option String) : Rekeys fun node => { node with key } :=
  fun _ => ⟨key, rfl⟩

theorem rekeys_loseKey (key : String) : Rekeys (·.loseKey key) := by
  intro node
  simp only [Node.loseKey]
  split
  · exact ⟨none, rfl⟩
  · exact ⟨node.key, rfl⟩

/-- A property that no change of the registry breaks, and no change of the key of a
node. -/
structure Rekeyable (P : Document → Prop) : Prop where
  update : Withstands Rekeys P
  registry : ∀ ⦃document : Document⦄, P document →
    ∀ registry, P { document with registry }

section Rekeyable

variable {P : Document → Prop} (h : Rekeyable P)
include h

theorem Rekeyable.register (node : NodeId) (key : String) : Keeps P (register node key) := by
  rw [Document.register]
  refine (keeps_fetchM node).bind ?_
  intro _
  refine Keeps.get.bind ?_
  intro document
  have hlast := h.update.edit (rekeys_key (some key)) node
  refine Keeps.bind ?_ ?_
  · apply Keeps.modify
    intro document hP
    exact h.registry hP _
  intro _
  dsimp only
  split
  · exact hlast
  · next old _ =>
      split
      · exact (h.update.updateM (rekeys_loseKey key) old).bind fun _ => hlast
      · exact hlast

theorem Rekeyable.forgetKey (node : NodeId) : Keeps P (forgetKey node) := by
  rw [Document.forgetKey]
  refine (keeps_fetchM node).bind ?_
  intro held
  split
  · exact Keeps.pure ()
  · next key _ =>
      refine (h.update.updateM (rekeys_key none) node).bind ?_
      intro _
      refine Keeps.get.bind ?_
      intro document
      split
      · apply Keeps.modify
        intro document hP
        exact h.registry hP _
      · exact Keeps.pure ()

end Rekeyable

section Structural

variable {P : Document → Prop} (hstruct : Structural P)
include hstruct

theorem Structural.withstands :
    Withstands (fun change => ∀ node : Node, (change node).links = node.links) P :=
  fun _ _ hlinks hP id => hstruct.update hlinks hP id

theorem Structural.rekeyable : Rekeyable P where
  update document change hchange hP id := by
    refine hstruct.update ?_ hP id
    intro node
    obtain ⟨key, heq⟩ := hchange node
    rw [heq]
    rfl
  registry := hstruct.registry

theorem Structural.register (node : NodeId) (key : String) :
    Keeps P (register node key) :=
  hstruct.rekeyable.register node key

theorem Structural.forgetKey (node : NodeId) : Keeps P (forgetKey node) :=
  hstruct.rekeyable.forgetKey node

end Structural

/-! ### What the removals keep -/

/-- A node that is left of another one: it may have lost its parent, its children and what
it holds, but neither its identity nor its tag. -/
structure Trimmed (before after : Node) : Prop where
  id_eq : after.id = before.id
  key_eq : after.key = before.key
  ns_eq : after.ns = before.ns
  tag_eq : after.tag = before.tag
  parent_eq : after.parent = before.parent ∨ after.parent = none

theorem trimmed_of_stripped {before after : Node} (h : after.stripped = before.stripped) :
    Trimmed before after where
  id_eq := Node.id_of_stripped h
  key_eq := Node.key_of_stripped h
  ns_eq := (congrArg Node.ns h :)
  tag_eq := (congrArg Node.tag h :)
  parent_eq := .inl (congrArg Node.parent h :)

/-- A change that leaves the identity and the tag of a node, and gives it no new
parent. -/
def Trims (change : Node → Node) : Prop :=
  ∀ node, Trimmed node (change node)

theorem trims_of_stripped {change : Node → Node}
    (h : ∀ node : Node, (change node).stripped = node.stripped) : Trims change :=
  fun node => trimmed_of_stripped (h node)

/-- A change of nothing but the place and the content of a node, which gets no new
parent. -/
def Uproots (change : Node → Node) : Prop :=
  ∀ node, ∃ parent children content,
    change node = { node with parent, children, content } ∧
      (parent = node.parent ∨ parent = none)

theorem Uproots.trims {change : Node → Node} (h : Uproots change) : Trims change := by
  intro node
  obtain ⟨parent, children, content, heq, hparent⟩ := h node
  rw [heq]
  exact ⟨rfl, rfl, rfl, rfl, hparent⟩

theorem uproots_parent : Uproots ({ · with parent := none }) :=
  fun node => ⟨none, node.children, node.content, rfl, .inr rfl⟩

theorem uproots_children (change : List NodeId → List NodeId) :
    Uproots fun node => { node with children := change node.children } :=
  fun node => ⟨node.parent, change node.children, node.content, rfl, .inl rfl⟩

theorem uproots_content (content : Option Content) : Uproots ({ · with content }) :=
  fun node => ⟨node.parent, node.children, content, rfl, .inl rfl⟩

theorem Withstands.uproots {P : Document → Prop} (h : Withstands Trims P) :
    Withstands Uproots P :=
  fun _ _ hchange hP id => h hchange.trims hP id

section Uproots

variable {P : Document → Prop} (huproots : Withstands Uproots P)
include huproots

theorem keeps_arena_detach (document : Document) (node : NodeId) :
    Keeps (fun arena => P { document with arena }) (Arena.detach node) := by
  rw [Arena.detach]
  refine Keeps.get.bind ?_
  intro arena
  refine (Keeps.ofExcept _).bind ?_
  intro held
  split
  · exact Keeps.pure none
  · next parent _ =>
      refine Keeps.bind ?_ ?_
      · apply Keeps.modify
        intro arena hP
        exact huproots uproots_parent hP node
      intro _
      refine Keeps.get.bind ?_
      intro arena
      refine (Keeps.ofExcept _).bind ?_
      intro above
      refine Keeps.bind ?_ ?_
      · apply Keeps.modify
        intro arena hP
        exact huproots (uproots_children (·.filter (· != node))) hP parent
      intro _
      exact Keeps.pure (some parent)

theorem keeps_detach (node : NodeId) : Keeps P (detach node) := by
  intro document hP
  have hafter := keeps_arena_detach huproots document node document.arena hP
  rw [detach_run]
  cases hrun : Arena.detach node document.arena with
  | ok parent arena =>
      rw [hrun] at hafter
      exact hafter
  | error error arena =>
      rw [hrun] at hafter
      exact hafter

variable (hforget : ∀ node, Keeps P (forgetKey node))

omit huproots in
include hforget in
theorem keeps_forgetKeys (start : NodeId) : Keeps P (forgetKeys start) := by
  rw [forgetKeys]
  refine Keeps.get.bind ?_
  intro document
  refine (Keeps.ofExcept _).bind ?_
  intro holders
  exact Keeps.forM hforget holders

include hforget

theorem keeps_drop (child : NodeId) : Keeps P (drop child) := by
  rw [drop]
  refine (keeps_fetchM child).bind ?_
  intro _
  exact (huproots.updateM uproots_parent child).bind fun _ => keeps_forgetKeys hforget child

theorem keeps_clear (node : NodeId) : Keeps P (clear node) := by
  rw [clear]
  refine (keeps_fetchM node).bind ?_
  intro held
  have hempty : Keeps P (updateM node ({ · with children := [] })) :=
    huproots.updateM (uproots_children fun _ => []) node
  have hdrops : Keeps P (held.children.forM drop) :=
    Keeps.forM (keeps_drop huproots hforget) held.children
  have hblank : Keeps P (setHtml node "") :=
    huproots.edit (uproots_content (some (.html ""))) node
  exact hempty.bind fun _ => hdrops.bind fun _ => hblank

theorem keeps_remove (node : NodeId) : Keeps P (remove node) := by
  rw [remove]
  refine Keeps.get.bind ?_
  intro document
  have hrest : Keeps P (do
      let _ ← detach node
      forgetKeys node) :=
    (keeps_detach huproots node).bind fun _ => keeps_forgetKeys hforget node
  dsimp only
  split
  · exact (Keeps.throw _).bind fun _ => hrest
  · exact hrest

end Uproots

/-- A property that no change of a node breaks, as long as the node keeps its id and
its key. -/
def UpdateProof (P : Document → Prop) : Prop :=
  ∀ ⦃document : Document⦄ ⦃change : Node → Node⦄,
    (∀ node : Node, (change node).id = node.id) →
    (∀ node : Node, (change node).key = node.key) → P document →
      ∀ id, P { document with arena := document.arena.update id change }

section UpdateProof

variable {P : Document → Prop} (hupdate : UpdateProof P)
include hupdate

theorem UpdateProof.withstands_trims : Withstands Trims P :=
  fun _ _ hchange hP id =>
    hupdate (fun node => (hchange node).id_eq) (fun node => (hchange node).key_eq) hP id

theorem UpdateProof.link {document : Document} (hP : P document) (parent child : NodeId)
    (index : Nat) : P { document with arena := document.arena.link parent child index } := by
  have hwithstands : Withstands (fun change : Node → Node =>
      (∀ node, (change node).id = node.id) ∧ ∀ node, (change node).key = node.key) P :=
    fun _ _ hchange hP id => hupdate hchange.1 hchange.2 hP id
  exact hwithstands.link hP (fun _ => ⟨fun _ => rfl, fun _ => rfl⟩)
    (fun _ => ⟨fun _ => rfl, fun _ => rfl⟩) parent child index

end UpdateProof

end Document

end Espalier
