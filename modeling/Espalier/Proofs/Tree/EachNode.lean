/-
What nodes have by themselves, whatever their place in the tree, their content and their
key.  A property of this kind needs a look at the changes of single nodes only; then every
node of a reached document has it, the detached ones included.
-/
import Espalier.Proofs.Tree.Reachable

namespace Espalier.Document

open Espalier.Program

variable {Q : Node → Prop} {document : Document}

/-- Every node that was ever made has a property. -/
def EachNode (Q : Node → Prop) (document : Document) : Prop :=
  ∀ node ∈ document.arena.nodes, Q node

/-- A property that new nodes have, and that neither a change of the attributes through a
text breaks nor any change of the place, the content or the key. -/
structure Innate (Q : Node → Prop) : Prop where
  placed : ∀ {node : Node} parent children content key, Q node →
    Q { node with parent, children, content, key }
  new : ∀ spec above id, Q (newNode spec above id)
  setAttributes : ∀ {node : Node} attributes, Q node → Q (node.setAttributes attributes)
  replaceStyle : ∀ {node : Node} text, Q node → Q (node.replaceStyle text)
  addClass : ∀ {node : Node} name, Q node → Q (node.addClass name)
  removeClass : ∀ {node : Node} name, Q node → Q (node.removeClass name)

theorem EachNode.get? (h : EachNode Q document) {id : NodeId} {node : Node}
    (hnode : document.arena.get? id = some node) : Q node :=
  h node (Array.mem_of_getElem? hnode)

theorem eachNode_new {rootTag : String} (h : Q { id := 0, ns := .html, tag := rootTag.toLower }) :
    EachNode Q (new rootTag) := by
  intro node hnode
  obtain rfl : node = { id := 0, ns := .html, tag := rootTag.toLower } := by
    simpa [new, Arena.addElement, Arena.add, Arena.nextId, Arena.size] using hnode
  exact h

theorem withstands_eachNode (Q : Node → Prop) :
    Withstands (fun change => ∀ node, Q node → Q (change node)) (EachNode Q) := by
  intro document change hchange h id node hnode
  obtain ⟨index, hindex⟩ := Array.mem_iff_getElem?.mp hnode
  rw [Arena.update, Array.getElem?_modify] at hindex
  split at hindex
  · obtain ⟨old, hold, rfl⟩ := Option.map_eq_some_iff.mp hindex
    exact hchange old (h old (Array.mem_of_getElem? hold))
  · exact h node (Array.mem_of_getElem? hindex)

theorem EachNode.add {make : NodeId → Node} (h : EachNode Q document) (hmake : ∀ id, Q (make id)) :
    EachNode Q { document with arena := document.arena.add make } := by
  intro node hnode
  rcases Array.mem_push.mp hnode with hold | rfl
  · exact h node hold
  · exact hmake _

namespace Innate

variable (h : Innate Q)
include h

theorem rekeyable : Rekeyable (EachNode Q) where
  update document change hchange hQ id := by
    refine withstands_eachNode Q ?_ hQ id
    intro node hnode
    obtain ⟨key, hkey⟩ := hchange node
    rw [hkey]
    exact h.placed node.parent node.children node.content key hnode
  registry _ hQ _ := hQ

theorem withstands_uproots : Withstands Uproots (EachNode Q) := by
  intro document change hchange hQ id
  refine withstands_eachNode Q ?_ hQ id
  intro node hnode
  obtain ⟨parent, children, content, heq, -⟩ := hchange node
  rw [heq]
  exact h.placed parent children content node.key hnode

theorem insertAt (parent : NodeId) (spec : String) (index : Nat) :
    Keeps (EachNode Q) (insertAt parent spec index) := by
  intro document hQ
  cases hparent : document.arena.get? parent with
  | none =>
      rw [insertAt_of_none hparent]
      exact hQ
  | some above =>
      rw [insertAt_of_some hparent]
      have hadded := hQ.add (h.new spec above)
      exact (withstands_eachNode Q).link hadded
        (fun list node hnode =>
          h.placed node.parent (list node.children) node.content node.key hnode)
        (fun parent node hnode =>
          h.placed (some parent) node.children node.content node.key hnode)
        parent document.arena.nextId index

/-- The operations that set no style directly keep a property of this kind. -/
theorem keptByText : KeptByText (EachNode Q) where
  insertAt := h.insertAt
  setAttributes node attributes :=
    (withstands_eachNode Q).edit (fun _ => h.setAttributes attributes.toList) node
  setCss node css := (withstands_eachNode Q).edit (fun _ => h.replaceStyle css) node
  addClass node name := (withstands_eachNode Q).edit (fun _ => h.addClass name) node
  removeClass node name := (withstands_eachNode Q).edit (fun _ => h.removeClass name) node
  setHtml node markup := h.withstands_uproots.edit (uproots_content (some (.html markup))) node
  setText node text := h.withstands_uproots.edit (uproots_content (some (.text text))) node
  register := h.rekeyable.register
  clear := keeps_clear h.withstands_uproots h.rekeyable.forgetKey
  remove := keeps_remove h.withstands_uproots h.rekeyable.forgetKey

/-- All operations keep a property of this kind that no directly set style breaks. -/
theorem kept (hstyle : ∀ {node : Node} entries, Q node → Q (node.assignStyle entries)) :
    Kept (EachNode Q) :=
  { h.keptByText with
    setStyle := fun node style =>
      (withstands_eachNode Q).edit (fun _ => hstyle style.toList) node }

end Innate

end Espalier.Document
