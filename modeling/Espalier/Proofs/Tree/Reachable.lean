/-
The documents that can be reached: a new document, and what any operation makes
of a reached one, whether it succeeds or fails.  What a new document has and the
parts of the operations keep, every reached document has.
-/
import Espalier.Markup.Parse
import Espalier.Proofs.Markup.Keeping
import Espalier.Proofs.Tree.Operations

namespace Espalier

open Espalier.Program

/-- A call that may change a document. -/
inductive Operation where
  | insert (parent : NodeId) (spec : String)
  | insertWith (parent : NodeId) (spec : String) (attributes : Attributes)
  | append (node : NodeId) (spec : String)
  | prepend (node : NodeId) (spec : String)
  | setAttributes (node : NodeId) (attributes : Attributes)
  | setStyle (node : NodeId) (style : Attributes)
  | setCss (node : NodeId) (css : String)
  | addClass (node : NodeId) (name : String)
  | removeClass (node : NodeId) (name : Option String)
  | setHtml (node : NodeId) (markup : String)
  | setText (node : NodeId) (text : String)
  | register (node : NodeId) (key : String)
  | clear (node : NodeId)
  | remove (node : NodeId)
  | parse (settings : Markup.Settings) (parent : NodeId) (text : String)
  | parseHeader (settings : Markup.Settings) (parent : NodeId) (text : String)

/-- The document after a call, also after one that fails. -/
def Operation.apply (document : Document) : Operation → Document
  | insert parent spec => stateAfter (Document.insert parent spec document)
  | insertWith parent spec attributes =>
      stateAfter (Document.insertWith parent spec attributes document)
  | append node spec => stateAfter (Document.append node spec document)
  | prepend node spec => stateAfter (Document.prepend node spec document)
  | setAttributes node attributes =>
      stateAfter (Document.setAttributes node attributes document)
  | setStyle node style => stateAfter (Document.setStyle node style document)
  | setCss node css => stateAfter (Document.setCss node css document)
  | addClass node name => stateAfter (Document.addClass node name document)
  | removeClass node name => stateAfter (Document.removeClass node name document)
  | setHtml node markup => stateAfter (Document.setHtml node markup document)
  | setText node text => stateAfter (Document.setText node text document)
  | register node key => stateAfter (Document.register node key document)
  | clear node => stateAfter (Document.clear node document)
  | remove node => stateAfter (Document.remove node document)
  | parse settings parent text =>
      stateAfter (Markup.parse Document.sink settings parent text document)
  | parseHeader settings parent text =>
      stateAfter (Markup.parseHeader Document.sink settings parent text document)

/-- The call overwrites style properties as they are given, and not by a style list. -/
def Operation.StylesDirectly : Operation → Prop
  | setStyle _ _ => True
  | _ => False

namespace Document

/-- The documents that calls lead to. -/
inductive Reachable : Document → Prop where
  | new (rootTag : String) : Reachable (new rootTag)
  | step {document : Document} (h : Reachable document) (operation : Operation) :
      Reachable (operation.apply document)

theorem Reachable.foldl {document : Document} (h : Reachable document) (calls : List Operation) :
    Reachable (calls.foldl Operation.apply document) := by
  induction calls generalizing document with
  | nil => exact h
  | cons call calls ih => exact ih (h.step call)

/-- The documents that calls of a kind lead to. -/
inductive ReachableBy (allowed : Operation → Prop) : Document → Prop where
  | new (rootTag : String) : ReachableBy allowed (new rootTag)
  | step {document : Document} (h : ReachableBy allowed document) {operation : Operation}
      (hcall : allowed operation) : ReachableBy allowed (operation.apply document)

theorem ReachableBy.foldl {allowed : Operation → Prop} {document : Document}
    (h : ReachableBy allowed document) {calls : List Operation}
    (hcalls : ∀ call ∈ calls, allowed call) :
    ReachableBy allowed (calls.foldl Operation.apply document) := by
  induction calls generalizing document with
  | nil => exact h
  | cons call calls ih =>
      rw [List.forall_mem_cons] at hcalls
      exact ih (h.step hcalls.1) hcalls.2

/-- The parts that all operations are made of keep a property. -/
structure Kept (P : Document → Prop) : Prop where
  insertAt : ∀ parent spec index, Keeps P (insertAt parent spec index)
  setAttributes : ∀ node attributes, Keeps P (setAttributes node attributes)
  setStyle : ∀ node style, Keeps P (setStyle node style)
  setCss : ∀ node css, Keeps P (setCss node css)
  addClass : ∀ node name, Keeps P (addClass node name)
  removeClass : ∀ node name, Keeps P (removeClass node name)
  setHtml : ∀ node markup, Keeps P (setHtml node markup)
  setText : ∀ node text, Keeps P (setText node text)
  register : ∀ node key, Keeps P (register node key)
  clear : ∀ node, Keeps P (clear node)
  remove : ∀ node, Keeps P (remove node)

/-- The parts that the operations are made of keep a property, the direct setting of a style
apart. -/
structure KeptByText (P : Document → Prop) : Prop where
  insertAt : ∀ parent spec index, Keeps P (insertAt parent spec index)
  setAttributes : ∀ node attributes, Keeps P (setAttributes node attributes)
  setCss : ∀ node css, Keeps P (setCss node css)
  addClass : ∀ node name, Keeps P (addClass node name)
  removeClass : ∀ node name, Keeps P (removeClass node name)
  setHtml : ∀ node markup, Keeps P (setHtml node markup)
  setText : ∀ node text, Keeps P (setText node text)
  register : ∀ node key, Keeps P (register node key)
  clear : ∀ node, Keeps P (clear node)
  remove : ∀ node, Keeps P (remove node)

namespace KeptByText

variable {P : Document → Prop}

theorem insert (h : KeptByText P) (parent : NodeId) (spec : String) :
    Keeps P (insert parent spec) := by
  rw [Document.insert]
  refine (keeps_fetchM parent).bind ?_
  intro above
  exact h.insertAt parent spec _

theorem position (node : NodeId) : Keeps P (position node) := by
  rw [Document.position]
  refine Keeps.get.bind ?_
  intro document
  refine (Keeps.ofExcept _).bind ?_
  intro place
  split
  · exact Keeps.pure _
  · exact Keeps.throw _

theorem keeping_sink (h : KeptByText P) : sink.Keeping P where
  insert := h.insert
  set node attributes := (h.setAttributes node attributes).bind fun _ => Keeps.pure ()
  html node markup := (h.setHtml node markup).bind fun _ => Keeps.pure ()
  register key node := (h.register node key).bind fun _ => Keeps.pure ()

/-- One call that sets no style directly keeps what the parts keep. -/
theorem apply (h : KeptByText P) {document : Document} (hdocument : P document)
    {operation : Operation} (hcall : ¬ operation.StylesDirectly) :
    P (operation.apply document) := by
  cases operation with
  | insert parent spec => exact h.insert parent spec document hdocument
  | insertWith parent spec attributes =>
      have hkeeps : Keeps P (insertWith parent spec attributes) :=
        (h.insert parent spec).bind fun id => h.setAttributes id attributes
      exact hkeeps document hdocument
  | append node spec =>
      have hkeeps : Keeps P (append node spec) :=
        (position node).bind fun place => h.insertAt place.1 spec (place.2 + 1)
      exact hkeeps document hdocument
  | prepend node spec =>
      have hkeeps : Keeps P (prepend node spec) :=
        (position node).bind fun place => h.insertAt place.1 spec place.2
      exact hkeeps document hdocument
  | setAttributes node attributes => exact h.setAttributes node attributes document hdocument
  | setStyle node style => exact absurd trivial hcall
  | setCss node css => exact h.setCss node css document hdocument
  | addClass node name => exact h.addClass node name document hdocument
  | removeClass node name => exact h.removeClass node name document hdocument
  | setHtml node markup => exact h.setHtml node markup document hdocument
  | setText node text => exact h.setText node text document hdocument
  | register node key => exact h.register node key document hdocument
  | clear node => exact h.clear node document hdocument
  | remove node => exact h.remove node document hdocument
  | parse settings parent text =>
      exact Markup.keeps_parse h.keeping_sink settings parent text document hdocument
  | parseHeader settings parent text =>
      exact Markup.keeps_parseHeader h.keeping_sink settings parent text document hdocument

theorem of_reachableBy (h : KeptByText P) (hnew : ∀ rootTag, P (new rootTag))
    {document : Document} (hreach : ReachableBy (¬ ·.StylesDirectly) document) :
    P document := by
  induction hreach with
  | new rootTag => exact hnew rootTag
  | step _ hcall ih => exact h.apply ih hcall

end KeptByText

namespace Kept

variable {P : Document → Prop}

theorem byText (h : Kept P) : KeptByText P where
  insertAt := h.insertAt
  setAttributes := h.setAttributes
  setCss := h.setCss
  addClass := h.addClass
  removeClass := h.removeClass
  setHtml := h.setHtml
  setText := h.setText
  register := h.register
  clear := h.clear
  remove := h.remove

/-- One call keeps what the parts of the operations keep. -/
theorem apply (h : Kept P) {document : Document} (hdocument : P document)
    (operation : Operation) : P (operation.apply document) := by
  by_cases hcall : operation.StylesDirectly
  · cases operation with
    | setStyle node style => exact h.setStyle node style document hdocument
    | _ => exact hcall.elim
  · exact h.byText.apply hdocument hcall

/-- Every reached document has what a new one has and the parts keep. -/
theorem of_reachable (h : Kept P) (hnew : ∀ rootTag, P (new rootTag)) {document : Document}
    (hreach : Reachable document) : P document := by
  induction hreach with
  | new rootTag => exact hnew rootTag
  | step _ operation ih => exact h.apply ih operation

end Kept

variable {P : Document → Prop}

/-- The operations that edit the attributes, the style or the content of a node are
one operation as long as only its place and its name count. -/
theorem kept_of_edit
    (hedit : ∀ ⦃change : Node → Node⦄, (∀ node : Node, (change node).stripped = node.stripped) →
      ∀ id, Keeps P (edit id change))
    (hinsert : ∀ parent spec index, Keeps P (insertAt parent spec index))
    (hregister : ∀ node key, Keeps P (register node key))
    (hclear : ∀ node, Keeps P (clear node)) (hremove : ∀ node, Keeps P (remove node)) :
    Kept P where
  insertAt := hinsert
  setAttributes node _ := hedit (fun held => held.stripped_setAttributes _) node
  setStyle node _ := hedit (fun held => held.stripped_assignStyle _) node
  setCss node css := hedit (fun held => held.stripped_replaceStyle css) node
  addClass node name := hedit (fun held => held.stripped_addClass name) node
  removeClass node name := hedit (fun held => held.stripped_removeClass name) node
  setHtml node markup := hedit (fun held => held.stripped_content (some (.html markup))) node
  setText node text := hedit (fun held => held.stripped_content (some (.text text))) node
  register := hregister
  clear := hclear
  remove := hremove

/-- A property that no loss of links breaks is kept as soon as new nodes and the changes of
keys keep it. -/
theorem kept_of_trims (htrims : Withstands Trims P)
    (hinsert : ∀ parent spec index, Keeps P (insertAt parent spec index))
    (hregister : ∀ node key, Keeps P (register node key))
    (hforget : ∀ node, Keeps P (forgetKey node)) : Kept P :=
  kept_of_edit (fun _ hchange => htrims.edit (trims_of_stripped hchange)) hinsert hregister
    (keeps_clear htrims.uproots hforget) (keeps_remove htrims.uproots hforget)

/-- A property that only looks at the tree is kept as soon as the operations that
change the tree keep it. -/
theorem Structural.kept (hstruct : Structural P)
    (hinsert : ∀ parent spec index, Keeps P (insertAt parent spec index))
    (hclear : ∀ node, Keeps P (clear node)) (hremove : ∀ node, Keeps P (remove node)) :
    Kept P := by
  refine kept_of_edit ?_ hinsert hstruct.register hclear hremove
  intro change h
  exact hstruct.withstands.edit fun node => Node.links_of_stripped (h node)

/-- A property that looks at nothing but the ids and the keys of the nodes and at the
registry. -/
structure Stable (P : Document → Prop) : Prop where
  update : UpdateProof P
  add : ∀ ⦃document : Document⦄ ⦃make : NodeId → Node⦄, (∀ id, (make id).id = id) →
    (∀ id, (make id).key = none) → P document →
      P { document with arena := document.arena.add make }
  register : ∀ node key, Keeps P (register node key)
  forgetKey : ∀ node, Keeps P (forgetKey node)

theorem stripped_newNode (spec : String) (above : Node) (id : NodeId) :
    ∃ tag ns, (newNode spec above id).stripped = ({ id, ns, tag } : Node).stripped :=
  ⟨_, _, Node.stripped_addClasses _ _⟩

theorem Stable.insertAt (h : Stable P) (parent : NodeId) (spec : String) (index : Nat) :
    Keeps P (insertAt parent spec index) := by
  intro document hP
  cases hparent : document.arena.get? parent with
  | none =>
      rw [insertAt_of_none hparent]
      exact hP
  | some above =>
      have hid : ∀ id, (newNode spec above id).id = id := by
        intro id
        obtain ⟨tag, ns, hnew⟩ := stripped_newNode spec above id
        exact Node.id_of_stripped hnew
      have hkey : ∀ id, (newNode spec above id).key = none := by
        intro id
        obtain ⟨tag, ns, hnew⟩ := stripped_newNode spec above id
        exact Node.key_of_stripped hnew
      rw [insertAt_of_some hparent]
      exact h.update.link (h.add hid hkey hP) parent document.arena.nextId index

/-- The operations keep a property that looks at nothing but ids and keys. -/
theorem Stable.kept (h : Stable P) : Kept P :=
  kept_of_trims h.update.withstands_trims h.insertAt h.register h.forgetKey

end Document

end Espalier
