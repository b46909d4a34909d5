/-
The form in which nodes are kept.  Tags, classes and properties come in as texts: through
specifications, through attributes and through markup.  Whichever way they came, and however
often, a tag is in lower case, a node has no class twice and none without a name, and what
attributes say of the classes and the style is not among the properties.
-/
import Espalier.Proofs.Tree.EachNode
import Espalier.Proofs.Tree.Insertion

namespace Espalier

open Espalier.Program

/-! ### Lower case -/

/-- A text in lower case has no upper-case letters. -/
theorem not_isUpper_of_mem_toLower {text : String} {c : Char} (h : c ∈ text.toLower.toList) :
    ¬ c.isUpper := by
  have hlower := Markup.toLower_ofList text.toList
  rw [String.ofList_toList] at hlower
  rw [hlower, String.toList_ofList] at h
  obtain ⟨letter, -, rfl⟩ := List.mem_map.mp h
  by_cases hupper : letter.isUpper
  · exact not_isUpper_of_isLower (isLower_toLower hupper)
  · rw [toLower_of_not_isUpper hupper]
    exact hupper

/-- Lower case makes no dots. -/
theorem eq_dot_of_toLower {c : Char} (h : c.toLower = '.') : c = '.' := by
  by_cases hupper : c.isUpper
  · have hlower := isLower_toLower hupper
    rw [h] at hlower
    contradiction
  · rw [← toLower_of_not_isUpper hupper, h]

/-! ### One node -/

namespace Node

/-- The form of a node's tag, of its classes and of the names of its properties. -/
structure Normal (node : Node) : Prop where
  tag_lower : ∀ c ∈ node.tag.toList, ¬ c.isUpper
  classes_nodup : node.classes.Nodup
  classes_named : "" ∉ node.classes
  no_class : node.property? "class" = none
  no_style : node.property? "style" = none

namespace Normal

variable {node : Node} (h : node.Normal)
include h

theorem addClass (name : String) : (node.addClass name).Normal := by
  rw [Node.addClass]
  split
  · next hlacks =>
      have hnew : name ≠ "" ∧ name ∉ node.classes := by
        simpa [lacksClass, hasClass] using hlacks
      have hnodup : (node.classes ++ [name]).Nodup :=
        List.nodup_append_comm.mp (List.nodup_cons.mpr ⟨hnew.2, h.classes_nodup⟩)
      refine { h with classes_nodup := hnodup, classes_named := ?_ }
      simpa [Ne.symm hnew.1] using h.classes_named
  · exact h

theorem addClasses (names : List String) : (node.addClasses names).Normal := by
  rw [Node.addClasses]
  induction names generalizing node with
  | nil => exact h
  | cons name names ih => exact ih (h.addClass name)

theorem removeClass (name : Option String) : (node.removeClass name).Normal := by
  cases name with
  | none => exact { h with classes_nodup := List.nodup_nil, classes_named := List.not_mem_nil }
  | some name =>
      refine { h with classes_nodup := h.classes_nodup.filter _, classes_named := ?_ }
      exact fun hmem => h.classes_named (List.mem_filter.mp hmem).1

theorem setAttribute (entry : String × String) : (node.setAttribute entry).Normal := by
  obtain ⟨name, value⟩ := entry
  simp only [Node.setAttribute]
  split
  · exact h.addClasses (classList value)
  · next hclass =>
      split
      · exact { h with }
      · next hstyle =>
          refine { h with no_class := ?_, no_style := ?_ }
          · rw [property?, Std.ExtTreeMap.getElem?_insert, if_neg (by simpa using hclass)]
            exact h.no_class
          · rw [property?, Std.ExtTreeMap.getElem?_insert, if_neg (by simpa using hstyle)]
            exact h.no_style

theorem setAttributes (entries : List (String × String)) : (node.setAttributes entries).Normal := by
  rw [Node.setAttributes]
  induction entries generalizing node with
  | nil => exact h
  | cons entry entries ih => exact ih (h.setAttribute entry)

end Normal

/-- A node that has nothing but a tag in lower case. -/
theorem normal_bare (id : NodeId) (ns : Namespace) (tag : String) :
    ({ id, ns, tag := tag.toLower } : Node).Normal where
  tag_lower _ hc := not_isUpper_of_mem_toLower hc
  classes_nodup := List.nodup_nil
  classes_named := List.not_mem_nil
  no_class := Std.ExtTreeMap.getElem?_empty
  no_style := Std.ExtTreeMap.getElem?_empty

end Node

namespace Document

variable {document : Document}

/-! ### All nodes -/

theorem innate_normal : Innate Node.Normal where
  placed _ _ _ _ h := { h with }
  new spec _ id := (Node.normal_bare id _ _).addClasses (TagSpec.ofText spec).classes
  setAttributes entries h := h.setAttributes entries
  replaceStyle _ h := { h with }
  addClass name h := h.addClass name
  removeClass name h := h.removeClass name

theorem normal_of_reachable (h : Reachable document) : EachNode Node.Normal document := by
  have hstyle : ∀ {node : Node} (entries : List (String × String)), node.Normal →
      (node.assignStyle entries).Normal := fun _ hnode => { hnode with }
  exact (innate_normal.kept hstyle).of_reachable
    (fun rootTag => eachNode_new (Node.normal_bare 0 .html rootTag)) h

/-! ### All nodes but the root -/

/-- No tag but the root's has a dot. -/
def DotFree (document : Document) : Prop :=
  ∀ index node, document.arena.nodes[index]? = some node → index ≠ document.root.toNat →
    '.' ∉ node.tag.toList

theorem withstands_dotFree :
    Withstands (fun change => ∀ node, (change node).tag = node.tag) DotFree := by
  intro document change htag h id index node hnode hother
  rw [Arena.update, Array.getElem?_modify] at hnode
  split at hnode
  · obtain ⟨old, hold, rfl⟩ := Option.map_eq_some_iff.mp hnode
    rw [htag]
    exact h index old hold hother
  · exact h index node hnode hother

theorem rekeyable_dotFree : Rekeyable DotFree where
  update document change hchange h id := by
    refine withstands_dotFree ?_ h id
    intro node
    obtain ⟨key, hkey⟩ := hchange node
    rw [hkey]
  registry _ h _ := h

/-- What a specification says of the tag ends in front of its first dot. -/
theorem dot_not_mem_tag (spec : String) (above : Node) (id : NodeId) :
    '.' ∉ (newNode spec above id).tag.toList := by
  obtain ⟨name, tokens, -, hfree, htag, -⟩ := describes_ofText spec
  rw [tag_newNode, htag, Markup.toLower_ofList, String.toList_ofList]
  intro hdot
  obtain ⟨c, hc, hlower⟩ := List.mem_map.mp hdot
  rw [eq_dot_of_toLower hlower] at hc
  exact hfree name List.mem_cons_self hc

theorem dotFree_insertAt (parent : NodeId) (spec : String) (index : Nat) :
    Keeps DotFree (insertAt parent spec index) := by
  intro document h
  cases hparent : document.arena.get? parent with
  | none =>
      rw [insertAt_of_none hparent]
      exact h
  | some above =>
      rw [insertAt_of_some hparent]
      have hadded : DotFree
          { document with arena := document.arena.add (newNode spec above) } := by
        intro place node hnode hother
        rw [Arena.add, Array.getElem?_push] at hnode
        split at hnode
        · obtain rfl := Option.some.inj hnode
          exact dot_not_mem_tag spec above _
        · exact h place node hnode hother
      exact withstands_dotFree.link hadded (fun _ _ => rfl) (fun _ _ => rfl) parent _ index

theorem dotFree_new (rootTag : String) : (new rootTag).DotFree := by
  intro index node hnode hother
  have hroot : (new rootTag).root.toNat = 0 := rfl
  have hnodes : (new rootTag).arena.nodes = #[{ id := 0, ns := .html, tag := rootTag.toLower }] :=
    rfl
  rw [hnodes, Array.getElem?_singleton, if_neg (hroot ▸ hother)] at hnode
  contradiction

theorem dotFree_of_reachable (h : Reachable document) : document.DotFree := by
  have htrims : Withstands Trims DotFree := fun _ _ hchange h id =>
    withstands_dotFree (fun node => (hchange node).tag_eq) h id
  exact (kept_of_trims htrims dotFree_insertAt rekeyable_dotFree.register
    rekeyable_dotFree.forgetKey).of_reachable dotFree_new h

/-- In a reached document every node, attached or detached, has a tag without upper-case
letters, no class twice and none without a name, and no property that is called `class` or
`style`.  Only the tag of the root may have a dot. -/
theorem reachable_nodes_normal (h : Reachable document) {index : Nat} {node : Node}
    (hnode : document.arena.nodes[index]? = some node) :
    node.Normal ∧ (index ≠ document.root.toNat → '.' ∉ node.tag.toList) :=
  ⟨normal_of_reachable h node (Array.mem_of_getElem? hnode),
    dotFree_of_reachable h index node hnode⟩

/-- A root whose tag has a dot, and a removed list item: classes come to it from its
specification, by a call and from an attribute, and to the box inside it from markup. -/
theorem reachable_nodes_normal_box :
    let classes : Attributes := .ofEntries [("class", " B. c .a"), ("title", "x")]
    let calls : List Operation :=
      [.insert 0 "LI.a..B.a", .addClass 1 "", .setAttributes 1 classes,
        .parseHeader .standard 1 "CheckBox.Round<class:'x.x'>", .remove 1]
    let document := calls.foldl Operation.apply (new "Main.Frame")
    Reachable document ∧
      (document.arena.nodes.toList.map fun node => (node.tag, node.classes)) =
        [("main.frame", []), ("li", ["a", "B", "c"]), ("input", ["Round", "x"])] ∧
      ∃ node, document.arena.nodes[2]? = some node ∧ node.Normal ∧ '.' ∉ node.tag.toList := by
  intro classes calls document
  have hreach : Reachable document := (Reachable.new "Main.Frame").foldl calls
  have htags : (document.arena.nodes.toList.map fun node => (node.tag, node.classes)) =
      [("main.frame", []), ("li", ["a", "B", "c"]), ("input", ["Round", "x"])] := by
    decide +kernel
  have hroot : document.root = 0 := by decide +kernel
  clear_value document
  obtain ⟨node, hnode⟩ : ∃ node, document.arena.nodes[2]? = some node := by
    have hthird := congrArg (·[2]?) htags
    rw [List.getElem?_map, Array.getElem?_toList] at hthird
    obtain ⟨node, hnode, -⟩ := Option.map_eq_some_iff.mp hthird
    exact ⟨node, hnode⟩
  obtain ⟨hnormal, hdot⟩ := reachable_nodes_normal hreach hnode
  exact ⟨hreach, htags, node, hnode, hnormal, hdot (by rw [hroot]; decide)⟩

end Document

end Espalier
