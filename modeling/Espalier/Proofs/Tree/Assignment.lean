/-
What setting attributes makes of a node.  A map is gone through in some order, but the
classes, the properties and the style of a node are written by entries of different names,
and each of the three is settled by the map: the order of the entries does not count, and
neither does how many calls they are spread over.
-/
import Espalier.Proofs.Attributes.Entries
import Espalier.Proofs.Tree.Clauses
import Espalier.Proofs.Tree.Insertion

namespace Espalier

open Espalier.Program

namespace Node

/-! ### The three parts of a node that entries write -/

theorem addClasses_append (node : Node) (front back : List String) :
    node.addClasses (front ++ back) = (node.addClasses front).addClasses back := by
  simp [addClasses]

/-- The classes do not depend on the properties and the style. -/
theorem addClasses_with (node : Node) (names : List String) (properties style : Attributes) :
    ({ node with properties, style } : Node).addClasses names =
      { node.addClasses names with properties, style } := by
  simp [addClasses_eq]

/-- Whether an entry of a name sets a property. -/
def isProperty (name : String) : Bool :=
  name != "class" && name != "style"

/-- The entries that set properties. -/
def propertiesIn (entries : List (String × String)) : List (String × String) :=
  entries.filter fun entry => isProperty entry.1

/-- The class names that entries add. -/
def classesIn (entries : List (String × String)) : List String :=
  (entries.filter (·.1 == "class")).flatMap fun entry => classList entry.2

/-- The clauses by which entries overwrite the style. -/
def clausesIn (entries : List (String × String)) : List (String × String) :=
  (entries.filter (·.1 == "style")).flatMap fun entry => styleEntries entry.2

/-- Setting entries one after the other does three things that do not touch each other. -/
theorem setAttributes_eq (node : Node) (entries : List (String × String)) :
    node.setAttributes entries =
      { node.addClasses (classesIn entries) with
        properties := node.properties.assign (propertiesIn entries)
        style := node.style.assign (clausesIn entries) } := by
  induction entries using List.reverseRecOn with
  | nil => rfl
  | append_singleton entries entry ih =>
      obtain ⟨name, value⟩ := entry
      have hlast : node.setAttributes (entries ++ [(name, value)]) =
          (node.setAttributes entries).setAttribute (name, value) := by
        simp [setAttributes]
      rw [hlast, ih]
      by_cases hclass : name = "class"
      · subst hclass
        simp [setAttribute, isProperty, propertiesIn, classesIn, clausesIn, addClasses_with,
          addClasses_append]
      · by_cases hstyle : name = "style"
        · subst hstyle
          simp [setAttribute, isProperty, propertiesIn, classesIn, clausesIn, addStyle,
            Attributes.assign_append]
        · have hproperty : isProperty name = true := by simp [isProperty, hclass, hstyle]
          simp [setAttribute, propertiesIn, classesIn, clausesIn, hclass, hstyle, hproperty,
            Attributes.assign_append]

/-- A node after the attributes of a map are set.  The class names of the `class` value are
added behind the old ones, each that is not there yet once and in the order in which they
are first named; the clauses of the `style` value overwrite the style, the last clause of a
name counting; every other entry overwrites a property. -/
structure Assigned (attributes : Attributes) (before after : Node) : Prop where
  others : after = { before with
    classes := after.classes, properties := after.properties, style := after.style }
  classes : ∃ names, ListsClasses (attributes["class"]?.getD "") names ∧
    after.classes = before.classes ++ (names.removeAll before.classes).eraseDups
  properties : ∀ name, after.properties[name]? =
    if name = "class" ∨ name = "style" then before.properties[name]?
    else attributes[name]?.or before.properties[name]?
  style : ∃ clauses, ListsStyle (attributes["style"]?.getD "") clauses ∧
    ∀ name, after.style[name]? = (clauses.reverse.lookup name).or before.style[name]?

theorem filter_classList (text : String) :
    (classList text).filter (!·.isEmpty) = classList text := by
  rw [List.filter_eq_self, classList]
  intro name hname
  obtain ⟨token, htoken, rfl⟩ := List.mem_map.mp hname
  simpa using (List.mem_filter.mp htoken).2

section Orders

variable {entries : List (String × String)} {attributes : Attributes}
  (h : entries.Perm attributes.toList)
include h

theorem classesIn_of_perm : classesIn entries = classList (attributes["class"]?.getD "") := by
  have hnone : classList "" = [] := rfl
  rw [classesIn, Attributes.filter_name_of_perm h]
  cases attributes["class"]? with
  | none => simp [hnone]
  | some value => simp

theorem clausesIn_of_perm :
    clausesIn entries = styleEntries (attributes["style"]?.getD "") := by
  have hnone : styleEntries "" = [] := rfl
  rw [clausesIn, Attributes.filter_name_of_perm h]
  cases attributes["style"]? with
  | none => simp [hnone]
  | some value => simp

theorem getElem?_assign_propertiesIn (old : Attributes) (name : String) :
    (old.assign (propertiesIn entries))[name]? =
      if name = "class" ∨ name = "style" then old[name]?
      else attributes[name]?.or old[name]? := by
  rw [Attributes.getElem?_assign, propertiesIn, ← List.filter_reverse, Attributes.lookup_filter,
    Attributes.lookup_reverse_of_perm h]
  by_cases hname : name = "class" ∨ name = "style"
  · have hproperty : isProperty name = false := by
      rcases hname with rfl | rfl <;> rfl
    rw [if_pos hname, hproperty]
    rfl
  · have hproperty : isProperty name = true := by
      simpa [isProperty] using hname
    rw [if_neg hname, hproperty, if_pos rfl]

/-- In whatever order the entries are set, the same node comes out. -/
theorem setAttributes_of_perm (node : Node) :
    node.setAttributes entries = node.setAttributes attributes.toList := by
  have hproperties : node.properties.assign (propertiesIn entries) =
      node.properties.assign (propertiesIn attributes.toList) := by
    apply Std.ExtTreeMap.ext_getElem?
    intro name
    rw [getElem?_assign_propertiesIn h, getElem?_assign_propertiesIn (.refl _)]
  rw [setAttributes_eq, setAttributes_eq, classesIn_of_perm h, clausesIn_of_perm h,
    classesIn_of_perm (.refl _), clausesIn_of_perm (.refl _), hproperties]

theorem assigned_setAttributes (node : Node) :
    Assigned attributes node (node.setAttributes entries) := by
  rw [setAttributes_eq, classesIn_of_perm h, clausesIn_of_perm h, addClasses_eq]
  refine ⟨rfl, ⟨_, listsClasses_iff.mpr rfl, ?_⟩, ?_, ⟨_, listsStyle_iff.mpr rfl, ?_⟩⟩
  · rw [filter_classList]
  · intro name
    exact getElem?_assign_propertiesIn h node.properties name
  · intro name
    exact Attributes.getElem?_assign node.style _ name

end Orders

end Node

namespace Document

variable {document : Document} {id : NodeId} {held : Node}

/-! ### Maps that are set in any order -/

/-- Set the attributes of a map whose entries are visited in a given order. -/
def setVisiting (id : NodeId) (entries : List (String × String)) : DocumentM NodeId :=
  edit id (·.setAttributes entries)

/-- Set entries by one call for each of them. -/
def setEach (id : NodeId) (entries : List (String × String)) : DocumentM Unit :=
  entries.forM fun entry => do let _ ← setAttributes id (Attributes.ofEntries [entry])

/-- Overwrite the style by a map whose entries are visited in a given order. -/
def styleVisiting (id : NodeId) (entries : List (String × String)) : DocumentM NodeId :=
  edit id (·.assignStyle entries)

/-- Overwrite the style by one call for each entry. -/
def styleEach (id : NodeId) (entries : List (String × String)) : DocumentM Unit :=
  entries.forM fun entry => do let _ ← setStyle id (Attributes.ofEntries [entry])

theorem setEach_run (h : document.arena.get? id = some held)
    (entries : List (String × String)) :
    setEach id entries document = .ok () { document with
      arena := document.arena.update id (·.setAttributes entries) } := by
  have hcall : ∀ entry, setAttributes id (Attributes.ofEntries [entry]) =
      edit id (·.setAttribute entry) := by
    intro entry
    rw [setAttributes, Attributes.toList_ofEntries_singleton]
    rfl
  exact forM_edit_run hcall h entries

theorem styleEach_run (h : document.arena.get? id = some held)
    (entries : List (String × String)) :
    styleEach id entries document = .ok () { document with
      arena := document.arena.update id (·.assignStyle entries) } := by
  have hfold : ∀ node : Node, entries.foldl (fun node entry => node.assignStyle [entry]) node =
      node.assignStyle entries := by
    intro node
    induction entries generalizing node with
    | nil => rfl
    | cons entry entries ih =>
        rw [List.foldl_cons, ih]
        rfl
  have hcall : ∀ entry, setStyle id (Attributes.ofEntries [entry]) =
      edit id (·.assignStyle [entry]) := by
    intro entry
    rw [setStyle, Attributes.toList_ofEntries_singleton]
  have hrun := forM_edit_run hcall h entries
  simp only [hfold] at hrun
  exact hrun

/-- Attributes are set alike in whatever order the entries of the map are visited, by one
call or by one call for each entry in any order; the same goes for a style.  The node
becomes what the map says, and nothing else changes. -/
theorem setAttributes_any_order (hnode : document.arena.get? id = some held)
    (attributes : Attributes) :
    (∃ node after, Node.Assigned attributes held node ∧ Alters id node document after ∧
      setAttributes id attributes document = .ok id after ∧
      ∀ entries, entries.Perm attributes.toList →
        setVisiting id entries document = .ok id after ∧
        setEach id entries document = .ok () after) ∧
    ∃ (style : Attributes) (after : Document),
      (∀ name : String, style[name]? = attributes[name]?.or held.style[name]?) ∧
      Alters id { held with style } document after ∧
      setStyle id attributes document = .ok id after ∧
      ∀ entries, entries.Perm attributes.toList →
        styleVisiting id entries document = .ok id after ∧
        styleEach id entries document = .ok () after := by
  constructor
  · refine ⟨held.setAttributes attributes.toList, _, Node.assigned_setAttributes (.refl _) held,
      alters_update hnode (·.setAttributes attributes.toList), edit_of_some hnode _, ?_⟩
    intro entries hentries
    have hsame : (fun node : Node => node.setAttributes entries) =
        fun node => node.setAttributes attributes.toList := by
      funext node
      exact Node.setAttributes_of_perm hentries node
    rw [setVisiting, edit_of_some hnode, setEach_run hnode, hsame]
    exact ⟨rfl, rfl⟩
  · refine ⟨held.style.assign attributes.toList, _,
      Attributes.getElem?_assign_of_perm (.refl _) held.style,
      alters_update hnode (·.assignStyle attributes.toList), edit_of_some hnode _, ?_⟩
    intro entries hentries
    have hsame : (fun node : Node => node.assignStyle entries) =
        fun node => node.assignStyle attributes.toList := by
      funext node
      have hstyle : node.style.assign entries = node.style.assign attributes.toList := by
        apply Std.ExtTreeMap.ext_getElem?
        intro name
        rw [Attributes.getElem?_assign_of_perm hentries,
          Attributes.getElem?_assign_of_perm (.refl _)]
      rw [Node.assignStyle, hstyle, Node.assignStyle]
    rw [styleVisiting, edit_of_some hnode, styleEach_run hnode, hsame]
    exact ⟨rfl, rfl⟩

/-- Classes of which one is there already and one comes twice, a style in which one name
comes twice, and a property, in an order that is not that of the names. -/
theorem setAttributes_any_order_mixed :
    let document := stateAfter (insert 0 "p.a.x" (new "body"))
    let entries := [("title", "x"), ("style", "top:1;left:2;top: 3"), ("class", "b. a .c.b")]
    let attributes := Attributes.ofEntries entries
    entries.Perm attributes.toList ∧ entries ≠ attributes.toList ∧
      ∃ held node after, document.arena.get? 1 = some held ∧
        Node.Assigned attributes held node ∧ node.classes = ["a", "x", "b", "c"] ∧
        Alters 1 node document after ∧ setVisiting 1 entries document = .ok 1 after ∧
        setEach 1 entries document = .ok () after := by
  intro document entries attributes
  have hperm : entries.Perm attributes.toList := by decide +kernel
  obtain ⟨held, hheld⟩ : ∃ held, document.arena.get? 1 = some held := ⟨_, rfl⟩
  obtain ⟨⟨node, after, hassigned, halters, hrun, horders⟩, -⟩ :=
    setAttributes_any_order hheld attributes
  obtain ⟨hvisiting, heach⟩ := horders entries hperm
  have hclasses : ((stateAfter (setAttributes 1 attributes document)).arena.get? 1).map
      Node.classes = some ["a", "x", "b", "c"] := by decide +kernel
  rw [hrun, stateAfter, halters.nodes, if_pos rfl] at hclasses
  exact ⟨hperm, by decide +kernel, held, node, after, hheld, hassigned,
    Option.some.inj hclasses, halters, hvisiting, heach⟩

end Document

end Espalier
