/-
Styles that are written as texts.  What a style list gives a node can be said by a clause
again, so as long as no style is set directly, the text that an outline shows for a style
is a style list that gives the same style.
-/
import Espalier.Proofs.Tree.Assignment
import Espalier.Proofs.Tree.EachNode
import Espalier.Proofs.Tree.Rendering

namespace Espalier

open Espalier.Program

/-- Clauses can say the whole style of a node. -/
def Node.StyleSayable (node : Node) : Prop :=
  ∀ entry ∈ node.style.toList, Sayable entry

namespace Document

variable {document : Document}

/-! ### Stored styles can be said -/

theorem styleSayable_of_style_eq {node other : Node} (h : node.style = other.style)
    (hother : other.StyleSayable) : node.StyleSayable := by
  rw [Node.StyleSayable, h]
  exact hother

theorem styleSayable_of_style_empty {node : Node} (h : node.style = ∅) : node.StyleSayable := by
  intro entry hentry
  rw [h] at hentry
  exact absurd hentry (Attributes.not_mem_toList_empty entry)

theorem innate_styleSayable : Innate Node.StyleSayable where
  placed _ _ _ _ h := styleSayable_of_style_eq rfl h
  new spec above id := by
    apply styleSayable_of_style_empty
    rw [newNode_eq]
  setAttributes entries h := by
    intro entry hentry
    rw [Node.setAttributes_eq] at hentry
    rcases Attributes.mem_or_mem_of_mem_assign hentry with hnew | hold
    · obtain ⟨source, -, hclause⟩ := List.mem_flatMap.mp hnew
      exact sayable_of_mem_styleEntries hclause
    · exact h entry hold
  replaceStyle text _ := by
    intro entry hentry
    rcases Attributes.mem_or_mem_of_mem_assign hentry with hnew | hold
    · exact sayable_of_mem_styleEntries hnew
    · exact absurd hold (Attributes.not_mem_toList_empty entry)
  addClass name h := by
    refine styleSayable_of_style_eq ?_ h
    rw [Node.addClass]
    split
    · rfl
    · rfl
  removeClass name h := by
    refine styleSayable_of_style_eq ?_ h
    cases name with
    | none => rfl
    | some name => rfl

theorem styleSayable_of_reachableBy (h : ReachableBy (¬ ·.StylesDirectly) document) :
    EachNode Node.StyleSayable document :=
  innate_styleSayable.keptByText.of_reachableBy
    (fun _ => eachNode_new (styleSayable_of_style_empty rfl)) h

/-! ### The text of a style -/

/-- A style that clauses can say is what its text describes. -/
theorem ofEntries_styleText {node : Node} (h : node.StyleSayable) :
    Attributes.ofEntries (styleEntries (styleText node.style.toList)) = node.style := by
  rw [styleEntries_styleText h, Attributes.ofEntries_of_perm (.refl _)]

/-- An opening line shows the text of a style that is not empty. -/
theorem exists_openLine (settings : OutlineSettings) (node : Node) (depth : Nat) :
    ∃ front back, Outline.openLine settings node depth =
      front ++ (if node.style = ∅ then "" else " style=\"" ++ styleText node.style.toList ++ "\"")
        ++ back := by
  have hstyle : Outline.stylePart node.style.toList =
      if node.style = ∅ then "" else " style=\"" ++ styleText node.style.toList ++ "\"" := by
    rw [Outline.stylePart]
    by_cases hempty : node.style = ∅
    · rw [if_pos hempty, hempty]
      rfl
    · rw [if_neg hempty, if_neg]
      rw [Std.ExtTreeMap.isEmpty_toList, Std.ExtTreeMap.isEmpty_iff]
      exact hempty
  refine ⟨settings.margin depth ++ "<" ++ node.tag ++ Outline.classPart node.classes ++
    Outline.propertyPart (node.properties.toList.filter fun entry => settings.shows entry.1),
    Outline.keyPart node.key ++ ">\n", ?_⟩
  rw [Outline.openLine, hstyle]
  simp only [String.append_assoc]

/-- Where no style was set directly, the clauses of a style are joined to a text that gives
the style back: the text that an outline shows, in whatever order the map is gone through
before it is sorted.  As a style list it makes the style of any node the same, whatever it
was, and changes nothing else.  The stored names are not empty, they are trimmed and hold
neither a colon nor a semicolon; the stored values are trimmed and hold no semicolon. -/
theorem reachable_style_reads_back (h : ReachableBy (¬ ·.StylesDirectly) document)
    {id : NodeId} {node : Node} (hnode : document.arena.get? id = some node) :
    (∀ entry ∈ node.style.toList, Sayable entry) ∧
    ∀ entries, entries.Perm node.style.toList →
      let text := styleText (Attributes.ascending entries)
      (node.style = ∅ → text = "") ∧
      (∀ settings depth, ∃ front back, Outline.openLine settings node depth =
        front ++ (if node.style = ∅ then "" else " style=\"" ++ text ++ "\"") ++ back) ∧
      ∀ (other : Document) target held, other.arena.get? target = some held →
        ∃ after, setCss target text other = .ok target after ∧
          Alters target { held with style := node.style } other after := by
  have hsayable : node.StyleSayable := (styleSayable_of_reachableBy h).get? hnode
  refine ⟨hsayable, ?_⟩
  intro entries hentries text
  have htext : text = styleText node.style.toList := by
    have hsorted := Attributes.ascending_of_perm hentries fun _ => true
    simp only [List.filter_true] at hsorted
    exact congrArg styleText hsorted
  rw [htext]
  refine ⟨?_, fun settings depth => exists_openLine settings node depth, ?_⟩
  · intro hempty
    rw [hempty]
    rfl
  · intro other target held hheld
    have halters := alters_update hheld (·.replaceStyle (styleText node.style.toList))
    rw [Node.replaceStyle, ofEntries_styleText hsayable] at halters
    exact ⟨_, edit_of_some hheld _, halters⟩

/-- A value with a colon, clauses that say nothing, and white space around names and values;
the text goes to the root, which has a style of its own, and the map is gone through from
behind. -/
theorem reachable_style_reads_back_mixed :
    let calls : List Operation :=
      [.insert 0 "p", .setAttributes 1 (Attributes.ofEntries [("style", "top: 1;left : a:b ;;x")]),
        .setCss 0 "color:red"]
    let document := calls.foldl Operation.apply (new "body")
    let entries := [("top", "1"), ("left", "a:b")]
    ReachableBy (¬ ·.StylesDirectly) document ∧
      styleText (Attributes.ascending entries) = "left:a:b;top:1" ∧
      ∃ node after, document.arena.get? 1 = some node ∧ entries.Perm node.style.toList ∧
        (∀ entry ∈ node.style.toList, Sayable entry) ∧
        setCss 0 "left:a:b;top:1" document = .ok 0 after ∧
        (after.arena.get? 0).map Node.style = some node.style := by
  intro calls document entries
  have hreach : ReachableBy (¬ ·.StylesDirectly) document := by
    apply (ReachableBy.new "body").foldl
    simp [calls, Operation.StylesDirectly]
  have hlisted : (document.arena.get? 1).map (fun node => node.style.toList) =
      some [("left", "a:b"), ("top", "1")] := by decide +kernel
  obtain ⟨node, hnode⟩ : ∃ node, document.arena.get? 1 = some node := ⟨_, rfl⟩
  obtain ⟨root, hroot⟩ : ∃ root, document.arena.get? 0 = some root := ⟨_, rfl⟩
  rw [hnode] at hlisted
  have hstyle : node.style.toList = [("left", "a:b"), ("top", "1")] := Option.some.inj hlisted
  have hperm : entries.Perm node.style.toList := by
    rw [hstyle]
    exact .swap _ _ _
  have htext : styleText (Attributes.ascending entries) = "left:a:b;top:1" := by
    have hsorted := Attributes.ascending_of_perm hperm fun _ => true
    rw [List.filter_true, List.filter_true, hstyle] at hsorted
    rw [hsorted]
    rfl
  obtain ⟨hsayable, htexts⟩ := reachable_style_reads_back hreach hnode
  obtain ⟨-, -, hcss⟩ := htexts entries hperm
  obtain ⟨after, hrun, halters⟩ := hcss document 0 root hroot
  rw [htext] at hrun
  refine ⟨hreach, htext, node, after, hnode, hperm, hsayable, hrun, ?_⟩
  rw [halters.nodes, if_pos rfl]
  rfl

end Document

end Espalier
