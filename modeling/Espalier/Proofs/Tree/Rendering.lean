/-
The outline of a tree as a recursion over the child lists: a node's opening line, the line
of its content, the same for its children one level deeper, and its closing line.  The lines
are spelled here from the fields of the node, with the words of an opening line parted by
spaces.  The maps of a node are gone through in any order and sorted, and the text is the
same for every order.
-/
import Mathlib.Data.Prod.Lex
import Mathlib.Data.String.Basic
import Espalier.Proofs.Text.Capped
import Espalier.Proofs.Tree.Queries
import Espalier.Tree.Outline

namespace Espalier

open Espalier.Program Espalier.Text

/-! ### Sorted entries -/

namespace Attributes

/-- Entries in ascending order of their names, and of their values where two names are
equal. -/
def ascending (entries : List (String × String)) : List (String × String) :=
  entries.mergeSort fun first second => decide (toLex first ≤ toLex second)

theorem pairwise_ascending (entries : List (String × String)) :
    (ascending entries).Pairwise fun first second => toLex first ≤ toLex second := by
  have htrans : ∀ first second third : String × String,
      decide (toLex first ≤ toLex second) → decide (toLex second ≤ toLex third) →
        decide (toLex first ≤ toLex third) := by
    intro first second third
    simpa using le_trans
  have htotal : ∀ first second : String × String,
      decide (toLex first ≤ toLex second) || decide (toLex second ≤ toLex first) := by
    intro first second
    simpa using le_total (toLex first) (toLex second)
  have hsorted := List.pairwise_mergeSort htrans htotal entries
  exact hsorted.imp fun h => of_decide_eq_true h

/-- In whatever order the entries of a map are taken, sorting gives the same list. -/
theorem ascending_of_perm {attributes : Attributes} {entries : List (String × String)}
    (h : entries.Perm attributes.toList) (keep : String × String → Bool) :
    ascending (entries.filter keep) = attributes.toList.filter keep := by
  have hordered : attributes.toList.Pairwise fun first second =>
      toLex first ≤ toLex second := by
    apply Std.ExtTreeMap.ordered_keys_toList.imp
    intro first second hlt
    exact Prod.Lex.toLex_le_toLex.mpr (.inl (compare_lt_iff_lt.mp hlt))
  have hperm : (ascending (entries.filter keep)).Perm (attributes.toList.filter keep) :=
    (List.mergeSort_perm _ _).trans (h.filter keep)
  apply hperm.eq_of_pairwise _ (pairwise_ascending _) (hordered.filter keep)
  intro first second _ _ hle hge
  exact toLex_inj.mp (le_antisymm hle hge)

end Attributes

/-! ### The lines of a node -/

namespace Outline

/-- The indentation of a depth. -/
def indented (settings : OutlineSettings) (depth : Nat) : String :=
  String.join (List.replicate depth settings.indent)

/-- The classes, in the order of their list. -/
def classWords (classes : List String) : List String :=
  if classes = [] then [] else ["class=\"" ++ " ".intercalate classes ++ "\""]

/-- A word for each property. -/
def propertyWords (entries : List (String × String)) : List String :=
  entries.map fun entry => entry.1 ++ "=\"" ++ entry.2 ++ "\""

/-- The clauses of a style. -/
def styleWords (entries : List (String × String)) : List String :=
  if entries = [] then []
  else
    let clauses := entries.map fun entry => entry.1 ++ ":" ++ entry.2
    ["style=\"" ++ ";".intercalate clauses ++ "\""]

/-- The lookup key. -/
def keyWords (key : Option String) : List String :=
  key.toList.map ("#" ++ ·)

/-- The entries to print, in ascending order of their names: all of them, or those whose
names are listed in the settings. -/
def printed (settings : OutlineSettings) (entries : List (String × String)) :
    List (String × String) :=
  Attributes.ascending (entries.filter fun entry => settings.shown.all (entry.1 ∈ ·))

/-- The opening line of a node whose maps are gone through in some order. -/
def opening (settings : OutlineSettings) (node : Node)
    (properties style : List (String × String)) (depth : Nat) : String :=
  let words := classWords node.classes ++ propertyWords (printed settings properties) ++
    styleWords (Attributes.ascending style) ++ keyWords node.key
  indented settings depth ++ "<" ++ " ".intercalate (node.tag :: words) ++ ">\n"

/-- The line of a node's content, of either kind: what trimming leaves of it, if anything,
within the limit. -/
inductive ContentLine (settings : OutlineSettings) (node : Node) (depth : Nat) :
    String → Prop
  | absent (hnone : node.content = none) : ContentLine settings node depth ""
  | blank {body : String}
      (hcontent : node.content = some (.html body) ∨ node.content = some (.text body))
      (hblank : TrimsTo body.toList []) : ContentLine settings node depth ""
  | shown {body text line : String}
      (hcontent : node.content = some (.html body) ∨ node.content = some (.text body))
      (htext : TrimsTo body.toList text.toList) (hshown : text ≠ "")
      (hline : Caps text settings.textLimit line) :
      ContentLine settings node depth (indented settings (depth + 1) ++ line ++ "\n")

/-- The closing line of a node. -/
def closing (settings : OutlineSettings) (node : Node) (depth : Nat) : String :=
  indented settings depth ++ "</" ++ node.tag ++ ">\n"

/-! ### The lines that are printed -/

theorem indented_eq (settings : OutlineSettings) (depth : Nat) :
    indented settings depth = settings.margin depth := rfl

/-- Words parted by a separator are the first one, and then each other one behind the
separator. -/
theorem intercalate_cons_eq_join (separator first : String) (rest : List String) :
    separator.intercalate (first :: rest) = first ++ String.join (rest.map (separator ++ ·)) := by
  induction rest generalizing first with
  | nil => simp
  | cons second rest ih =>
      rw [String.intercalate_cons_cons, ih, List.map_cons, String.join_cons]
      simp only [String.append_assoc]

theorem join_classWords (classes : List String) :
    String.join ((classWords classes).map (" " ++ ·)) = classPart classes := by
  cases classes with
  | nil => rfl
  | cons first rest => simp [classWords, classPart, ← String.append_assoc]

theorem join_propertyWords (entries : List (String × String)) :
    String.join ((propertyWords entries).map (" " ++ ·)) = propertyPart entries := by
  rw [propertyWords, propertyPart, List.map_map]
  refine congrArg String.join (List.map_congr_left fun entry _ => ?_)
  simp [← String.append_assoc]

theorem join_styleWords (entries : List (String × String)) :
    String.join ((styleWords entries).map (" " ++ ·)) = stylePart entries := by
  cases entries with
  | nil => rfl
  | cons first rest => simp [styleWords, stylePart, styleText, ← String.append_assoc]

theorem join_keyWords (key : Option String) :
    String.join ((keyWords key).map (" " ++ ·)) = keyPart key := by
  cases key with
  | none => rfl
  | some key => simp [keyWords, keyPart, ← String.append_assoc]

/-- A property is printed where no list of names is given, or the list has its name. -/
theorem shows_eq (settings : OutlineSettings) (name : String) :
    settings.shows name = settings.shown.all (name ∈ ·) := by
  rw [OutlineSettings.shows]
  cases settings.shown with
  | none => rfl
  | some names => simp

theorem opening_eq {node : Node} {properties style : List (String × String)}
    (hproperties : properties.Perm node.properties.toList)
    (hstyle : style.Perm node.style.toList) (settings : OutlineSettings) (depth : Nat) :
    opening settings node properties style depth = openLine settings node depth := by
  have hsorted : Attributes.ascending style = node.style.toList := by
    simpa using Attributes.ascending_of_perm hstyle fun _ => true
  have hprinted : printed settings properties =
      node.properties.toList.filter fun entry => settings.shows entry.1 := by
    simp only [shows_eq]
    exact Attributes.ascending_of_perm hproperties _
  simp only [opening, openLine, intercalate_cons_eq_join, hprinted, hsorted, indented_eq,
    List.map_append, String.join_append, join_classWords, join_propertyWords,
    join_styleWords, join_keyWords, ← String.append_assoc]

section ContentLine

variable {settings : OutlineSettings} {node : Node} {depth : Nat}

theorem contentLine_of_content {body : String}
    (h : node.content = some (.html body) ∨ node.content = some (.text body)) :
    contentLine settings node depth =
      if trimmed body = "" then ""
      else indented settings (depth + 1) ++ capped (trimmed body) settings.textLimit ++ "\n" := by
  rcases h with h | h
  · simp [contentLine, h, Content.body, indented_eq]
  · simp [contentLine, h, Content.body, indented_eq]

theorem exists_contentLine : ContentLine settings node depth (contentLine settings node depth) := by
  cases hcontent : node.content with
  | none =>
      rw [contentLine, hcontent]
      exact .absent hcontent
  | some content =>
      obtain ⟨body, hbody⟩ : ∃ body, node.content = some (.html body) ∨
          node.content = some (.text body) := by
        cases content with
        | html body => exact ⟨body, .inl hcontent⟩
        | text body => exact ⟨body, .inr hcontent⟩
      rw [contentLine_of_content hbody]
      by_cases hblank : trimmed body = ""
      · rw [if_pos hblank]
        rw [← String.toList_inj, toList_trimmed] at hblank
        exact .blank hbody (trimsTo_iff.mpr hblank.symm)
      · rw [if_neg hblank]
        have htext : TrimsTo body.toList (trimmed body).toList :=
          trimsTo_iff.mpr (toList_trimmed body)
        exact .shown hbody htext hblank (caps_capped _ _)

theorem contentLine_iff {line : String} : ContentLine settings node depth line ↔
    line = contentLine settings node depth := by
  constructor
  · intro h
    cases h with
    | absent hnone => rw [contentLine, hnone]
    | @blank body hcontent hblank =>
        have hempty : trimmed body = "" := by
          rw [trimmed, ← trimsTo_iff.mp hblank]
        rw [contentLine_of_content hcontent, if_pos hempty]
    | @shown body text line hcontent htext hshown hline =>
        obtain rfl : text = trimmed body := by
          rw [← String.toList_inj, toList_trimmed]
          exact trimsTo_iff.mp htext
        rw [contentLine_of_content hcontent, if_neg hshown, caps_iff.mp hline]
  · rintro rfl
    exact exists_contentLine

end ContentLine

theorem closing_eq (settings : OutlineSettings) (node : Node) (depth : Nat) :
    closing settings node depth = closeLine settings node depth := by
  rw [closing, closeLine, indented_eq]

end Outline

/-! ### The recursion -/

namespace Document

variable {document : Document}

/-- An order for the maps of every node. -/
structure MapOrder (document : Document) where
  properties : NodeId → List (String × String)
  style : NodeId → List (String × String)
  perm_properties : ∀ {id node}, document.arena.get? id = some node →
    (properties id).Perm node.properties.toList
  perm_style : ∀ {id node}, document.arena.get? id = some node →
    (style id).Perm node.style.toList

instance : Inhabited document.MapOrder where
  default := {
    properties := fun id => ((document.arena.get? id).map (·.properties.toList)).getD []
    style := fun id => ((document.arena.get? id).map (·.style.toList)).getD []
    perm_properties := by
      intro id node hnode
      simp [hnode]
    perm_style := by
      intro id node hnode
      simp [hnode] }

/-- The text of some trees that stand beside each other at a depth. -/
inductive Renders (document : Document) (settings : OutlineSettings)
    (maps : document.MapOrder) : List NodeId → Nat → String → Prop
  | nil {depth : Nat} : Renders document settings maps [] depth ""
  | cons {id : NodeId} {ids : List NodeId} {depth : Nat} {node : Node}
      {content inner rest : String} (hnode : document.arena.get? id = some node)
      (hcontent : Outline.ContentLine settings node depth content)
      (hinner : Renders document settings maps node.children (depth + 1) inner)
      (hrest : Renders document settings maps ids depth rest) :
      Renders document settings maps (id :: ids) depth
        (Outline.opening settings node (maps.properties id) (maps.style id) depth ++ content
          ++ inner ++ Outline.closing settings node depth ++ rest)

/-- The text is settled by the tree, and not by how the maps are gone through. -/
theorem Renders.unique {settings : OutlineSettings} {maps maps' : document.MapOrder}
    {ids : List NodeId} {depth : Nat} {first second : String}
    (h : document.Renders settings maps ids depth first)
    (h' : document.Renders settings maps' ids depth second) : first = second := by
  induction h generalizing second with
  | nil => cases h' with | nil => rfl
  | cons hnode hcontent _ _ ihInner ihRest =>
      cases h' with
      | cons hnode' hcontent' hinner hrest =>
          obtain rfl := Option.some.inj (hnode.symm.trans hnode')
          rw [Outline.contentLine_iff] at hcontent hcontent'
          rw [ihInner hinner, ihRest hrest, hcontent, hcontent',
            Outline.opening_eq (maps.perm_properties hnode) (maps.perm_style hnode),
            Outline.opening_eq (maps'.perm_properties hnode) (maps'.perm_style hnode)]

/-- A walk prints a text for the tree of a node, and the text is a rendering. -/
structure Prints (document : Document) (settings : OutlineSettings) (levels : Nat)
    (id : NodeId) (depth : Nat) (out : String) : Prop where
  run : ∀ text, document.arena.walkLevels (Outline.printer settings) levels id depth text =
    .ok () (text ++ out)
  renders : ∀ maps ids rest, document.Renders settings maps ids depth rest →
    document.Renders settings maps (id :: ids) depth (out ++ rest)

variable {settings : OutlineSettings}

theorem exists_prints_children {levels depth : Nat} {children : List NodeId}
    (h : ∀ child ∈ children, ∃ out, document.Prints settings levels child depth out) :
    ∃ inner,
      (∀ text, children.forM (fun child => document.arena.walkLevels
        (Outline.printer settings) levels child depth) text = .ok () (text ++ inner)) ∧
      ∀ maps, document.Renders settings maps children depth inner := by
  induction children with
  | nil => exact ⟨"", fun text => by simp [pure, EStateM.pure], fun _ => .nil⟩
  | cons child children ih =>
      obtain ⟨out, hout⟩ := h child List.mem_cons_self
      obtain ⟨rest, hrun, hrest⟩ :=
        ih fun other hother => h other (List.mem_cons_of_mem child hother)
      refine ⟨out ++ rest, ?_, fun maps => hout.renders maps children rest (hrest maps)⟩
      intro text
      rw [List.forM_eq_forM] at hrun ⊢
      rw [List.forM_cons, bind_of_ok (hout.run text), hrun, String.append_assoc]

/-- A node's own lines stand around those of its children. -/
theorem exists_prints_node {levels depth : Nat} {id : NodeId} {node : Node}
    (hnode : document.arena.get? id = some node)
    (h : ∀ child ∈ node.children, ∃ out, document.Prints settings levels child (depth + 1) out) :
    ∃ out, document.Prints settings (levels + 1) id depth out := by
  obtain ⟨inner, hrun, hinner⟩ := exists_prints_children h
  refine ⟨Outline.openLine settings node depth ++ Outline.contentLine settings node depth
    ++ inner ++ Outline.closeLine settings node depth, ?_, ?_⟩
  · intro text
    have henter : (Outline.printer settings).enter node depth text =
        .ok () (text ++ Outline.openLine settings node depth ++
          Outline.contentLine settings node depth) := rfl
    have hleave : ∀ printed, (Outline.printer settings).leave node depth printed =
        .ok () (printed ++ Outline.closeLine settings node depth) := fun _ => rfl
    simp only [Arena.walkLevels, hnode]
    rw [bind_of_ok henter, bind_of_ok (hrun _), hleave]
    simp only [String.append_assoc]
  · intro maps ids rest hrest
    have hcons := Renders.cons hnode (Outline.contentLine_iff.mpr rfl) (hinner maps) hrest
    rw [Outline.opening_eq (maps.perm_properties hnode) (maps.perm_style hnode),
      Outline.closing_eq] at hcons
    exact hcons

theorem Sound.exists_prints (h : document.Sound) {start : NodeId}
    (hstart : (document.arena.get? start).isSome) (settings : OutlineSettings) :
    ∃ out, document.Prints settings (document.arena.size + 1) start 0 out := by
  suffices hdeep : ∀ depth, (document.arena.get? start).isSome →
      ∃ out, document.Prints settings (document.arena.size + 1) start depth out from
    hdeep 0 hstart
  apply Arena.induct_levels h.shape.acyclic (P := fun levels id => ∀ depth,
    (document.arena.get? id).isSome → ∃ out, document.Prints settings levels id depth out)
  intro levels id ih depth hid
  obtain ⟨node, hnode⟩ := Option.isSome_iff_exists.mp hid
  rw [Shape.childrenOf_of_eq_some (Arena.shape_of_get? hnode)] at ih
  apply exists_prints_node hnode
  intro child hchild
  have hthere : (document.arena.get? child).isSome := by
    rw [← Arena.isSome_shape_iff]
    exact h.shape.isSome_of_child (Arena.child_of_mem hnode hchild)
  exact ih child hchild (depth + 1) hthere

/-- The outline of a node that exists is the rendering of its tree, and there is no other
rendering, in whatever order the maps of the nodes are gone through.  Ids are 32-bit
numbers, and the bound is the number of nodes that can have ids of their own. -/
theorem reachable_outline_renders (h : Reachable document)
    (hsize : document.size ≤ UInt32.size) {start : NodeId}
    (hstart : (document.arena.get? start).isSome) (settings : OutlineSettings) :
    ∃ text, document.outlineFrom settings start = .ok text ∧
      ∀ maps other, document.Renders settings maps [start] 0 other ↔ other = text := by
  obtain ⟨text, htext⟩ := (soundInRoom_of_reachable h hsize).exists_prints hstart settings
  have hrenders : ∀ maps, document.Renders settings maps [start] 0 text := by
    intro maps
    simpa using htext.renders maps [] "" .nil
  refine ⟨text, ?_, ?_⟩
  · have hrun := htext.run ""
    rw [outlineFrom, Arena.walk_eq]
    simp only [EStateM.run, hrun, String.empty_append]
  · intro maps other
    constructor
    · exact fun hother => hother.unique (hrenders maps)
    · rintro rfl
      exact hrenders maps

/-- A list with classes, two properties of which one is printed, a style that is not written
in order, and a key; of its items one has a text that is cut in front of a scalar of two
bytes, and one has markup of white space alone. -/
theorem reachable_outline_renders_list :
    let calls : List Operation := [.insert 0 "ul.wide.menu", .insert 1 "li", .insert 1 "li",
      .setAttributes 1
        (Attributes.ofEntries [("title", "x"), ("lang", "en"), ("style", "top:1;left:2")]),
      .register 1 "top", .setText 2 "\u00a0grün und blau\n", .setHtml 3 " \u3000"]
    let document := calls.foldl Operation.apply (new "body")
    let settings : OutlineSettings :=
      { indent := "--", shown := some ["id", "title"], textLimit := 3 }
    let outlined := "<body>\n" ++
      "--<ul class=\"wide menu\" title=\"x\" style=\"left:2;top:1\" #top>\n" ++
      "----<li>\n------gr...\n----</li>\n----<li>\n----</li>\n--</ul>\n</body>\n"
    Reachable document ∧ document.outlineFrom settings 0 = .ok outlined ∧
      ∀ maps other, document.Renders settings maps [0] 0 other ↔ other = outlined := by
  intro calls document settings outlined
  have hreach : Reachable document := (Reachable.new "body").foldl calls
  have hrun : document.outlineFrom settings 0 = .ok outlined := by
    rw [outlineFrom, Arena.walk_eq]
    decide +kernel
  have hstart : (document.arena.get? 0).isSome := by decide +kernel
  obtain ⟨text, htext, hrenders⟩ :=
    reachable_outline_renders hreach (by decide +kernel) hstart settings
  obtain rfl := Except.ok.inj (hrun.symm.trans htext)
  exact ⟨hreach, hrun, hrenders⟩

end Document

end Espalier
