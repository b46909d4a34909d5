/-
Written markup reads back.  A finite ordered forest of elements is written as a
text, and parsing the text makes the calls that the forest stands for: each
element in preorder, below the element that encloses it.
-/
import Espalier.Proofs.Markup.Element
import Espalier.Proofs.Markup.Growth
import Espalier.Proofs.Markup.Shorthand
import Espalier.Proofs.Sink.Recorder

namespace Espalier.Markup

open Espalier.Text Espalier.Program

variable {σ η : Type}

/-! ### The calls of an element -/

/-- The calls that create an element below a parent: the insert, and then what is
written of attributes, text and key. -/
def Element.plant (sink : Sink σ η) (parent : η) (element : Element) :
    EStateM TreeError σ η := do
  let node ← sink.insert parent element.tag
  if element.attributes ≠ [] then
    sink.set node (Attributes.ofEntries element.attributes)
  element.text.forM fun text => sink.html node text
  element.key.forM fun key => sink.register key node
  return node

theorem declare_draft (sink : Sink σ η) {settings : Settings} (parent : η)
    {element : Element} (h : element.Writable settings) :
    declare sink settings parent element.draft = element.plant sink parent := by
  have hexpand : settings.expand element.draft.tag element.draft.params =
      (element.tag, element.draft.params) := by
    have hkind := h.no_shorthand
    rw [← cutTag_fst] at hkind
    simp [Settings.expand, Element.draft, hkind]
  have hattributes : element.attributes ≠ [] →
      element.draft.params ≠ "" ∧ Attributes.ofBlock element.draft.params =
        Attributes.ofEntries element.attributes := by
    intro hne
    refine ⟨?_, Attributes.ofBlock_write h.attributes_quotable hne⟩
    simpa [Element.draft] using Attributes.write_ne_nil hne
  have htext : ∀ text, element.text = some text →
      element.draft.text ≠ "" ∧
        String.ofList (unquote (trim element.draft.text.toList)) = text := by
    intro text hsome
    constructor
    · simp [Element.draft, hsome, quoted]
    · simp [Element.draft, hsome, Attributes.unquote_trim_quoted]
  have hnoText : element.text = none → element.draft.text = "" := by
    intro hnone
    simp [Element.draft, hnone]
  have hkey : ∀ key, element.key = some key → key ≠ "" ∧ element.draft.key = key := by
    intro key hsome
    exact ⟨(h.key_plain key hsome).1, by simp [Element.draft, hsome]⟩
  have hnoKey : element.key = none → element.draft.key = "" := by
    intro hnone
    simp [Element.draft, hnone]
  have hnoParams : element.attributes = [] → element.draft.params = "" := by
    intro hnil
    simp [Element.draft, hnil, Attributes.write]
  rw [declare, hexpand, Element.plant]
  by_cases hnil : element.attributes = [] <;> cases htextCase : element.text <;>
    cases hkeyCase : element.key <;> simp_all

/-! ### The text of an element -/

/-- A text as a part of a header: it has no bare brace, closes its quotes, and
does not end in a blank. -/
structure Tidy (cs : List Char) : Prop where
  free : braceFree .outside cs
  closed : Quote.outside.after cs = .outside
  last : ∀ c ∈ cs.getLast?, isBlank c = false

theorem tidy_nil : Tidy [] :=
  ⟨rfl, rfl, by simp⟩

theorem Tidy.append {front back : List Char} (hfront : Tidy front) (hback : Tidy back) :
    Tidy (front ++ back) := by
  refine ⟨?_, ?_, ?_⟩
  · have hfree := hback.free
    rw [braceFree, Quote.bareAll_append, hfront.closed, Bool.and_eq_true]
    exact ⟨hfront.free, hfree⟩
  · rw [Quote.after_append, hfront.closed, hback.closed]
  · intro c hc
    rw [List.getLast?_append] at hc
    cases hlast : back.getLast? with
    | none => exact hfront.last c (by simpa [hlast] using hc)
    | some d => exact hback.last c (by simpa [hlast] using hc)

theorem tidy_of_plain {cs : List Char} (h : ∀ c ∈ cs, isPlain c) : Tidy cs where
  free := Quote.bareAll_of_forall (fun c hc => notBrace_of_isPlain (h c hc)) _
  closed := after_of_plain h
  last c hc := not_isBlank_of_isPlain (h c (List.mem_of_getLast? hc))

/-- Brackets around a text that closes its quotes are tidy. -/
theorem tidy_bracketed {opening closing : Char} {cs : List Char}
    (hopening : Quote.outside.next opening = .outside) (hopen : notBrace opening)
    (hclosing : Quote.outside.next closing = .outside) (hclose : notBrace closing)
    (hblank : isBlank closing = false) (hfree : braceFree .outside cs)
    (hclosed : Quote.outside.after cs = .outside) :
    Tidy (opening :: (cs ++ [closing])) := by
  rw [braceFree] at hfree
  refine ⟨?_, ?_, ?_⟩
  · simp [braceFree, Quote.bareAll, Quote.bareAll_append, hopening, hopen, hclose,
      hfree, hclosed]
  · simp [Quote.after_append, hopening, hclosed, hclosing]
  · intro c hc
    rw [← List.cons_append, List.getLast?_concat] at hc
    obtain rfl : closing = c := by simpa using hc
    exact hblank

theorem tidy_write {settings : Settings} {element : Element}
    (h : element.Writable settings) : Tidy element.write := by
  have hparams : Tidy (Element.writeParams element.attributes) := by
    rw [Element.writeParams]
    split
    · exact tidy_nil
    · obtain ⟨hfree, hclosed⟩ := Attributes.bareAll_write notBrace rfl rfl
        h.attributes_quotable
      exact tidy_bracketed rfl rfl rfl rfl rfl hfree hclosed
  have htext : Tidy (Element.writeText element.text) := by
    cases hcase : element.text with
    | none => exact tidy_nil
    | some text =>
        have hquotable := h.text_quotable text hcase
        exact tidy_bracketed rfl rfl rfl rfl rfl (bareAll_quoted hquotable)
          (after_quoted hquotable)
  have hkey : Tidy (Element.writeKey element.key) := by
    cases hcase : element.key with
    | none => exact tidy_nil
    | some key =>
        have hhash : Tidy ['#'] := ⟨rfl, rfl, by simp [isBlank]⟩
        exact hhash.append (tidy_of_plain (h.key_plain key hcase).2)
  exact (tidy_of_plain h.tag_plain).append (hparams.append (htext.append hkey))

/-- A written element begins with a plain character. -/
theorem exists_cons_write {settings : Settings} {element : Element}
    (h : element.Writable settings) :
    ∃ c cs, element.write = c :: cs ∧ isPlain c := by
  obtain ⟨c, cs, htag⟩ : ∃ c cs, element.tag.toList = c :: cs := by
    apply List.exists_cons_of_ne_nil
    simpa using h.tag_ne
  exact ⟨c, _, by rw [Element.write, htag, List.cons_append],
    h.tag_plain c (by simp [htag])⟩

/-! ### Headers of written elements -/

theorem tidy_writeRun_append {settings : Settings} {leaves : List Element}
    (hleaves : ∀ leaf ∈ leaves, leaf.Writable settings) {element : Element}
    (h : element.Writable settings) : Tidy (writeRun leaves ++ element.write) := by
  induction leaves with
  | nil => simpa [writeRun] using tidy_write h
  | cons leaf rest ih =>
      have hleaf := tidy_write (hleaves leaf List.mem_cons_self)
      have hrest := ih fun other hother => hleaves other (List.mem_cons_of_mem leaf hother)
      have hspace : Tidy (' ' :: (writeRun rest ++ element.write)) := by
        refine ⟨?_, ?_, ?_⟩
        · exact hrest.free
        · exact hrest.closed
        · intro c hc
          obtain ⟨d, ds, hwrite, -⟩ := exists_cons_write h
          apply hrest.last c
          simpa [hwrite, List.getLast?_cons] using hc
      simpa [writeRun] using hleaf.append hspace

theorem closed_writeRun {settings : Settings} {leaves : List Element}
    (hleaves : ∀ leaf ∈ leaves, leaf.Writable settings) :
    braceFree .outside (writeRun leaves) ∧
      Quote.outside.after (writeRun leaves) = .outside := by
  induction leaves with
  | nil => exact ⟨rfl, rfl⟩
  | cons leaf rest ih =>
      have hleaf := tidy_write (hleaves leaf List.mem_cons_self)
      obtain ⟨hfree, hclosed⟩ :=
        ih fun other hother => hleaves other (List.mem_cons_of_mem leaf hother)
      have hrun : writeRun (leaf :: rest) = leaf.write ++ ' ' :: writeRun rest := by
        simp [writeRun]
      constructor
      · rw [hrun, braceFree, Quote.bareAll_append, hleaf.closed, Bool.and_eq_true]
        exact ⟨hleaf.free, hfree⟩
      · rw [hrun, Quote.after_append, hleaf.closed]
        exact hclosed

/-- A header of written elements stays as it is when it is trimmed. -/
theorem trim_writeRun_append {settings : Settings} {leaves : List Element}
    (hleaves : ∀ leaf ∈ leaves, leaf.Writable settings) {element : Element}
    (h : element.Writable settings) :
    trim (writeRun leaves ++ element.write) = writeRun leaves ++ element.write := by
  apply trim_eq_self
  · intro c hc
    have hhead : ∃ first : Element, first.Writable settings ∧
        ∃ tail, writeRun leaves ++ element.write = first.write ++ tail := by
      cases leaves with
      | nil => exact ⟨element, h, [], by simp [writeRun]⟩
      | cons leaf rest =>
          exact ⟨leaf, hleaves leaf List.mem_cons_self,
            ' ' :: (writeRun rest ++ element.write), by simp [writeRun]⟩
    obtain ⟨first, hfirst, tail, htail⟩ := hhead
    obtain ⟨d, ds, hwrite, hplain⟩ := exists_cons_write hfirst
    obtain rfl : d = c := by simpa [htail, hwrite] using hc
    exact not_isBlank_of_isPlain hplain
  · exact (tidy_writeRun_append hleaves h).last

/-- The calls of some leaves below one parent. -/
def plantRun (sink : Sink σ η) (parent : η) (leaves : List Element) :
    EStateM TreeError σ Unit :=
  leaves.forM fun leaf => do
    let _ ← leaf.plant sink parent

theorem declareAll_drafts (sink : Sink σ η) {settings : Settings} (parent : η)
    {leaves : List Element} (hleaves : ∀ leaf ∈ leaves, leaf.Writable settings)
    {element : Element} (h : element.Writable settings) (last : Option η) :
    declareAll sink settings parent last ((leaves ++ [element]).map Element.draft) = (do
      plantRun sink parent leaves
      let node ← element.plant sink parent
      return some node) := by
  induction leaves generalizing last with
  | nil => simp [declareAll, plantRun, declare_draft sink parent h]
  | cons leaf rest ih =>
      have hrest := ih fun other hother => hleaves other (List.mem_cons_of_mem leaf hother)
      have hleaf := declare_draft sink parent (hleaves leaf List.mem_cons_self)
      have hrun : plantRun sink parent (leaf :: rest) = (do
          let _ ← leaf.plant sink parent
          plantRun sink parent rest) := by
        simp [plantRun]
      rw [List.cons_append, List.map_cons, declareAll, hleaf, hrun, bind_assoc]
      congr 1
      funext node
      exact hrest (some node)

theorem growHeader_writeRun_append (sink : Sink σ η) {settings : Settings} (parent : η)
    {leaves : List Element} (hleaves : ∀ leaf ∈ leaves, leaf.Writable settings)
    {element : Element} (h : element.Writable settings) :
    growHeader sink settings parent (trim (writeRun leaves ++ element.write)) = (do
      plantRun sink parent leaves
      let node ← element.plant sink parent
      return some node) := by
  rw [trim_writeRun_append hleaves h, growHeader, drafts_writeRun_append hleaves h,
    declareAll_drafts sink parent hleaves h]

/-- The space behind the last leaf of a header is trimmed away. -/
theorem growHeader_writeRun (sink : Sink σ η) {settings : Settings} (parent : η)
    {leaves : List Element} (hleaves : ∀ leaf ∈ leaves, leaf.Writable settings) :
    (do let _ ← growHeader sink settings parent (trim (writeRun leaves))) =
      plantRun sink parent leaves := by
  rcases List.eq_nil_or_concat leaves with rfl | ⟨front, element, rfl⟩
  · rfl
  · have hfront : ∀ leaf ∈ front, leaf.Writable settings :=
      fun leaf hleaf => hleaves leaf (by simp [hleaf])
    have helement : element.Writable settings := hleaves element (by simp)
    have htrim : trim (writeRun (front ++ [element])) =
        trim (writeRun front ++ element.write) := by
      have hspace : ∀ c ∈ [' '], isBlank c := by simp [isBlank]
      rw [← trim_append hspace (writeRun front ++ element.write)]
      simp [writeRun]
    rw [List.concat_eq_append, htrim, growHeader_writeRun_append sink parent hfront helement]
    simp [plantRun]

/-! ### Forests -/

/-- A finite ordered forest: nothing, or an element with the forest of its
children and the forest of the siblings that come after it. -/
inductive Forest where
  | nil
  | cons (element : Element) (children siblings : Forest)
deriving Repr

namespace Forest

/-- A forest as it is written.  A space stands behind a leaf, and braces stand
around children. -/
def write : Forest → List Char
  | nil => []
  | cons element nil siblings => element.write ++ ' ' :: siblings.write
  | cons element children siblings =>
      element.write ++ '{' :: (children.write ++ '}' :: siblings.write)

/-- Every element of a forest can be written. -/
def Writable (settings : Settings) : Forest → Prop
  | nil => True
  | cons element children siblings =>
      element.Writable settings ∧ children.Writable settings ∧ siblings.Writable settings

/-- The calls that a forest stands for: its elements in preorder, each below the
element that encloses it. -/
def plant (sink : Sink σ η) : η → Forest → EStateM TreeError σ Unit
  | _, nil => return
  | parent, cons element children siblings => do
      let node ← element.plant sink parent
      plant sink node children
      plant sink parent siblings

/-- The structure of a written forest, behind some leaves of the same header. -/
def blocks : List Element → Forest → Blocks
  | leaves, nil => .last (writeRun leaves)
  | leaves, cons element nil siblings => blocks (leaves ++ [element]) siblings
  | leaves, cons element children siblings =>
      .block (writeRun leaves ++ element.write) (blocks [] children) (blocks [] siblings)

theorem text_blocks (leaves : List Element) (forest : Forest) :
    (blocks leaves forest).text = writeRun leaves ++ forest.write := by
  induction leaves, forest using blocks.induct with
  | case1 leaves => simp [blocks, Blocks.text, write]
  | case2 leaves element siblings ih => simp [blocks, write, ih, writeRun]
  | case3 leaves element children siblings hne ihChildren ihSiblings =>
      have hrun : writeRun [] = [] := rfl
      simp [blocks, Blocks.text, write, ihChildren, ihSiblings, hrun]

theorem forall_mem_concat {settings : Settings} {leaves : List Element}
    (hleaves : ∀ leaf ∈ leaves, leaf.Writable settings) {element : Element}
    (h : element.Writable settings) :
    ∀ leaf ∈ leaves ++ [element], leaf.Writable settings := by
  intro leaf hleaf
  rcases List.mem_append.mp hleaf with hbefore | hlast
  · exact hleaves leaf hbefore
  · obtain rfl : leaf = element := by simpa using hlast
    exact h

/-- The text of a written forest closes its quotes. -/
theorem after_text_blocks {settings : Settings} {leaves : List Element}
    {forest : Forest} (hleaves : ∀ leaf ∈ leaves, leaf.Writable settings)
    (h : forest.Writable settings) :
    (blocks leaves forest).Fits ∧
      Quote.outside.after (blocks leaves forest).text = .outside := by
  induction leaves, forest using blocks.induct with
  | case1 leaves =>
      exact closed_writeRun hleaves
  | case2 leaves element siblings ih =>
      obtain ⟨helement, -, hsiblings⟩ := h
      rw [blocks]
      exact ih (forall_mem_concat hleaves helement) hsiblings
  | case3 leaves element children siblings hne ihChildren ihSiblings =>
      obtain ⟨helement, hchildren, hsiblings⟩ := h
      have hheader := tidy_writeRun_append hleaves helement
      have hinner := ihChildren (by simp) hchildren
      have hrest := ihSiblings (by simp) hsiblings
      rw [blocks.eq_3 _ _ _ _ hne]
      refine ⟨⟨hheader.free, hheader.closed, hinner.1, hinner.2, hrest.1⟩, ?_⟩
      rw [Blocks.after_text_block hheader.closed hinner.2, hrest.2]

/-- A written forest is grown by the calls that it stands for. -/
theorem grow_blocks (sink : Sink σ η) {settings : Settings} (parent : η)
    {leaves : List Element} {forest : Forest}
    (hleaves : ∀ leaf ∈ leaves, leaf.Writable settings)
    (h : forest.Writable settings) :
    (blocks leaves forest).grow sink settings parent = (do
      plantRun sink parent leaves
      forest.plant sink parent) := by
  induction leaves, forest using blocks.induct generalizing parent with
  | case1 leaves =>
      rw [blocks, Blocks.grow, growHeader_writeRun sink parent hleaves]
      simp [plant]
  | case2 leaves element siblings ih =>
      obtain ⟨helement, -, hsiblings⟩ := h
      rw [blocks, ih parent (forall_mem_concat hleaves helement) hsiblings]
      simp [plantRun, plant]
  | case3 leaves element children siblings hne ihChildren ihSiblings =>
      obtain ⟨helement, hchildren, hsiblings⟩ := h
      have hrun : ∀ target : η, plantRun sink target [] = pure () := fun _ => rfl
      rw [blocks.eq_3 _ _ _ _ hne, Blocks.grow,
        growHeader_writeRun_append sink parent hleaves helement, plant]
      simp [ihChildren _ (by simp) hchildren, ihSiblings _ (by simp) hsiblings, hrun]

end Forest

/-! ### The calls that a recorder writes down -/

/-- The calls of an element that gets the handle `node`. -/
def Element.calls (parent node : Nat) (element : Element) : List Call :=
  .insert parent element.tag ::
    ((if element.attributes = [] then []
      else [.set node (Attributes.ofEntries element.attributes)]) ++
      (element.text.toList.map (.html node) ++ element.key.toList.map (.register node)))

namespace Forest

/-- The number of elements. -/
def size : Forest → Nat
  | nil => 0
  | cons _ children siblings => 1 + children.size + siblings.size

/-- The calls of a forest whose first element gets the handle `node`.  Handles are
given out in preorder. -/
def calls (parent node : Nat) : Forest → List Call
  | nil => []
  | cons element children siblings =>
      element.calls parent node ++ (children.calls node (node + 1) ++
        siblings.calls parent (node + 1 + children.size))

end Forest

section Accepting

variable {recorder : Recorder} (hfail : recorder.failAt = none)
include hfail

theorem Element.plant_run (element : Element) (parent : Nat) :
    element.plant Recorder.sink parent recorder =
      .ok (recorder.inserted + 1)
        (recorder.wrote (element.calls parent (recorder.inserted + 1)) 1) := by
  rw [plant, bind_of_ok (Recorder.insert_run hfail parent element.tag)]
  by_cases hnil : element.attributes = [] <;> cases htext : element.text <;>
    cases hkey : element.key <;>
    simp [bind, EStateM.bind, pure, EStateM.pure, Recorder.set_run, Recorder.html_run,
      Recorder.register_run, hfail, hnil, calls, htext, hkey]

theorem Forest.plant_run (forest : Forest) (parent : Nat) :
    forest.plant Recorder.sink parent recorder =
      .ok ()
        (recorder.wrote (forest.calls parent (recorder.inserted + 1)) forest.size) := by
  induction forest generalizing parent recorder with
  | nil => simp [plant, calls, size, pure, EStateM.pure]
  | cons element children siblings ihChildren ihSiblings =>
      have hhandle : recorder.inserted + (1 + children.size) + 1 =
          recorder.inserted + 1 + 1 + children.size := by omega
      rw [plant, bind_of_ok (element.plant_run hfail parent),
        bind_of_ok (ihChildren (by simpa using hfail) _), Recorder.wrote_wrote,
        ihSiblings (by simpa using hfail) _, Recorder.wrote_wrote]
      simp [calls, size, hhandle]

end Accepting

/-! ### Reading back -/

/-- No operation of a sink ever fails. -/
structure NeverFails (sink : Sink σ η) : Prop where
  insert : ∀ parent spec, Succeeds (sink.insert parent spec)
  set : ∀ node attributes, Succeeds (sink.set node attributes)
  html : ∀ node markup, Succeeds (sink.html node markup)
  register : ∀ key node, Succeeds (sink.register key node)

theorem Element.plant_succeeds {sink : Sink σ η} (h : NeverFails sink) (parent : η)
    (element : Element) : Succeeds (element.plant sink parent) := by
  rw [plant]
  apply (h.insert parent element.tag).bind
  intro node
  have hrest : Succeeds (do
      element.text.forM fun text => sink.html node text
      element.key.forM fun key => sink.register key node
      return node) := by
    apply (Succeeds.forM_option (h.html node) element.text).bind
    intro _
    apply (Succeeds.forM_option (fun key => h.register key node) element.key).bind
    intro _
    exact Succeeds.pure node
  dsimp only
  split
  · exact (h.set node _).bind fun _ => hrest
  · exact hrest

theorem Forest.plant_succeeds {sink : Sink σ η} (h : NeverFails sink) (parent : η)
    (forest : Forest) : Succeeds (forest.plant sink parent) := by
  induction forest generalizing parent with
  | nil => exact Succeeds.pure ()
  | cons element children siblings ihChildren ihSiblings =>
      rw [plant]
      exact (element.plant_succeeds h parent).bind fun node =>
        (ihChildren node).bind fun _ => ihSiblings parent

/-- The text of a written forest. -/
def Forest.markup (forest : Forest) : String :=
  String.ofList forest.write

/-- Parsing a written forest makes exactly the calls that the forest stands for,
in every sink.  A sink that never fails lets the parse succeed, and a recorder
shows the calls one by one. -/
theorem parse_markup {settings : Settings} {forest : Forest}
    (h : forest.Writable settings) :
    (∀ {σ η : Type} (sink : Sink σ η) (parent : η),
      parse sink settings parent forest.markup = (do
        (forest.plant sink parent).adaptExcept .tree
        return parent)) ∧
    (∀ {σ η : Type} (sink : Sink σ η), NeverFails sink → ∀ (parent : η) (s : σ),
      ∃ s', parse sink settings parent forest.markup s = .ok parent s') ∧
    ∀ parent : Nat, parse Recorder.sink settings parent forest.markup {} =
      .ok parent
        { calls := (forest.calls parent 1).toArray, inserted := forest.size } := by
  have hblocks : (Forest.blocks [] forest).Fits ∧
      Quote.outside.after (Forest.blocks [] forest).text = .outside :=
    Forest.after_text_blocks (by simp) h
  have htext : (Forest.blocks [] forest).text = forest.write := by
    simp [Forest.text_blocks, writeRun]
  have hparse : ∀ {σ η : Type} (sink : Sink σ η) (parent : η),
      parse sink settings parent forest.markup = (do
        (forest.plant sink parent).adaptExcept .tree
        return parent) := by
    intro σ η sink parent
    have htoList : forest.markup.toList = (Forest.blocks [] forest).text := by
      simp [Forest.markup, htext]
    rw [parse_eq_grow sink settings parent hblocks.1 htoList,
      Forest.grow_blocks sink parent (by simp) h]
    rfl
  refine ⟨hparse, ?_, ?_⟩
  · intro σ η sink hnever parent s
    obtain ⟨_, s', hrun⟩ := forest.plant_succeeds hnever parent s
    refine ⟨s', ?_⟩
    rw [hparse, bind_of_ok (adaptExcept_of_ok hrun _)]
    rfl
  · intro parent
    rw [hparse, bind_of_ok (adaptExcept_of_ok (forest.plant_run rfl parent) _)]
    simp [pure, EStateM.pure, Recorder.wrote]

/-- A list with an item that quotes a brace and a nested item behind it. -/
theorem parse_markup_list :
    let forest : Forest :=
      .cons ⟨"ul.list", [("title", "a,b\x7d"), ("lang", "\"")], none, none⟩
        (.cons ⟨"li", [], some "x > \x7b", some "one"⟩ .nil
          (.cons ⟨"li", [], none, none⟩ (.cons ⟨"b", [], none, none⟩ .nil .nil) .nil))
        .nil
    forest.Writable .standard ∧
    forest.markup =
      "ul.list<'title':'a,b\x7d','lang':'\"'>\x7bli('x > \x7b')#one li\x7bb \x7d\x7d" ∧
    parse Recorder.sink .standard 7 forest.markup {} = .ok 7
      { calls := #[.insert 7 "ul.list",
          .set 1 (.ofEntries [("title", "a,b\x7d"), ("lang", "\"")]), .insert 1 "li",
          .html 2 "x > \x7b", .register 2 "one", .insert 1 "li", .insert 3 "b"],
        inserted := 4 } := by
  intro forest
  have hkind : ∀ tag ∈ ["ul.list", "li", "b"], Settings.standard.isShorthand
      (String.ofList (tag.toList.takeWhile (· != '.'))).toLower = false := by
    simp only [toLower_ofList]
    decide
  have hlist : Element.Writable .standard
      ⟨"ul.list", [("title", "a,b\x7d"), ("lang", "\"")], none, none⟩ :=
    ⟨by decide, List.all_eq_true.mp (by decide), by simp,
      by unfold Attributes.Quotable; decide, by simp, hkind _ (by simp)⟩
  have hquoted : Element.Writable .standard ⟨"li", [], some "x > \x7b", some "one"⟩ := by
    refine ⟨by decide, List.all_eq_true.mp (by decide), ?_, by simp [Attributes.Quotable], ?_,
      hkind _ (by simp)⟩
    · intro key hkey
      obtain rfl : "one" = key := by simpa using hkey
      exact ⟨by decide, List.all_eq_true.mp (by decide)⟩
    · intro text htext
      obtain rfl : "x > \x7b" = text := by simpa using htext
      decide
  have hitem : Element.Writable .standard ⟨"li", [], none, none⟩ :=
    ⟨by decide, List.all_eq_true.mp (by decide), by simp, by simp [Attributes.Quotable],
      by simp, hkind _ (by simp)⟩
  have hbold : Element.Writable .standard ⟨"b", [], none, none⟩ :=
    ⟨by decide, List.all_eq_true.mp (by decide), by simp, by simp [Attributes.Quotable],
      by simp, hkind _ (by simp)⟩
  have h : forest.Writable .standard :=
    ⟨hlist, ⟨hquoted, trivial, hitem, ⟨hbold, trivial, trivial⟩, trivial⟩, trivial⟩
  obtain ⟨-, -, hcalls⟩ := parse_markup h
  exact ⟨h, by decide, hcalls 7⟩

end Espalier.Markup
