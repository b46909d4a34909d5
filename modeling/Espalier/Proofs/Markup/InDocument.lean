/-
Markup parsed into a document.  Once the braces match, nothing but a missing parent
stops a parse, and that shows at the first element, before anything is built.
-/
import Espalier.Proofs.Markup.Balance
import Espalier.Proofs.Markup.Declared
import Espalier.Proofs.Tree.Building

namespace Espalier.Markup

open Espalier.Text Espalier.Program Espalier.Document

variable {document : Document} {parent : NodeId} (settings : Settings)

/-! ### Below a node that is there -/

/-- A part of a declaration is applied to the new node, if it is written. -/
theorem whenWritten_run (part : String) (call : DocumentM Unit)
    {keys keys' : List String} {tops : List NodeId} {middle : Document}
    (h : Grows parent keys tops document middle) (hblank : part = "" → keys = keys')
    (hcall : part ≠ "" → ∃ after, call middle = .ok () after ∧
      Grows parent keys' tops document after) :
    ∃ after, whenWritten part call middle = .ok () after ∧
      Grows parent keys' tops document after := by
  by_cases hpart : part = ""
  · have hskip : part.isEmpty = true := by simpa using hpart
    rw [whenWritten, if_pos hskip, ← hblank hpart]
    exact ⟨middle, rfl, h⟩
  · have hwritten : ¬ part.isEmpty = true := by simpa using hpart
    rw [whenWritten, if_neg hwritten]
    exact hcall hpart

/-- A part that leaves the place and the key of the new node alone. -/
theorem whenWritten_edit_run (part : String) {change : Node → Node} {key : String}
    {middle : Document} (h : Grows parent [key] [document.arena.nextId] document middle)
    (hchange : ∀ node : Node, (change node).stripped = node.stripped) :
    ∃ after,
      whenWritten part (do let _ ← edit document.arena.nextId change) middle = .ok () after ∧
        Grows parent [key] [document.arena.nextId] document after := by
  have hnew : document.arena.nextId ∈ document.nextIds 1 := List.mem_singleton.mpr rfl
  obtain ⟨held, hheld⟩ := Option.isSome_iff_exists.mp (h.isSome_of_mem_nextIds hnew)
  apply whenWritten_run part _ h (fun _ => rfl)
  intro _
  exact ⟨_, bind_of_ok (edit_of_some hheld change) _, h.edit hchange hnew⟩

section There

variable (h : (document.arena.get? parent).isSome)
include h

/-- A declaration becomes the next node, the last child of the parent. -/
theorem declare_run (draft : Draft) :
    ∃ after, declare sink settings parent draft document = .ok document.arena.nextId after ∧
      Grows parent [draft.key] [document.arena.nextId] document after := by
  let node := document.arena.nextId
  let spec := (settings.expand draft.tag draft.params).1
  let params := (settings.expand draft.tag draft.params).2
  obtain ⟨first, hinsert, hfirst⟩ := insert_run h spec
  obtain ⟨second, hset, hsecond⟩ := whenWritten_edit_run params hfirst
    (fun held => held.stripped_setAttributes (Attributes.ofBlock params).toList)
  let content := Content.html (String.ofList (unquote (trim draft.text.toList)))
  obtain ⟨third, hhtml, hthird⟩ := whenWritten_edit_run draft.text hsecond
    (fun held => held.stripped_content (some content))
  have hkey : ∃ after,
      whenWritten draft.key (sink.register draft.key node) third = .ok () after ∧
        Grows parent [draft.key] [node] document after := by
    apply whenWritten_run draft.key _ hthird
    · intro hblank
      rw [hblank]
    · intro hwritten
      obtain ⟨after, hrun, hafter⟩ := hthird.register_run hwritten
      exact ⟨after, bind_of_ok hrun _, hafter⟩
  obtain ⟨after, hregister, hafter⟩ := hkey
  refine ⟨after, ?_, hafter⟩
  rw [declare_eq]
  dsimp only
  rw [bind_of_ok (show sink.insert parent spec document = .ok node first from hinsert),
    bind_of_ok (show whenWritten params (sink.set node _) first = .ok () second from hset),
    bind_of_ok (show whenWritten draft.text (sink.html node _) second = .ok () third from hhtml),
    bind_of_ok hregister]
  rfl

/-- The declarations of a header become the next nodes, in order, all of them children
of the parent. -/
theorem declareAll_run (drafts : List Draft) (last : Option NodeId) :
    ∃ after, declareAll sink settings parent last drafts document =
        .ok ((document.nextIds drafts.length).getLast?.or last) after ∧
      Grows parent (drafts.map Draft.key) (document.nextIds drafts.length) document after := by
  induction drafts generalizing document last with
  | nil => exact ⟨document, rfl, Grows.refl parent document⟩
  | cons draft rest ih =>
      obtain ⟨middle, hrun, hfirst⟩ := declare_run settings h draft
      obtain ⟨after, hrest, hsecond⟩ := ih (hfirst.isSome h) (some document.arena.nextId)
      have hids : document.nextIds (draft :: rest).length =
          [document.arena.nextId] ++ middle.nextIds rest.length := by
        have hsize : middle.size = document.size + 1 := hfirst.size
        rw [List.length_cons, Nat.add_comm, nextIds_add hsize, nextIds_one]
      refine ⟨after, ?_, ?_⟩
      · rw [declareAll, bind_of_ok hrun, hrest, hids]
        simp [List.getLast?_cons]
      · rw [hids]
        exact hfirst.trans hsecond (isSome_iff.mp h)

theorem growHeader_run (header : List Char) :
    ∃ after, growHeader sink settings parent header document =
        .ok (document.nextIds (drafts header).length).getLast? after ∧
      Grows parent ((drafts header).map Draft.key)
        (document.nextIds (drafts header).length) document after := by
  obtain ⟨after, hrun, hgrows⟩ := declareAll_run settings h (drafts header) none
  rw [Option.or_none] at hrun
  exact ⟨after, hrun, hgrows⟩

/-- A structure is grown below the parent: the elements of a body stand below the last
element of the header in front of it. -/
theorem grow_run (blocks : Blocks) :
    ∃ after tops, blocks.grow sink settings parent document = .ok () after ∧
      Grows parent (blocks.declarations.map Draft.key) tops document after := by
  induction blocks generalizing document parent with
  | last header =>
      obtain ⟨after, hrun, hgrows⟩ := growHeader_run settings h (trim header)
      exact ⟨after, _, bind_of_ok hrun _, hgrows⟩
  | block header body rest ihBody ihRest =>
      let declared := drafts (trim header)
      obtain ⟨first, hheader, hfirst⟩ := growHeader_run settings h (trim header)
      have hinner : ∃ second tops,
          body.grow sink settings ((document.nextIds declared.length).getLast?.getD parent)
            first = .ok () second ∧
          Grows parent (declared.map Draft.key ++ body.declarations.map Draft.key) tops
            document second := by
        cases hlast : (document.nextIds declared.length).getLast? with
        | none =>
            obtain ⟨second, tops, hbody, hsecond⟩ := ihBody (hfirst.isSome h)
            exact ⟨second, _, hbody, hfirst.trans hsecond (isSome_iff.mp h)⟩
        | some target =>
            rw [← List.length_map Draft.key] at hfirst hlast
            have htarget := hfirst.isSome_of_mem_nextIds (List.mem_of_getLast? hlast)
            obtain ⟨second, tops, hbody, hsecond⟩ := ihBody htarget
            exact ⟨second, _, hbody, hfirst.nest hlast hsecond⟩
      obtain ⟨second, tops, hbody, hsecond⟩ := hinner
      obtain ⟨after, tops', hrest, hthird⟩ := ihRest (hsecond.isSome h)
      refine ⟨after, tops ++ tops', ?_, ?_⟩
      · rw [Blocks.grow, bind_of_ok hheader, bind_of_ok hbody, hrest]
      · rw [Blocks.declarations, List.map_append, List.map_append, ← List.append_assoc]
        exact hsecond.trans hthird (isSome_iff.mp h)

end There

/-! ### Below an id that no node has -/

section Missing

variable (h : document.arena.get? parent = none)
include h

theorem declare_of_none (draft : Draft) :
    declare sink settings parent draft document = .error (.unknownNode parent) document := by
  have hinsert : ∀ spec, sink.insert parent spec document =
      .error (.unknownNode parent) document :=
    fun spec => bind_of_error (fetchM_of_none h) _
  rw [declare_eq]
  exact bind_of_error (hinsert _) _

theorem growHeader_of_none (header : List Char) :
    growHeader sink settings parent header document =
      if drafts header = [] then .ok none document
      else .error (.unknownNode parent) document := by
  rw [growHeader]
  cases drafts header with
  | nil => rfl
  | cons draft rest =>
      rw [declareAll, bind_of_error (declare_of_none settings h draft), if_neg (by simp)]

/-- The first element that is declared fails, and nothing comes before it. -/
theorem grow_of_none (blocks : Blocks) :
    blocks.grow sink settings parent document =
      if blocks.declarations = [] then .ok () document
      else .error (.unknownNode parent) document := by
  induction blocks with
  | last header =>
      have hheader := growHeader_of_none settings h (trim header)
      by_cases hnone : drafts (trim header) = []
      · rw [if_pos hnone] at hheader
        rw [Blocks.grow, bind_of_ok hheader, Blocks.declarations, if_pos hnone]
        rfl
      · rw [if_neg hnone] at hheader
        rw [Blocks.grow, bind_of_error hheader, Blocks.declarations, if_neg hnone]
  | block header body rest ihBody ihRest =>
      have hheader := growHeader_of_none settings h (trim header)
      by_cases hnone : drafts (trim header) = []
      · rw [if_pos hnone] at hheader
        rw [Blocks.grow, bind_of_ok hheader, Blocks.declarations, hnone, List.nil_append,
          Option.getD_none]
        by_cases hbody : body.declarations = []
        · rw [if_pos hbody] at ihBody
          rw [bind_of_ok ihBody, ihRest, hbody, List.nil_append]
        · rw [if_neg hbody] at ihBody
          rw [bind_of_error ihBody, if_neg (by simp [hbody])]
      · rw [if_neg hnone] at hheader
        rw [Blocks.grow, bind_of_error hheader, Blocks.declarations, if_neg (by simp [hnone])]

end Missing

/-! ### Whole texts -/

variable (document parent) in
/-- The three ways in which a parse can go: a brace fault, a missing parent, or a tree. -/
theorem parse_cases (text : String) :
    (∃ fault, Pairing.ofText text.toList = .error fault ∧
      parse sink settings parent text document = .error (.braces fault) document) ∨
    (Accepted text.toList ∧ document.arena.get? parent = none ∧
      declarations text.toList ≠ [] ∧
      parse sink settings parent text document =
        .error (.tree (.unknownNode parent)) document) ∨
    (Accepted text.toList ∧
      ((document.arena.get? parent).isSome ∨ declarations text.toList = []) ∧
      ∃ after tops, parse sink settings parent text document = .ok parent after ∧
        Grows parent ((declarations text.toList).map Draft.key) tops document after) := by
  cases hpairing : Pairing.ofText text.toList with
  | error fault =>
      exact Or.inl ⟨fault, rfl, parse_of_fault sink settings parent hpairing document⟩
  | ok pairing =>
      have haccepted : Accepted text.toList := ⟨pairing, hpairing⟩
      obtain ⟨blocks, hfits, htext⟩ := accepted_iff.mp haccepted
      have hparse := parse_eq_grow sink settings parent hfits htext
      rw [hparse, htext, declarations_text hfits]
      rw [htext] at haccepted
      cases hparent : document.arena.get? parent with
      | none =>
          have hgrow := grow_of_none settings hparent blocks
          by_cases hnone : blocks.declarations = []
          · rw [if_pos hnone] at hgrow
            refine Or.inr (Or.inr ⟨haccepted, Or.inr hnone, document, [], ?_, ?_⟩)
            · rw [bind_of_ok (adaptExcept_of_ok hgrow _)]
              rfl
            · rw [hnone]
              exact Grows.refl parent document
          · rw [if_neg hnone] at hgrow
            refine Or.inr (Or.inl ⟨haccepted, rfl, hnone, ?_⟩)
            rw [bind_of_error (adaptExcept_of_error hgrow _)]
      | some above =>
          obtain ⟨after, tops, hgrow, hgrows⟩ :=
            grow_run settings (Option.isSome_of_eq_some hparent) blocks
          refine Or.inr (Or.inr ⟨haccepted, Or.inl rfl, after, tops, ?_, hgrows⟩)
          rw [bind_of_ok (adaptExcept_of_ok hgrow _)]
          rfl

variable (document parent) in
/-- A parse fails exactly if the bare braces of the text do not match, or if the parent
is missing and the text declares an element; and then the document is as it was. -/
theorem parse_atomic (text : String) :
    ((∃ error after, parse sink settings parent text document = .error error after) ↔
      ¬ Balanced .outside text.toList ∨
        (document.arena.get? parent = none ∧ declarations text.toList ≠ [])) ∧
    (∀ error after, parse sink settings parent text document = .error error after →
      after = document ∧
        ((¬ Balanced .outside text.toList ∧
            ∃ fault, Pairing.ofText text.toList = .error fault ∧ error = .braces fault) ∨
          (Balanced .outside text.toList ∧ error = .tree (.unknownNode parent)))) ∧
    ∀ answer after, parse sink settings parent text document = .ok answer after →
      answer = parent := by
  rw [← accepted_iff_balanced]
  rcases parse_cases document parent settings text with
    ⟨fault, hfault, hrun⟩ | ⟨haccepted, hmissing, hdeclared, hrun⟩ |
      ⟨haccepted, hpresent, after, tops, hrun, -⟩
  · have hnot : ¬ Accepted text.toList := by
      rintro ⟨pairing, hpairing⟩
      rw [hfault] at hpairing
      contradiction
    refine ⟨iff_of_true ⟨_, _, hrun⟩ (Or.inl hnot), ?_, ?_⟩
    · intro error after herror
      rw [hrun] at herror
      cases herror
      exact ⟨rfl, Or.inl ⟨hnot, fault, hfault, rfl⟩⟩
    · intro answer after hok
      rw [hrun] at hok
      contradiction
  · refine ⟨iff_of_true ⟨_, _, hrun⟩ (Or.inr ⟨hmissing, hdeclared⟩), ?_, ?_⟩
    · intro error after herror
      rw [hrun] at herror
      cases herror
      exact ⟨rfl, Or.inr ⟨haccepted, rfl⟩⟩
    · intro answer after hok
      rw [hrun] at hok
      contradiction
  · have hneither : ¬ (¬ Accepted text.toList ∨
        (document.arena.get? parent = none ∧ declarations text.toList ≠ [])) := by
      rintro (hnot | ⟨hmissing, hdeclared⟩)
      · exact hnot haccepted
      · rcases hpresent with hthere | hnone
        · rw [hmissing] at hthere
          contradiction
        · exact hdeclared hnone
    refine ⟨iff_of_false ?_ hneither, ?_, ?_⟩
    · rintro ⟨error, other, herror⟩
      rw [hrun] at herror
      contradiction
    · intro error other herror
      rw [hrun] at herror
      contradiction
    · intro answer other hok
      rw [hrun] at hok
      cases hok
      rfl

/-- A missing parent whose text has a quoted brace, and a declaration in a block. -/
theorem parse_atomic_missing_parent :
    let document := Document.new "body"
    let text := "\x7b'\x7d'b\x7d"
    Balanced .outside text.toList ∧ declarations text.toList ≠ [] ∧
      parse sink .standard 7 text document = .error (.tree (.unknownNode 7)) document := by
  intro document text
  let blocks : Blocks := .block [] (.last "'\x7d'b".toList) (.last [])
  have hfits : blocks.Fits := by decide
  have htext : text.toList = blocks.text := by decide
  have hbalanced : Balanced .outside text.toList := htext ▸ Blocks.balanced_text hfits
  have hdeclared : declarations text.toList ≠ [] := by
    rw [htext, declarations_text hfits]
    decide
  obtain ⟨hiff, herror, -⟩ := parse_atomic document 7 .standard text
  obtain ⟨error, after, hrun⟩ := hiff.mpr (Or.inr ⟨rfl, hdeclared⟩)
  obtain ⟨rfl, ⟨hnot, -⟩ | ⟨-, rfl⟩⟩ := herror error after hrun
  · contradiction
  · exact ⟨hbalanced, hdeclared, hrun⟩

variable (document) in
theorem exists_parse (hparent : (document.arena.get? parent).isSome) {text : String}
    (haccepted : Accepted text.toList) :
    ∃ after tops, parse sink settings parent text document = .ok parent after ∧
      Grows parent ((declarations text.toList).map Draft.key) tops document after := by
  rcases parse_cases document parent settings text with
    ⟨fault, hfault, -⟩ | ⟨-, hmissing, -⟩ | ⟨-, -, hrun⟩
  · obtain ⟨pairing, hpairing⟩ := haccepted
    rw [hfault] at hpairing
    contradiction
  · rw [hmissing] at hparent
    contradiction
  · exact hrun

/-- What a parse builds below a node of a reached document, from a text that the brace
pass accepts.  The declarations of the text become the next nodes, in document order
and behind all that lay below the parent.  The nodes that were there keep everything,
but that the parent lists the new tops behind its children, and that a node whose key is
declared again forgets it.  A key leads to the last new node that is declared with it,
or else to where it led. -/
theorem parse_builds (hreach : Reachable document)
    (hparent : (document.arena.get? parent).isSome) {text : String}
    (haccepted : Accepted text.toList)
    (hroom : (stateAfter (parse sink settings parent text document)).size ≤ UInt32.size) :
    ∃ after old tops,
      let keys := (declarations text.toList).map Draft.key
      parse sink settings parent text document = .ok parent after ∧
      after.size = document.size + keys.length ∧
      document.descendants parent = .ok old ∧
      after.descendants parent =
        .ok (old ++ (List.range' document.size keys.length).map UInt32.ofNat) ∧
      (∀ id node, document.arena.get? id = some node → after.arena.get? id = some
        { node with
          children := node.children ++ (if id = parent then tops else [])
          key := node.key.filter fun key => !rebound keys key }) ∧
      ∀ key, after.resolve key =
        (lastNamed key document.size keys).or (document.resolve key) := by
  obtain ⟨after, tops, hrun, hgrows⟩ := exists_parse document settings hparent haccepted
  rw [hrun] at hroom
  have hafter : Reachable after := by
    have hstep := hreach.step (.parse settings parent text)
    rw [Operation.apply, hrun] at hstep
    exact hstep
  have hsize := hgrows.size
  have hgrown : document.size ≤ after.size := by omega
  obtain ⟨hsound, hbound⟩ := keyedInRoom_of_reachable hreach (Nat.le_trans hgrown hroom)
  obtain ⟨hsound', -⟩ := keyedInRoom_of_reachable hafter hroom
  have hbuilt := hgrows.built hbound hroom
  have horder := hbuilt.preorder_eq hsound.shape hsound'.shape (isSome_iff.mp hparent)
  refine ⟨after, _, tops, hrun, hsize, hsound.descendants ?_, ?_, hbuilt.kept, hbuilt.resolve⟩
  · rw [Arena.isSome_shape_iff]
    exact hparent
  · rw [hsound'.descendants, horder]
    · rfl
    · rw [Arena.isSome_shape_iff]
      exact hgrows.isSome hparent

/-- A text that declares a key twice takes it from a node that is there. -/
theorem parse_builds_rebound :
    let calls : List Operation := [.insert 0 "p", .register 1 "a"]
    let document := calls.foldl Operation.apply (Document.new "body")
    let text := "b#a\x7bc\x7dd#a"
    Reachable document ∧ document.keyOf 1 = some "a" ∧
      ∃ after, parse sink .standard 0 text document = .ok 0 after ∧
        after.descendants 0 = .ok [0, 1, 2, 3, 4] ∧ after.keyOf 1 = none ∧
        after.resolve "a" = some 4 := by
  intro calls document text
  have hreach : Reachable document := ((Reachable.new "body").step (.insert 0 "p")).step
    (.register 1 "a")
  let blocks : Blocks := .block "b#a".toList (.last ['c']) (.last "d#a".toList)
  have hfits : blocks.Fits := by decide
  have htext : text.toList = blocks.text := by decide
  have haccepted : Accepted text.toList := accepted_iff.mpr ⟨blocks, hfits, htext⟩
  have hkeys : (declarations text.toList).map Draft.key = ["a", "", "a"] := by
    rw [htext, declarations_text hfits]
    decide
  have hparent : (document.arena.get? 0).isSome := by decide
  have hsize : document.size = 2 := by decide
  obtain ⟨built, _, hbuilt, hgrows⟩ := exists_parse document .standard hparent haccepted
  have hroom : (stateAfter (parse sink .standard 0 text document)).size ≤ UInt32.size := by
    rw [hbuilt, stateAfter, hgrows.size, hkeys, hsize]
    decide
  obtain ⟨after, old, tops, hrun, -, hold, hnew, hkept, hresolve⟩ :=
    parse_builds .standard hreach hparent haccepted hroom
  rw [hkeys] at hnew hkept hresolve
  have hkey : document.keyOf 1 = some "a" := by decide
  have hpreorder : document.arena.preorder 0 = [0, 1] := by decide
  refine ⟨hreach, hkey, after, hrun, ?_, ?_, ?_⟩
  · have hsound := soundInRoom_of_reachable hreach (by rw [hsize]; decide)
    rw [hsound.descendants (by decide), hpreorder] at hold
    obtain rfl := Except.ok.inj hold
    rw [hnew, hsize]
    rfl
  · obtain ⟨node, hnode, hheld⟩ := Option.bind_eq_some_iff.mp hkey
    rw [keyOf, hkept 1 node hnode]
    simp [hheld, rebound, Option.filter]
  · rw [hresolve, hsize]
    rfl

end Espalier.Markup
