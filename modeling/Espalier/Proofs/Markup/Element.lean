/-
The written form of one element, `tag<'k':'v'>('text')#key`, and what a header
scan, the attribute block and the declaration make of it.
-/
import Espalier.Markup.Declaration
import Espalier.Proofs.Attributes.Written
import Espalier.Proofs.Markup.Blocks

namespace Espalier.Markup

open Espalier.Text

/-- A character that stands for itself in a tag or a key. -/
def isPlain (c : Char) : Bool :=
  ' ' < c && !isBlank c && !(['\'', '"', '<', '(', '#', '{', '}'].contains c)

/-- An element without its children. -/
structure Element where
  tag : String
  attributes : List (String × String) := []
  text : Option String := none
  key : Option String := none
deriving DecidableEq, Repr

namespace Element

/-- The attributes between `<` and `>`, if there are any. -/
def writeParams (attributes : List (String × String)) : List Char :=
  if attributes = [] then [] else '<' :: (Attributes.write attributes ++ ['>'])

/-- The text as `('text')`, if there is one. -/
def writeText : Option String → List Char
  | some text => '(' :: (quoted text.toList ++ [')'])
  | none => []

/-- The key behind `#`, if there is one. -/
def writeKey : Option String → List Char
  | some key => '#' :: key.toList
  | none => []

/-- An element as it is written. -/
def write (element : Element) : List Char :=
  element.tag.toList ++ (writeParams element.attributes ++
    (writeText element.text ++ writeKey element.key))

/-- What the parts of an element may hold, so that they can be written. -/
structure Writable (settings : Settings) (element : Element) : Prop where
  tag_ne : element.tag ≠ ""
  tag_plain : ∀ c ∈ element.tag.toList, isPlain c
  key_plain : ∀ key, element.key = some key →
    key ≠ "" ∧ ∀ c ∈ key.toList, isPlain c
  attributes_quotable : Attributes.Quotable element.attributes
  text_quotable : ∀ text, element.text = some text → '\'' ∉ text.toList
  no_shorthand : settings.isShorthand
    (String.ofList (element.tag.toList.takeWhile (· != '.'))).toLower = false

/-- The parts of an element as a header scan reads them. -/
def draft (element : Element) : Draft where
  tag := element.tag
  params := String.ofList (Attributes.write element.attributes)
  text := (element.text.map fun text => String.ofList (quoted text.toList)).getD ""
  key := element.key.getD ""

end Element

/-! ### Plain and quoted characters -/

section Characters

variable {cs : List Char}

theorem not_isQuoteMark_of_isPlain {c : Char} (h : isPlain c) : isQuoteMark c = false := by
  simp_all [isPlain, isQuoteMark]

theorem not_isBlank_of_isPlain {c : Char} (h : isPlain c) : isBlank c = false := by
  simp_all [isPlain]

theorem notBrace_of_isPlain {c : Char} (h : isPlain c) : notBrace c := by
  simp_all [isPlain, notBrace]

theorem action_of_isPlain {c : Char} (h : isPlain c) :
    Mode.tag.action c = .keep ∧ Mode.key.action c = .keep ∧
      Mode.between.action c = .start := by
  simp_all [isPlain, Mode.action]

theorem after_of_plain (h : ∀ c ∈ cs, isPlain c) : Quote.outside.after cs = .outside :=
  Quote.after_of_no_marks fun c hc => not_isQuoteMark_of_isPlain (h c hc)

end Characters

/-! ### The header scan -/

/-- Add a whole text to the part that a mode reads. -/
def Draft.extend (draft : Draft) (mode : Mode) (cs : List Char) : Draft :=
  match mode with
  | .tag => { draft with tag := draft.tag ++ String.ofList cs }
  | .params => { draft with params := draft.params ++ String.ofList cs }
  | .text => { draft with text := draft.text ++ String.ofList cs }
  | .key => { draft with key := draft.key ++ String.ofList cs }
  | .between | .detached => draft

theorem Draft.extend_cons (draft : Draft) (mode : Mode) (c : Char) (cs : List Char) :
    draft.extend mode (c :: cs) = (draft.push mode c).extend mode cs := by
  cases mode <;> simp only [extend, push, append_ofList_cons]

namespace HeaderScan

/-- A scan that stands outside quotes. -/
def outside (mode : Mode) (draft : Draft) (drafts : Array Draft) : HeaderScan :=
  { quote := .outside, mode, draft, drafts }

/-- Characters that are literal, or that the mode keeps, extend the part being
read. -/
theorem foldl_feed_of_keeps {scan : HeaderScan} {cs : List Char}
    (h : scan.quote.bareAll (fun c => scan.mode.action c == .keep) cs) :
    cs.foldl feed scan =
      { scan with
        quote := scan.quote.after cs
        draft := scan.draft.extend scan.mode cs } := by
  induction cs generalizing scan with
  | nil =>
      cases hmode : scan.mode <;> simp [Draft.extend, ← hmode]
  | cons c cs ih =>
      rw [Quote.bareAll, Bool.and_eq_true] at h
      have hfeed : scan.feed c =
          { scan with quote := scan.quote.next c, draft := scan.draft.push scan.mode c } := by
        by_cases hliteral : scan.quote.literal c = true
        · simp [feed, Quote.feed, hliteral, push]
        · have hkeep : scan.mode.action c = .keep := by simpa [hliteral] using h.1
          simp [feed, Quote.feed, hliteral, hkeep, push]
      rw [List.foldl_cons, hfeed, ih h.2, Draft.extend_cons, Quote.after_cons]

/-- A bare character that changes the mode is dropped. -/
theorem feed_of_enter {mode next : Mode} {c : Char} (draft : Draft)
    (drafts : Array Draft) (hmark : isQuoteMark c = false)
    (haction : mode.action c = .enter next) :
    (outside mode draft drafts).feed c = outside next draft drafts := by
  simp [outside, feed, Quote.feed, Quote.literal, Quote.next, hmark, haction]

/-- A bare character that ends a declaration is dropped. -/
theorem feed_of_finish {scan : HeaderScan} (hquote : scan.quote = .outside) {c : Char}
    (hmark : isQuoteMark c = false) (haction : scan.mode.action c = .finish) :
    scan.feed c = scan.endDraft := by
  obtain ⟨quote, mode, draft, drafts⟩ := scan
  obtain rfl : quote = .outside := hquote
  simp [feed, Quote.feed, Quote.literal, Quote.next, hmark, haction]

/-- A bracketed text extends the part that its brackets stand for. -/
theorem foldl_feed_bracketed {mode part : Mode} {opening closing : Char}
    (hopening : isQuoteMark opening = false) (hclosing : isQuoteMark closing = false)
    (hopen : mode.action opening = .enter part)
    (hclose : part.action closing = .enter .detached) {cs : List Char}
    (hkeep : Quote.outside.bareAll (fun c => part.action c == .keep) cs)
    (hafter : Quote.outside.after cs = .outside) (draft : Draft)
    (drafts : Array Draft) :
    (opening :: (cs ++ [closing])).foldl feed (outside mode draft drafts) =
      outside .detached (draft.extend part cs) drafts := by
  have hinside : cs.foldl feed (outside part draft drafts) =
      outside part (draft.extend part cs) drafts := by
    rw [foldl_feed_of_keeps hkeep]
    simp only [outside, hafter]
  rw [List.foldl_cons, feed_of_enter draft drafts hopening hopen, List.foldl_append,
    hinside, List.foldl_cons, feed_of_enter _ drafts hclosing hclose, List.foldl_nil]

/-- A declaration that may still get a bracketed part. -/
def TakesParts (mode : Mode) : Prop :=
  mode = .tag ∨ mode = .detached

theorem foldl_feed_tag {mode : Mode} (hmode : mode = .tag ∨ mode = .between)
    {tag : String} (hne : tag ≠ "") (hplain : ∀ c ∈ tag.toList, isPlain c)
    (drafts : Array Draft) :
    tag.toList.foldl feed (outside mode {} drafts) = outside .tag { tag } drafts := by
  obtain ⟨c, cs, htag⟩ : ∃ c cs, tag.toList = c :: cs := by
    apply List.exists_cons_of_ne_nil
    simpa using hne
  have hc : isPlain c := hplain c (by simp [htag])
  have hcs : ∀ d ∈ cs, isPlain d := fun d hd => hplain d (by simp [htag, hd])
  obtain ⟨hkeep, -, hstart⟩ := action_of_isPlain hc
  have hmark := not_isQuoteMark_of_isPlain hc
  have hfirst : (outside mode {} drafts).feed c =
      outside .tag (({} : Draft).push .tag c) drafts := by
    rcases hmode with rfl | rfl
    · simp [outside, feed, Quote.feed, Quote.literal, Quote.next, hmark, hkeep, push]
    · simp [outside, feed, Quote.feed, Quote.literal, Quote.next, hmark, hstart, push]
  have hrest : Quote.outside.bareAll (fun d => Mode.tag.action d == .keep) cs :=
    Quote.bareAll_of_forall (fun d hd => by simp [action_of_isPlain (hcs d hd)]) _
  rw [htag, List.foldl_cons, hfirst, foldl_feed_of_keeps hrest]
  have hall : ({} : Draft).extend .tag (c :: cs) = { tag } := by
    simp [Draft.extend, ← htag]
  simp only [outside, after_of_plain hcs, ← Draft.extend_cons, hall]

theorem foldl_feed_params {attributes : List (String × String)}
    (h : Attributes.Quotable attributes) {mode : Mode} (hmode : TakesParts mode)
    (draft : Draft) (drafts : Array Draft) :
    ∃ next, TakesParts next ∧
      (Element.writeParams attributes).foldl feed (outside mode draft drafts) =
        outside next
          (draft.extend .params (Attributes.write attributes)) drafts := by
  by_cases hnil : attributes = []
  · subst hnil
    refine ⟨mode, hmode, ?_⟩
    simp [Element.writeParams, Attributes.write, Draft.extend]
  · obtain ⟨hkeep, hafter⟩ := Attributes.bareAll_write
      (fun c => Mode.params.action c == .keep) rfl rfl h
    refine ⟨.detached, Or.inr rfl, ?_⟩
    rw [Element.writeParams, if_neg hnil]
    have hopen : mode.action '<' = .enter .params := by
      rcases hmode with rfl | rfl <;> rfl
    exact foldl_feed_bracketed rfl rfl hopen rfl hkeep hafter draft drafts

theorem foldl_feed_text {text : Option String}
    (h : ∀ inner, text = some inner → '\'' ∉ inner.toList) {mode : Mode}
    (hmode : TakesParts mode) (draft : Draft) (drafts : Array Draft) :
    ∃ next, TakesParts next ∧
      (Element.writeText text).foldl feed (outside mode draft drafts) =
        outside next
          (draft.extend .text ((text.map (quoted ·.toList)).getD [])) drafts := by
  cases text with
  | none =>
      refine ⟨mode, hmode, ?_⟩
      simp [Element.writeText, Draft.extend]
  | some inner =>
      refine ⟨.detached, Or.inr rfl, ?_⟩
      have hopen : mode.action '(' = .enter .text := by
        rcases hmode with rfl | rfl <;> rfl
      exact foldl_feed_bracketed rfl rfl hopen rfl (bareAll_quoted (h inner rfl))
        (after_quoted (h inner rfl)) draft drafts

/-- A declaration that a character at or below the space ends. -/
def EndsAtSpace (mode : Mode) : Prop :=
  mode = .tag ∨ mode = .detached ∨ mode = .key

theorem foldl_feed_key {key : Option String}
    (h : ∀ name, key = some name → ∀ c ∈ name.toList, isPlain c) {mode : Mode}
    (hmode : TakesParts mode) (draft : Draft) (drafts : Array Draft) :
    ∃ next, EndsAtSpace next ∧
      (Element.writeKey key).foldl feed (outside mode draft drafts) =
        outside next (draft.extend .key (key.getD "").toList) drafts := by
  cases key with
  | none =>
      refine ⟨mode, hmode.imp_right Or.inl, ?_⟩
      simp [Element.writeKey, Draft.extend]
  | some name =>
      have hplain := h name rfl
      have hopen : mode.action '#' = .enter .key := by
        rcases hmode with rfl | rfl <;> rfl
      have hkeep : Quote.outside.bareAll (fun c => Mode.key.action c == .keep)
          name.toList :=
        Quote.bareAll_of_forall (fun c hc => by simp [action_of_isPlain (hplain c hc)]) _
      refine ⟨.key, Or.inr (Or.inr rfl), ?_⟩
      rw [Element.writeKey, List.foldl_cons, feed_of_enter draft drafts rfl hopen,
        foldl_feed_of_keeps hkeep]
      simp only [outside, after_of_plain hplain, Option.getD_some]

/-- A written element is read as its draft. -/
theorem foldl_feed_write {settings : Settings} {element : Element}
    (h : element.Writable settings) {mode : Mode}
    (hmode : mode = .tag ∨ mode = .between) (drafts : Array Draft) :
    ∃ next, EndsAtSpace next ∧
      element.write.foldl feed (outside mode {} drafts) =
        outside next element.draft drafts := by
  have htag := foldl_feed_tag hmode h.tag_ne h.tag_plain drafts
  obtain ⟨second, hsecond, hparams⟩ := foldl_feed_params h.attributes_quotable
    (Or.inl rfl) { tag := element.tag } drafts
  obtain ⟨third, hthird, htext⟩ := foldl_feed_text h.text_quotable hsecond
    (Draft.extend { tag := element.tag } .params
      (Attributes.write element.attributes)) drafts
  obtain ⟨last, hlast, hkey⟩ := foldl_feed_key (fun key hkey => (h.key_plain key hkey).2)
    hthird _ drafts
  refine ⟨last, hlast, ?_⟩
  rw [Element.write, List.foldl_append, htag, List.foldl_append, hparams,
    List.foldl_append, htext, hkey]
  cases htextCase : element.text <;>
    simp [Draft.extend, Element.draft, htextCase]

/-- The end of a written element completes its draft. -/
theorem endDraft_draft {settings : Settings} {element : Element}
    (h : element.Writable settings) (mode : Mode) (drafts : Array Draft) :
    (outside mode element.draft drafts).endDraft =
      outside .between {} (drafts.push element.draft) := by
  have hne : element.draft.isEmpty = false := by
    simp [Draft.isEmpty, Element.draft, h.tag_ne]
  simp [endDraft, outside, hne]

/-- A space completes a draft outside its bracketed parts. -/
theorem feed_space {mode : Mode} (hmode : EndsAtSpace mode) (draft : Draft)
    (drafts : Array Draft) :
    (outside mode draft drafts).feed ' ' = (outside mode draft drafts).endDraft := by
  have hfinish : mode.action ' ' = .finish := by
    rcases hmode with rfl | rfl | rfl <;> rfl
  exact feed_of_finish rfl rfl hfinish

end HeaderScan

/-- Leaves as they are written one after the other, with a space behind each. -/
def writeRun (leaves : List Element) : List Char :=
  leaves.flatMap fun leaf => leaf.write ++ [' ']

theorem foldl_feed_writeRun {settings : Settings} {leaves : List Element}
    (h : ∀ leaf ∈ leaves, leaf.Writable settings) {mode : Mode}
    (hmode : mode = .tag ∨ mode = .between) (before : Array Draft) :
    ∃ next, (next = .tag ∨ next = .between) ∧
      (writeRun leaves).foldl HeaderScan.feed (HeaderScan.outside mode {} before) =
        HeaderScan.outside next {} (before ++ (leaves.map Element.draft).toArray) := by
  induction leaves generalizing mode before with
  | nil => exact ⟨mode, hmode, by simp [writeRun]⟩
  | cons leaf rest ih =>
      have hleaf := h leaf List.mem_cons_self
      obtain ⟨last, hlast, hwrite⟩ := HeaderScan.foldl_feed_write hleaf hmode before
      obtain ⟨next, hnext, hrest⟩ := ih
        (fun other hother => h other (List.mem_cons_of_mem leaf hother))
        (Or.inr rfl) (before.push leaf.draft)
      refine ⟨next, hnext, ?_⟩
      have hrun : writeRun (leaf :: rest) = leaf.write ++ ' ' :: writeRun rest := by
        simp [writeRun]
      rw [hrun, List.foldl_append, hwrite, List.foldl_cons,
        HeaderScan.feed_space hlast, HeaderScan.endDraft_draft hleaf, hrest]
      simp

/-- The drafts of some leaves and of the element that ends the header. -/
theorem drafts_writeRun_append {settings : Settings} {leaves : List Element}
    (hleaves : ∀ leaf ∈ leaves, leaf.Writable settings) {element : Element}
    (h : element.Writable settings) :
    drafts (writeRun leaves ++ element.write) = (leaves ++ [element]).map Element.draft := by
  obtain ⟨mode, hmode, hrun⟩ := foldl_feed_writeRun hleaves (Or.inl rfl) #[]
  obtain ⟨last, -, hwrite⟩ := HeaderScan.foldl_feed_write h hmode
    (#[] ++ (leaves.map Element.draft).toArray)
  have hscan : HeaderScan.ofHeader (writeRun leaves ++ element.write) =
      HeaderScan.outside last element.draft (leaves.map Element.draft).toArray := by
    change List.foldl HeaderScan.feed (HeaderScan.outside .tag {} #[]) _ = _
    rw [List.foldl_append, hrun, hwrite]
    simp
  rw [drafts, hscan, HeaderScan.endDraft_draft h]
  simp [HeaderScan.outside]

end Espalier.Markup
