/-
Headers put side by side.  Behind a separator a scan stands between two declarations
and not at the start of a header, but it goes on in the same way, unless what follows
begins with a bracket, a `#` or a quote mark.  So a header is the declarations in
front of a separator and then those behind it, and a run of separators does no more
than a single one.
-/
import Espalier.Markup.Parse
import Espalier.Proofs.Markup.Element
import Espalier.Proofs.Program
import Espalier.Sink.Recorder

namespace Espalier.Markup

open Espalier.Text Espalier.Program

variable {σ η : Type}

theorem not_isQuoteMark_of_le_space {c : Char} (h : c ≤ ' ') : isQuoteMark c = false := by
  by_cases hmark : isQuoteMark c = true
  · rcases isQuoteMark_iff.mp hmark with rfl | rfl <;> exact absurd h (by decide)
  · exact (Bool.not_eq_true _).mp hmark

/-- A separator ends a declaration that is being read, and is dropped between two
declarations. -/
theorem Mode.action_of_le_space {mode : Mode} {c : Char} (hparams : mode ≠ .params)
    (htext : mode ≠ .text) (hc : c ≤ ' ') :
    mode.action c = if mode = .between then .keep else .finish := by
  cases mode <;> simp_all [Mode.action]

theorem Mode.action_ne_enter_between (mode : Mode) (c : Char) :
    mode.action c ≠ .enter .between := by
  cases mode <;> grind [Mode.action]

theorem Draft.eq_empty_of_isEmpty {draft : Draft} (h : draft.isEmpty) : draft = {} := by
  simp only [Draft.isEmpty, Bool.and_eq_true, String.isEmpty_iff] at h
  obtain ⟨⟨⟨htag, hparams⟩, htext⟩, hkey⟩ := h
  cases draft
  simp_all

namespace HeaderScan

/-! ### Between two declarations -/

/-- Nothing is being read between two declarations. -/
def Idle (scan : HeaderScan) : Prop :=
  scan.mode = .between → scan.draft = {}

theorem draft_endDraft (scan : HeaderScan) : scan.endDraft.draft = {} := by
  rw [endDraft]
  split
  · next hempty => exact Draft.eq_empty_of_isEmpty hempty
  · rfl

/-- The end of a declaration leads between two declarations. -/
theorem endDraft_eq {scan : HeaderScan} (hquote : scan.quote = .outside) :
    scan.endDraft = outside .between {} scan.endDraft.drafts := by
  have hdraft := draft_endDraft scan
  rw [endDraft] at hdraft ⊢
  split at hdraft <;> simp_all [outside]

theorem Idle.push {scan : HeaderScan} (h : scan.Idle) (c : Char) : (scan.push c).Idle := by
  intro hmode
  have hmode' : scan.mode = .between := hmode
  simp [HeaderScan.push, Draft.push, hmode', h hmode']

theorem Idle.feed {scan : HeaderScan} (h : scan.Idle) (c : Char) : (scan.feed c).Idle := by
  have hread : ({ scan with quote := scan.quote.next c } : HeaderScan).Idle := h
  cases hliteral : scan.quote.literal c with
  | true => simpa [HeaderScan.feed, Quote.feed, hliteral] using hread.push c
  | false =>
      simp only [HeaderScan.feed, Quote.feed, hliteral, Bool.false_eq_true, if_false]
      cases haction : scan.mode.action c with
      | keep => exact hread.push c
      | finish => exact fun _ => draft_endDraft _
      | enter mode =>
          -- no character leads between two declarations without ending one
          intro hbetween
          obtain rfl : mode = .between := hbetween
          exact absurd haction (Mode.action_ne_enter_between _ _)
      | start => exact fun hbetween => absurd hbetween (by simp [HeaderScan.push])

theorem idle_foldl_feed {scan : HeaderScan} (h : scan.Idle) (cs : List Char) :
    (cs.foldl HeaderScan.feed scan).Idle := by
  induction cs generalizing scan with
  | nil => exact h
  | cons c cs ih => exact ih (h.feed c)

theorem idle_ofHeader (header : List Char) : (ofHeader header).Idle :=
  idle_foldl_feed (fun hbetween => absurd hbetween (by decide)) header

/-- A separator completes the declaration in front of it, if there is one. -/
theorem feed_separator {scan : HeaderScan} (h : scan.Idle) (hquote : scan.quote = .outside)
    (hparams : scan.mode ≠ .params) (htext : scan.mode ≠ .text) {c : Char} (hc : c ≤ ' ') :
    scan.feed c = scan.endDraft := by
  have hmark := not_isQuoteMark_of_le_space hc
  have haction := Mode.action_of_le_space hparams htext hc
  by_cases hmode : scan.mode = .between
  · have hdraft := h hmode
    obtain ⟨quote, mode, draft, drafts⟩ := scan
    obtain rfl : quote = .outside := hquote
    obtain rfl : mode = .between := hmode
    obtain rfl : draft = {} := hdraft
    simp [feed, Quote.feed, Quote.literal, Quote.next, hmark, haction, push, Draft.push,
      endDraft, Draft.isEmpty]
  · rw [if_neg hmode] at haction
    exact feed_of_finish hquote hmark haction

/-! ### Declarations that are complete already -/

/-- A scan with some more declarations in front of those that are complete. -/
def behind (before : Array Draft) (scan : HeaderScan) : HeaderScan :=
  { scan with drafts := before ++ scan.drafts }

theorem endDraft_behind (before : Array Draft) (scan : HeaderScan) :
    (scan.behind before).endDraft = scan.endDraft.behind before := by
  by_cases hempty : scan.draft.isEmpty <;> simp [endDraft, behind, hempty]

/-- Complete declarations do not matter to what is read behind them. -/
theorem feed_behind (before : Array Draft) (scan : HeaderScan) (c : Char) :
    (scan.behind before).feed c = (scan.feed c).behind before := by
  let read : HeaderScan := { scan with quote := scan.quote.next c }
  have hread : (read.behind before).endDraft = read.endDraft.behind before :=
    endDraft_behind before read
  cases hliteral : scan.quote.literal c with
  | true => simp [feed, Quote.feed, behind, hliteral, push]
  | false =>
      cases haction : scan.mode.action c with
      | keep => simp [feed, Quote.feed, behind, hliteral, haction, push]
      | finish => simpa [feed, Quote.feed, behind, hliteral, haction, read] using hread
      | enter mode => simp [feed, Quote.feed, behind, hliteral, haction]
      | start => simp [feed, Quote.feed, behind, hliteral, haction, push]

theorem foldl_feed_behind (before : Array Draft) (scan : HeaderScan) (cs : List Char) :
    cs.foldl feed (scan.behind before) = (cs.foldl feed scan).behind before := by
  induction cs generalizing scan with
  | nil => rfl
  | cons c cs ih => rw [List.foldl_cons, feed_behind, ih, List.foldl_cons]

end HeaderScan

open HeaderScan

/-! ### Boundaries -/

/-- A header that can be followed by a separator: its scan ends outside quotes, and not
in an attribute block or a text. -/
structure Closed (header : List Char) : Prop where
  quote_eq : (ofHeader header).quote = .outside
  mode_ne_params : (ofHeader header).mode ≠ .params
  mode_ne_text : (ofHeader header).mode ≠ .text

/-- A header that can follow a separator: it does not begin with a character that a fresh
declaration takes in another way than as the first one of its tag. -/
def Fresh (header : List Char) : Prop :=
  ∀ c ∈ header.head?, c ∉ ['<', '(', '#', '\'', '"']

/-- Between two declarations a scan reads on as at the start of a header. -/
theorem Fresh.endDraft_foldl_feed {header : List Char} (h : Fresh header)
    (before : Array Draft) :
    (header.foldl feed (outside .between {} before)).endDraft.drafts.toList =
      before.toList ++ drafts header := by
  cases header with
  | nil => simp [outside, endDraft, drafts, ofHeader, Draft.isEmpty]
  | cons c cs =>
      have hfirst : c ≠ '<' ∧ c ≠ '(' ∧ c ≠ '#' ∧ c ≠ '\'' ∧ c ≠ '"' := by
        simpa using h c rfl
      obtain ⟨hangle, hround, hhash, hsingle, hdouble⟩ := hfirst
      have hmark : isQuoteMark c = false := by simp [isQuoteMark, hsingle, hdouble]
      have hstart : (outside .between {} before).feed c =
          ((outside .tag {} #[]).feed c).behind before := by
        by_cases hc : c ≤ ' '
        · simp [outside, feed, Quote.feed, Quote.literal, Quote.next, hmark, Mode.action, hc,
            push, Draft.push, endDraft, Draft.isEmpty, behind]
        · simp [outside, feed, Quote.feed, Quote.literal, Quote.next, hmark, Mode.action, hc,
            hangle, hround, hhash, push, Draft.push, behind]
      have hheader : ofHeader (c :: cs) = cs.foldl feed ((outside .tag {} #[]).feed c) := rfl
      rw [List.foldl_cons, hstart, foldl_feed_behind, endDraft_behind, drafts, hheader]
      simp [behind]

/-- Between two declarations separators are dropped. -/
theorem foldl_feed_separators {gap : List Char} (hgap : ∀ c ∈ gap, c ≤ ' ')
    (before : Array Draft) :
    gap.foldl feed (outside .between {} before) = outside .between {} before := by
  induction gap with
  | nil => rfl
  | cons c gap ih =>
      have hidle : (outside .between {} before).Idle := fun _ => rfl
      have hfeed : (outside .between {} before).feed c = (outside .between {} before).endDraft :=
        feed_separator hidle rfl (by simp [outside]) (by simp [outside])
          (hgap c List.mem_cons_self)
      have hend : (outside .between {} before).endDraft = outside .between {} before := rfl
      rw [List.foldl_cons, hfeed, hend]
      exact ih fun d hd => hgap d (List.mem_cons_of_mem c hd)

/-- Behind a run of separators the scan of a header stands between two declarations,
however long the run is. -/
theorem Closed.ofHeader_append {front : List Char} (h : Closed front) {gap : List Char}
    (hne : gap ≠ []) (hgap : ∀ c ∈ gap, c ≤ ' ') :
    ofHeader (front ++ gap) = outside .between {} (ofHeader front).endDraft.drafts := by
  obtain ⟨c, rest, rfl⟩ := List.exists_cons_of_ne_nil hne
  have hboundary : (ofHeader front).feed c = (ofHeader front).endDraft :=
    feed_separator (idle_ofHeader front) h.quote_eq h.mode_ne_params h.mode_ne_text
      (hgap c List.mem_cons_self)
  rw [ofHeader, List.foldl_append, List.foldl_cons, ← ofHeader, hboundary,
    endDraft_eq h.quote_eq]
  exact foldl_feed_separators (fun d hd => hgap d (List.mem_cons_of_mem c hd)) _

section Gaps

variable {front gap back : List Char} (hfront : Closed front) (hgap : ∀ c ∈ gap, c ≤ ' ')

include hfront hgap

/-- The declarations of two headers with separators between them. -/
theorem drafts_append_append (hne : gap ≠ []) (hback : Fresh back) :
    drafts (front ++ gap ++ back) = drafts front ++ drafts back := by
  rw [drafts, ofHeader, List.foldl_append, ← ofHeader, hfront.ofHeader_append hne hgap,
    hback.endDraft_foldl_feed]
  rfl

/-- Any two runs of separators do the same. -/
theorem drafts_append_congr (hne : gap ≠ []) {gap' : List Char} (hne' : gap' ≠ [])
    (hgap' : ∀ c ∈ gap', c ≤ ' ') :
    drafts (front ++ gap ++ back) = drafts (front ++ gap' ++ back) := by
  have hscan : ofHeader (front ++ gap ++ back) = ofHeader (front ++ gap' ++ back) := by
    rw [ofHeader, List.foldl_append, ← ofHeader, hfront.ofHeader_append hne hgap,
      ← hfront.ofHeader_append hne' hgap', ofHeader, ← List.foldl_append, ← ofHeader]
  rw [drafts, hscan, drafts]

/-- Separators behind a header declare nothing. -/
theorem drafts_append_separators : drafts (front ++ gap) = drafts front := by
  by_cases hne : gap = []
  · rw [hne, List.append_nil]
  · have hfresh : Fresh [] := by simp [Fresh]
    have hnone : drafts [] = [] := rfl
    simpa [hnone] using drafts_append_append hfront hgap hne hfresh

end Gaps

/-- Separators in front of a header declare nothing. -/
theorem drafts_separators_append {gap back : List Char} (hgap : ∀ c ∈ gap, c ≤ ' ')
    (hback : Fresh back) : drafts (gap ++ back) = drafts back := by
  by_cases hne : gap = []
  · rw [hne, List.nil_append]
  · have hclosed : Closed [] := ⟨rfl, by decide, by decide⟩
    have hnone : drafts [] = [] := rfl
    simpa [hnone] using drafts_append_append hclosed hgap hne hback

/-! ### Growing a header -/

/-- Declarations are created one after the other, so a list of them may be cut. -/
theorem declareAll_append (sink : Sink σ η) (settings : Settings) (parent : η)
    (last : Option η) (front back : List Draft) :
    declareAll sink settings parent last (front ++ back) = (do
      let middle ← declareAll sink settings parent last front
      declareAll sink settings parent middle back) := by
  induction front generalizing last with
  | nil => simp [declareAll]
  | cons draft front ih => simp only [List.cons_append, declareAll, ih, bind_assoc]

/-- An element of before is the last one only if there is no later one. -/
theorem declareAll_eq_or (sink : Sink σ η) (settings : Settings) (parent : η)
    (last : Option η) (drafts : List Draft) :
    declareAll sink settings parent last drafts = (do
      let later ← declareAll sink settings parent none drafts
      return later.or last) := by
  induction drafts generalizing last with
  | nil => simp [declareAll]
  | cons draft rest ih =>
      simp only [declareAll, bind_assoc]
      congr 1
      funext node
      rw [ih (some node)]
      simp

theorem growHeader_of_append (sink : Sink σ η) (settings : Settings) (parent : η)
    {header front back : List Char} (h : drafts header = drafts front ++ drafts back) :
    growHeader sink settings parent header = (do
      let first ← growHeader sink settings parent front
      let last ← growHeader sink settings parent back
      return last.or first) := by
  rw [growHeader, h, declareAll_append]
  congr 1
  funext first
  rw [declareAll_eq_or, growHeader]

/-- Headers with the same declarations are grown alike. -/
theorem parseHeader_congr (sink : Sink σ η) (settings : Settings) (parent : η)
    {header other : String} (h : drafts header.toList = drafts other.toList) :
    parseHeader sink settings parent header = parseHeader sink settings parent other := by
  rw [parseHeader, parseHeader, growHeader, growHeader, h]

/-- Headers compose at the boundaries of their declarations, for every sink: what stands
behind a separator is grown as a header of its own, after what stands in front, and the
last element is the last one of both.  How many separators there are, and which, does
not matter, and in front of a header or behind one they do nothing. -/
theorem parseHeader_composes (sink : Sink σ η) (settings : Settings) (parent : η)
    {front : String} (hfront : Closed front.toList) {gap : String}
    (hgap : ∀ c ∈ gap.toList, c ≤ ' ') :
    (∀ back : String, gap ≠ "" → Fresh back.toList →
      parseHeader sink settings parent (front ++ gap ++ back) = (do
        let first ← parseHeader sink settings parent front
        let last ← parseHeader sink settings parent back
        return last.or first)) ∧
    (∀ back gap' : String, gap ≠ "" → gap' ≠ "" → (∀ c ∈ gap'.toList, c ≤ ' ') →
      parseHeader sink settings parent (front ++ gap ++ back) =
        parseHeader sink settings parent (front ++ gap' ++ back)) ∧
    (∀ back : String, Fresh back.toList →
      parseHeader sink settings parent (gap ++ back) = parseHeader sink settings parent back) ∧
    parseHeader sink settings parent (front ++ gap) = parseHeader sink settings parent front := by
  refine ⟨?_, ?_, ?_, ?_⟩
  · intro back hne hback
    have hdrafts : drafts (front ++ gap ++ back).toList =
        drafts front.toList ++ drafts back.toList := by
      rw [String.toList_append, String.toList_append]
      exact drafts_append_append hfront hgap (by simpa using hne) hback
    simp only [parseHeader]
    rw [growHeader_of_append sink settings parent hdrafts, adaptExcept_bind]
    congr 1
    funext first
    rw [adaptExcept_bind]
    rfl
  · intro back gap' hne hne' hgap'
    apply parseHeader_congr
    simp only [String.toList_append]
    exact drafts_append_congr hfront hgap (by simpa using hne) (by simpa using hne') hgap'
  · intro back hback
    apply parseHeader_congr
    rw [String.toList_append]
    exact drafts_separators_append hgap hback
  · apply parseHeader_congr
    rw [String.toList_append]
    exact drafts_append_separators hfront hgap

/-- An item with a text and a key, a run of three separators, and two paragraphs. -/
theorem parseHeader_composes_item :
    let front := "li('(' b)#first"
    let gap := "\t \n"
    let back := "p.lead p"
    Closed front.toList ∧ Fresh back.toList ∧
      parseHeader Recorder.sink .standard 0 (front ++ gap ++ back) = (do
        let first ← parseHeader Recorder.sink .standard 0 front
        let last ← parseHeader Recorder.sink .standard 0 back
        return last.or first) ∧
      parseHeader Recorder.sink .standard 0 (front ++ gap ++ back) =
        parseHeader Recorder.sink .standard 0 (front ++ " " ++ back) ∧
      parseHeader Recorder.sink .standard 0 (gap ++ back) =
        parseHeader Recorder.sink .standard 0 back ∧
      drafts (front ++ gap ++ back).toList =
        [{ tag := "li", text := "'(' b", key := "first" }, { tag := "p.lead" },
          { tag := "p" }] := by
  intro front gap back
  have hfront : Closed front.toList := ⟨by decide, by decide, by decide⟩
  have hback : Fresh back.toList := by
    intro c hc
    obtain rfl : 'p' = c := by simpa [back] using hc
    decide
  have hgap : ∀ c ∈ gap.toList, c ≤ ' ' := by simp [gap]
  have hspace : ∀ c ∈ " ".toList, c ≤ ' ' := by simp
  obtain ⟨hcompose, hany, hlead, -⟩ :=
    parseHeader_composes Recorder.sink .standard 0 hfront hgap
  exact ⟨hfront, hback, hcompose back (by decide) hback,
    hany back " " (by decide) (by decide) hspace, hlead back hback, by decide +kernel⟩

end Espalier.Markup
