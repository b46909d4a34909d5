/-
Two headers that differ in literal scalars only.  Their scans run side by side: a
literal scalar never changes the mode, and a bare one is the same in both.  So the
declarations of the headers have the same parts, and tags that agree up to their first
quote mark.
-/
import Mathlib.Data.List.Forall2
import Espalier.Proofs.Markup.Element
import Espalier.Proofs.Markup.Shorthand
import Espalier.Proofs.Text.Veil

namespace Espalier.Markup

open Espalier.Text

namespace Draft

/-- Two declarations with the same parts written, and tags that agree as far as they
can be seen. -/
structure Alike (draft other : Draft) : Prop where
  tag_eq : blur draft.tag.toList = blur other.tag.toList
  params_eq : draft.params.isEmpty = other.params.isEmpty
  text_eq : draft.text.isEmpty = other.text.isEmpty
  key_eq : draft.key.isEmpty = other.key.isEmpty

variable {draft other : Draft}

theorem Alike.refl (draft : Draft) : draft.Alike draft :=
  ⟨rfl, rfl, rfl, rfl⟩

theorem Alike.isEmpty_eq (h : draft.Alike other) : draft.isEmpty = other.isEmpty := by
  have htag : draft.tag.isEmpty = other.tag.isEmpty := by
    simpa [isEmpty_toList] using congrArg List.isEmpty h.tag_eq
  rw [isEmpty, isEmpty, htag, h.params_eq, h.text_eq, h.key_eq]

/-- Whether the tag of a declaration has a quote mark. -/
def marked (draft : Draft) : Bool :=
  draft.tag.toList.any isQuoteMark

theorem marked_extend_tag (draft : Draft) (cs : List Char) :
    (draft.extend .tag cs).marked = (draft.marked || cs.any isQuoteMark) := by
  simp [marked, Draft.extend, List.any_append]

theorem push_eq_extend (draft : Draft) (mode : Mode) (c : Char) :
    draft.push mode c = draft.extend mode [c] := by
  rw [extend_cons]
  cases mode <;> simp [extend]

/-- Declarations stay alike when a part of both gets more scalars, or of neither. -/
theorem Alike.extend (h : draft.Alike other) {mode : Mode} {cs ds : List Char}
    (hnil : cs = [] ↔ ds = [])
    (htag : mode = .tag → draft.marked = false → blur cs = blur ds) :
    (draft.extend mode cs).Alike (other.extend mode ds) := by
  have hpart : ∀ part part' : String, part.isEmpty = part'.isEmpty →
      (part ++ String.ofList cs).isEmpty = (part' ++ String.ofList ds).isEmpty := by
    intro part part' hempty
    rw [Bool.eq_iff_iff, String.isEmpty_iff, String.isEmpty_iff] at hempty ⊢
    simp [hempty, hnil]
  cases mode with
  | tag =>
      refine ⟨?_, h.params_eq, h.text_eq, h.key_eq⟩
      simpa [Draft.extend] using blur_append_congr h.tag_eq (htag rfl)
  | params => exact ⟨h.tag_eq, hpart _ _ h.params_eq, h.text_eq, h.key_eq⟩
  | text => exact ⟨h.tag_eq, h.params_eq, hpart _ _ h.text_eq, h.key_eq⟩
  | key => exact ⟨h.tag_eq, h.params_eq, h.text_eq, hpart _ _ h.key_eq⟩
  | between => exact h
  | detached => exact h

end Draft

namespace HeaderScan

/-- Two scans side by side.  While a tag is being read that has no quote mark yet, both
stand outside quotes. -/
structure Alike (scan other : HeaderScan) : Prop where
  mode_eq : scan.mode = other.mode
  draft : scan.draft.Alike other.draft
  drafts : List.Forall₂ Draft.Alike scan.drafts.toList other.drafts.toList
  outside : scan.mode = .tag → scan.draft.marked = false →
    scan.quote = .outside ∧ other.quote = .outside

variable {scan other : HeaderScan} {c d : Char}

theorem quote_feed (scan : HeaderScan) (c : Char) :
    (scan.feed c).quote = scan.quote.next c := by
  have hend : ∀ scan : HeaderScan, scan.endDraft.quote = scan.quote := by
    intro scan
    rw [endDraft]
    split <;> rfl
  cases hliteral : scan.quote.literal c with
  | true => simp [feed, Quote.feed, hliteral, push]
  | false =>
      cases haction : scan.mode.action c <;>
        simp [feed, Quote.feed, hliteral, haction, push, hend]

theorem quote_foldl_feed (scan : HeaderScan) (cs : List Char) :
    (cs.foldl feed scan).quote = scan.quote.after cs := by
  induction cs generalizing scan with
  | nil => rfl
  | cons c cs ih => rw [List.foldl_cons, ih, quote_feed, Quote.after_cons]

/-- Literal scalars, be they as many in both or not, go to the same part. -/
theorem Alike.foldl_feed_of_hides (h : scan.Alike other) {cs ds : List Char}
    (hnil : cs = [] ↔ ds = []) (hcs : scan.quote.hides cs) (hds : other.quote.hides ds) :
    (cs.foldl feed scan).Alike (ds.foldl feed other) := by
  -- in a tag without marks the literal scalars begin with one
  have hmark : scan.mode = .tag → scan.draft.marked = false →
      (cs = [] ∧ ds = []) ∨ (cs.any isQuoteMark = true ∧ blur cs = blur ds) := by
    intro hmode hmarked
    obtain ⟨hscan, hother⟩ := h.outside hmode hmarked
    rw [hscan] at hcs
    rw [hother] at hds
    cases cs with
    | nil => exact Or.inl ⟨rfl, hnil.mp rfl⟩
    | cons c cs =>
        cases ds with
        | nil => simp at hnil
        | cons d ds =>
            have hc := Quote.hides_cons_outside hcs
            have hd := Quote.hides_cons_outside hds
            exact Or.inr ⟨by simp [hc], by rw [blur_of_mark hc, blur_of_mark hd]⟩
  rw [foldl_feed_of_keeps (Quote.bareAll_of_hides hcs _),
    foldl_feed_of_keeps (Quote.bareAll_of_hides hds _)]
  refine ⟨h.mode_eq, ?_, h.drafts, ?_⟩
  · rw [← h.mode_eq]
    refine h.draft.extend hnil fun hmode hmarked => ?_
    rcases hmark hmode hmarked with ⟨rfl, rfl⟩ | ⟨-, hblur⟩
    · rfl
    · exact hblur
  · intro hmode hmarked
    simp only at hmode hmarked ⊢
    rw [hmode, Draft.marked_extend_tag, Bool.or_eq_false_iff] at hmarked
    rcases hmark hmode hmarked.1 with ⟨rfl, rfl⟩ | ⟨hany, -⟩
    · exact h.outside hmode hmarked.1
    · rw [hany] at hmarked
      exact absurd hmarked.2 Bool.noConfusion

theorem Alike.endDraft (h : scan.Alike other) : scan.endDraft.Alike other.endDraft := by
  have hempty := h.draft.isEmpty_eq
  have hbetween : Mode.between = Mode.tag → scan.draft.marked = false →
      scan.quote = .outside ∧ other.quote = .outside := by simp
  by_cases hscan : scan.draft.isEmpty = true
  · rw [HeaderScan.endDraft, HeaderScan.endDraft, if_pos hscan, if_pos (hempty ▸ hscan)]
    exact ⟨rfl, h.draft, h.drafts, hbetween⟩
  · rw [HeaderScan.endDraft, HeaderScan.endDraft, if_neg hscan, if_neg (hempty ▸ hscan)]
    refine ⟨rfl, .refl _, ?_, by simp⟩
    simpa using List.rel_append h.drafts (.cons h.draft .nil)

/-- Outside quotes both scans may go over to another mode. -/
theorem Alike.turn (h : scan.Alike other) (mode : Mode) :
    ({ scan with quote := .outside, mode } : HeaderScan).Alike
      { other with quote := .outside, mode } :=
  ⟨rfl, h.draft, h.drafts, fun _ _ => ⟨rfl, rfl⟩⟩

theorem Alike.push (h : scan.Alike other) (hscan : scan.quote = .outside)
    (hother : other.quote = .outside) (c : Char) : (scan.push c).Alike (other.push c) := by
  refine ⟨h.mode_eq, ?_, h.drafts, fun _ _ => ⟨hscan, hother⟩⟩
  simp only [HeaderScan.push, Draft.push_eq_extend, ← h.mode_eq]
  exact h.draft.extend Iff.rfl fun _ _ => rfl

/-- A bare scalar does the same in both. -/
theorem Alike.feed_of_bare (h : scan.Alike other) (hc : scan.quote.literal c = false)
    (hd : other.quote.literal c = false) : (scan.feed c).Alike (other.feed c) := by
  have hscan := (Quote.next_eq_outside_of_not_literal hc).2
  have hother := (Quote.next_eq_outside_of_not_literal hd).2
  have hstay := h.turn scan.mode
  simp only [feed, Quote.feed, hc, hd, hscan, hother, ← h.mode_eq, Bool.false_eq_true, if_false]
  cases scan.mode.action c with
  | keep => exact hstay.push rfl rfl c
  | finish => exact hstay.endDraft
  | enter mode => exact h.turn mode
  | start => exact (h.turn .tag).push rfl rfl c

/-- Both scans take texts that look the same. -/
theorem Alike.foldl_feed (h : scan.Alike other) {cs ds : List Char}
    (hveil : scan.quote.veil cs = other.quote.veil ds) :
    (cs.foldl feed scan).Alike (ds.foldl feed other) := by
  induction cs generalizing scan other ds with
  | nil =>
      rw [Quote.veil_eq_nil_iff.mp hveil.symm]
      exact h
  | cons c cs ih =>
      cases ds with
      | nil => simp [Quote.veil] at hveil
      | cons d ds =>
          obtain ⟨hliteral, hsame, hlater⟩ := Quote.literal_eq_of_veil_cons hveil
          rw [← quote_feed, ← quote_feed] at hlater
          have hstep : (scan.feed c).Alike (other.feed d) := by
            cases hc : scan.quote.literal c with
            | true =>
                have hscan : scan.quote.hides [c] := by rw [Quote.hides_singleton, hc]
                have hother : other.quote.hides [d] := by
                  rw [Quote.hides_singleton, ← hliteral, hc]
                exact h.foldl_feed_of_hides (by simp) hscan hother
            | false =>
                obtain rfl := hsame hc
                exact h.feed_of_bare hc (hliteral ▸ hc)
          exact ih hstep hlater

end HeaderScan

/-- Headers that are alike have declarations that are alike, one by one. -/
theorem alike_drafts {header other : List Char} (h : Quote.Alike header other) :
    List.Forall₂ Draft.Alike (drafts header) (drafts other) := by
  obtain ⟨cs, tail, ds, rest, rfl, rfl, hveil, htail, hrest, hnil⟩ := h
  have hstart : ({} : HeaderScan).Alike {} := ⟨rfl, .refl _, .nil, fun _ _ => ⟨rfl, rfl⟩⟩
  have hfront := hstart.foldl_feed hveil
  rw [drafts, drafts, HeaderScan.ofHeader, HeaderScan.ofHeader, List.foldl_append,
    List.foldl_append]
  refine (hfront.foldl_feed_of_hides hnil ?_ ?_).endDraft.drafts
  · rw [HeaderScan.quote_foldl_feed]
    exact htail
  · rw [HeaderScan.quote_foldl_feed]
    exact hrest

end Espalier.Markup
