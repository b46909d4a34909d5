/-
White space around braces.  It stands at an end of a header, where trimming takes it off.
So a text with more of it beside its braces, or at its ends, has the same structure, with
headers that come to the same, and a parse of it makes the same calls.
-/
import Espalier.Proofs.Markup.Growth
import Espalier.Sink.Recorder

namespace Espalier.Markup

open Espalier.Text

variable {σ η : Type}

/-- A place of a text where white space does not matter: at one of its ends, or beside a
bare brace. -/
inductive Gap : List Char → List Char → Prop
  | start (back : List Char) : Gap [] back
  | stop (front : List Char) : Gap front []
  | before {front back : List Char} {brace : Char} (hbrace : notBrace brace = false)
      (hbare : (Quote.outside.after front).literal brace = false) : Gap front (brace :: back)
  | behind {front back : List Char} {brace : Char} (hbrace : notBrace brace = false)
      (hbare : (Quote.outside.after front).literal brace = false) : Gap (front ++ [brace]) back

/-! ### Places beside a brace -/

namespace Gap

variable {front between back tail : List Char} {brace : Char}

/-- A place in front of a brace is one of the text in front of the brace. -/
theorem left (h : Gap front (between ++ brace :: tail)) : Gap front between := by
  generalize htext : between ++ brace :: tail = back at h
  cases h with
  | start => exact .start between
  | stop => simp at htext
  | before hbrace hbare =>
      cases between with
      | nil => exact .stop front
      | cons c cs =>
          obtain ⟨rfl, -⟩ := List.cons.inj htext
          exact .before hbrace hbare
  | behind hbrace hbare => exact .behind hbrace hbare

/-- A place behind a brace is one of the text behind the brace. -/
theorem right (hnext : Quote.outside.next brace = .outside)
    (hclosed : Quote.outside.after tail = .outside) (h : Gap (tail ++ brace :: between) back) :
    Gap between back := by
  have hafter : ∀ cs, Quote.outside.after (tail ++ brace :: cs) = Quote.outside.after cs := by
    intro cs
    rw [Quote.after_append, hclosed, Quote.after_cons, hnext]
  generalize htext : tail ++ brace :: between = front at h
  cases h with
  | start => simp at htext
  | stop => exact .stop between
  | before hbrace hbare =>
      rw [← htext, hafter] at hbare
      exact .before hbrace hbare
  | @behind front _ last hbrace hbare =>
      rcases List.eq_nil_or_concat between with rfl | ⟨init, c, rfl⟩
      · exact .start back
      · rw [List.concat_eq_append, ← List.cons_append, ← List.append_assoc] at htext
        obtain ⟨rfl, hlast⟩ := List.append_inj' htext rfl
        obtain rfl : c = last := by simpa using hlast
        rw [hafter] at hbare
        rw [List.concat_eq_append]
        exact .behind hbrace hbare

/-- A place of a text with a bare brace is in front of the brace or behind it. -/
theorem cases_of_brace (h : Gap front back) {before behind : List Char}
    (hnext : Quote.outside.next brace = .outside)
    (hclosed : Quote.outside.after before = .outside)
    (htext : before ++ brace :: behind = front ++ back) :
    (∃ between, before = front ++ between ∧ back = between ++ brace :: behind ∧
      Gap front between) ∨
    ∃ between, front = before ++ brace :: between ∧ behind = between ++ back ∧
      Gap between back := by
  rcases List.append_eq_append_iff.mp htext with ⟨between, rfl, hback⟩ | ⟨between, rfl, rfl⟩
  · cases between with
    | nil =>
        obtain rfl : brace :: behind = back := hback
        exact Or.inl ⟨[], by simp, rfl, .stop _⟩
    | cons c cs =>
        obtain ⟨rfl, rfl⟩ := List.cons.inj hback
        exact Or.inr ⟨cs, rfl, rfl, h.right hnext hclosed⟩
  · exact Or.inl ⟨between, rfl, rfl, h.left⟩

/-- A text without bare braces has a place at its two ends only. -/
theorem eq_nil_of_braceFree (h : Gap front back) (hfree : braceFree .outside (front ++ back)) :
    front = [] ∨ back = [] := by
  cases h with
  | start => exact Or.inl rfl
  | stop => exact Or.inr rfl
  | before hbrace hbare =>
      simp [braceFree, Quote.bareAll_append, Quote.bareAll, hbrace, hbare] at hfree
  | behind hbrace hbare =>
      simp [braceFree, Quote.bareAll_append, Quote.bareAll, hbrace, hbare] at hfree

end Gap

/-! ### Structures with more white space -/

section Space

variable {space : List Char} (hspace : ∀ c ∈ space, isBlank c)
include hspace

theorem after_space : Quote.outside.after space = .outside :=
  Quote.after_of_no_marks fun c hc => not_isQuoteMark_of_isBlank (hspace c hc)

theorem braceFree_space (quote : Quote) : braceFree quote space := by
  apply Quote.bareAll_of_forall
  intro c hc
  have hblank := hspace c hc
  have hne : c ≠ '{' ∧ c ≠ '}' := by
    constructor <;> (rintro rfl; exact absurd hblank (by decide))
  simpa [notBrace] using hne

/-- White space in front of a text. -/
theorem trim_space_append (text : List Char) : trim (space ++ text) = trim text := by
  rw [trim, trimStart_append hspace, trim]

/-- White space at a place of a header. -/
theorem Gap.respaced_header {front back : List Char} (h : Gap front back)
    (hfree : braceFree .outside (front ++ back)) :
    braceFree .outside (front ++ (space ++ back)) ∧
      trim (front ++ (space ++ back)) = trim (front ++ back) ∧
      (Quote.outside.after (front ++ back) = .outside →
        Quote.outside.after (front ++ (space ++ back)) = .outside) := by
  have hclosed := after_space hspace
  rcases h.eq_nil_of_braceFree hfree with rfl | rfl
  · simp only [List.nil_append] at hfree ⊢
    refine ⟨?_, trim_space_append hspace back, ?_⟩
    · rw [braceFree, Quote.bareAll_append, hclosed, Bool.and_eq_true]
      exact ⟨braceFree_space hspace _, hfree⟩
    · intro hback
      rw [Quote.after_append, hclosed, hback]
  · simp only [List.append_nil] at hfree ⊢
    refine ⟨?_, trim_append hspace front, ?_⟩
    · rw [braceFree, Quote.bareAll_append, Bool.and_eq_true]
      exact ⟨hfree, braceFree_space hspace _⟩
    · intro hfront
      rw [Quote.after_append, hfront, hclosed]

end Space

namespace Blocks

/-- Structures whose headers differ in the white space at their ends. -/
inductive Respaced : Blocks → Blocks → Prop
  | last {header other : List Char} (hheader : trim header = trim other) :
      Respaced (last header) (last other)
  | block {header other : List Char} {body body' rest rest' : Blocks}
      (hheader : trim header = trim other) (hbody : Respaced body body')
      (hrest : Respaced rest rest') : Respaced (block header body rest) (block other body' rest')

theorem Respaced.refl (blocks : Blocks) : Respaced blocks blocks := by
  induction blocks with
  | last header => exact .last rfl
  | block header body rest ihBody ihRest => exact .block rfl ihBody ihRest

/-- They are grown alike. -/
theorem Respaced.grow_eq {blocks other : Blocks} (h : Respaced blocks other) (sink : Sink σ η)
    (settings : Settings) (parent : η) :
    blocks.grow sink settings parent = other.grow sink settings parent := by
  induction h generalizing parent with
  | last hheader => rw [grow, grow, hheader]
  | block hheader hbody hrest ihBody ihRest =>
      simp only [grow, hheader, ihBody, ihRest]

/-- White space at a place of a structure's text goes to one of its headers. -/
theorem exists_respaced {blocks : Blocks} (h : blocks.Fits) {front back : List Char}
    (hgap : Gap front back) (htext : blocks.text = front ++ back) {space : List Char}
    (hspace : ∀ c ∈ space, isBlank c) :
    ∃ other : Blocks, other.Fits ∧ other.text = front ++ (space ++ back) ∧
      Respaced other blocks ∧
      (Quote.outside.after blocks.text = .outside → Quote.outside.after other.text = .outside) := by
  induction blocks generalizing front back with
  | last header =>
      obtain rfl : header = front ++ back := htext
      obtain ⟨hfree, htrim, hclosed⟩ := hgap.respaced_header hspace h
      exact ⟨.last _, hfree, rfl, .last htrim, hclosed⟩
  | block header body rest ihBody ihRest =>
      obtain ⟨hfree, hheader, hbody, hinside, hrest⟩ := h
      rw [after_text_block hheader hinside]
      rcases hgap.cases_of_brace rfl hheader htext with
        ⟨between, rfl, rfl, hplace⟩ | ⟨behind, rfl, htail, hplace⟩
      · obtain ⟨hfree', htrim, hclosed⟩ := hplace.respaced_header hspace hfree
        have hheader' := hclosed hheader
        refine ⟨.block _ body rest, ⟨hfree', hheader', hbody, hinside, hrest⟩, by simp [text],
          .block htrim (.refl body) (.refl rest), ?_⟩
        rw [after_text_block hheader' hinside]
        exact id
      · rcases hplace.cases_of_brace rfl hinside htail with
          ⟨between, hbodyText, rfl, hinner⟩ | ⟨between, rfl, hrestText, hbehind⟩
        · obtain ⟨other, hfits, hother, hsame, hclosed⟩ := ihBody hbody hinner hbodyText
          have hinside' := hclosed hinside
          refine ⟨.block header other rest, ⟨hfree, hheader, hfits, hinside', hrest⟩,
            by simp [text, hother], .block rfl hsame (.refl rest), ?_⟩
          rw [after_text_block hheader hinside']
          exact id
        · obtain ⟨other, hfits, hother, hsame, hclosed⟩ := ihRest hrest hbehind hrestText
          refine ⟨.block header body other, ⟨hfree, hheader, hbody, hinside, hfits⟩,
            by simp [text, hother], .block rfl (.refl body) hsame, ?_⟩
          rw [after_text_block hheader hinside]
          exact hclosed

end Blocks

/-- White space beside the braces of a text, or at its ends, does not matter.  With more of
it the text is accepted as well, and a parse of it does the same: in every sink it makes
the same calls in the same order and ends in the same way. -/
theorem parse_spaced {front back space : String} (haccepted : Accepted (front ++ back).toList)
    (hgap : Gap front.toList back.toList) (hspace : ∀ c ∈ space.toList, isBlank c) :
    Accepted (front ++ space ++ back).toList ∧
      ∀ (σ η : Type) (sink : Sink σ η) (settings : Settings) (parent : η),
        parse sink settings parent (front ++ space ++ back) =
          parse sink settings parent (front ++ back) := by
  obtain ⟨blocks, hfits, htext⟩ := accepted_iff.mp haccepted
  rw [String.toList_append] at htext
  obtain ⟨other, hfits', htext', hsame, -⟩ :=
    Blocks.exists_respaced hfits hgap htext.symm hspace
  have hother : (front ++ space ++ back).toList = other.text := by
    simp [htext']
  have hblocks : (front ++ back).toList = blocks.text := by
    simp [htext]
  refine ⟨accepted_iff.mpr ⟨other, hfits', hother⟩, ?_⟩
  intro σ η sink settings parent
  rw [parse_eq_grow sink settings parent hfits' hother,
    parse_eq_grow sink settings parent hfits hblocks, hsame.grow_eq]

/-- No-break spaces and a line feed behind the brace of a list, in a text that ends in an open
quote. -/
theorem parse_spaced_list :
    let front := "ul\x7b"
    let back := "li\u00a0a\x7d p('x"
    let space := "\u00a0\n\u2007"
    Accepted (front ++ back).toList ∧ Gap front.toList back.toList ∧
      (∀ c ∈ space.toList, isBlank c) ∧ Accepted (front ++ space ++ back).toList ∧
      parse Recorder.sink .standard 0 (front ++ space ++ back) =
        parse Recorder.sink .standard 0 (front ++ back) := by
  intro front back space
  let blocks : Blocks :=
    .block "ul".toList (.last "li\u00a0a".toList) (.last " p('x".toList)
  have haccepted : Accepted (front ++ back).toList :=
    accepted_iff.mpr ⟨blocks, by decide, by decide⟩
  have hfront : front.toList = "ul".toList ++ ['\x7b'] := by decide
  have hgap : Gap front.toList back.toList := by
    rw [hfront]
    exact .behind rfl rfl
  have hspace : ∀ c ∈ space.toList, isBlank c := List.all_eq_true.mp (by decide)
  obtain ⟨hmore, hparse⟩ := parse_spaced haccepted hgap hspace
  exact ⟨haccepted, hgap, hspace, hmore, hparse _ _ Recorder.sink .standard 0⟩

end Espalier.Markup
