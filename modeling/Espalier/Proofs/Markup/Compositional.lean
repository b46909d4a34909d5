/-
The compositional meaning of markup.  A text without bare braces is one header;
any other text that the brace pass accepts is a header, a block and a rest, and
parsing it is parsing the header, then the block's body below the last element of
the header, then the rest.

Programs are compared as they run in every sink.  A sink that writes its calls
down, or that refuses one of them, is a sink like any other, so equal programs
make the same calls in the same order and fail with the same error.
-/
import Espalier.Proofs.Markup.Growth
import Espalier.Sink.Recorder

namespace Espalier.Markup

open Espalier.Text Espalier.Program

variable {σ η : Type}

/-- A text that is a header, a block and a rest, put together. -/
def blockText (header body rest : String) : String :=
  header ++ "\x7b" ++ body ++ "\x7d" ++ rest

/-- A header without bare braces, a body and a rest that the brace pass accepts
on their own.  The quotes of the header and of the body are closed. -/
structure BlockForm (header body rest : String) : Prop where
  header_free : braceFree .outside header.toList
  header_closed : Quote.outside.after header.toList = .outside
  body_accepted : Accepted body.toList
  body_closed : Quote.outside.after body.toList = .outside
  rest_accepted : Accepted rest.toList

/-- Grow the header that a text is, unless it is blank. -/
def parseTrimmed (sink : Sink σ η) (settings : Settings) (parent : η) (text : String) :
    EStateM ParseError σ (Option η) :=
  if trimmed text = "" then return none
  else parseHeader sink settings parent (trimmed text)

theorem toList_blockText (header body rest : String) :
    (blockText header body rest).toList =
      header.toList ++ '{' :: (body.toList ++ '}' :: rest.toList) := by
  simp [blockText]

/-- A blank header makes no calls, so nothing is lost when it is skipped. -/
theorem parseTrimmed_eq (sink : Sink σ η) (settings : Settings) (parent : η)
    (text : String) :
    parseTrimmed sink settings parent text =
      (growHeader sink settings parent (trim text.toList)).adaptExcept .tree := by
  rw [parseTrimmed]
  split
  · next hblank =>
      have htrim : trim text.toList = [] := by
        rw [← toList_trimmed, hblank]
        rfl
      rw [htrim]
      rfl
  · rw [parseHeader, toList_trimmed]

/-- The structure of a text in block form. -/
theorem BlockForm.exists_blocks {header body rest : String}
    (h : BlockForm header body rest) :
    ∃ inner last : Blocks, inner.Fits ∧ last.Fits ∧ body.toList = inner.text ∧
      rest.toList = last.text ∧ (Blocks.block header.toList inner last).Fits ∧
      (blockText header body rest).toList =
        (Blocks.block header.toList inner last).text := by
  obtain ⟨inner, hinner, hbody⟩ := accepted_iff.mp h.body_accepted
  obtain ⟨last, hlast, hrest⟩ := accepted_iff.mp h.rest_accepted
  refine ⟨inner, last, hinner, hlast, hbody, hrest,
    ⟨h.header_free, h.header_closed, hinner, ?_, hlast⟩, ?_⟩
  · rw [← hbody]
    exact h.body_closed
  · rw [toList_blockText, hbody, hrest, Blocks.text]

/-- A text without bare braces is parsed as one header. -/
theorem parse_of_braceFree (sink : Sink σ η) (settings : Settings) (parent : η)
    {text : String} (h : braceFree .outside text.toList) :
    parse sink settings parent text = (do
      let _ ← parseTrimmed sink settings parent text
      return parent) := by
  have hfits : (Blocks.last text.toList).Fits := h
  rw [parse_eq_grow sink settings parent hfits rfl,
    Blocks.grow, adaptExcept_bind, parseTrimmed_eq, bind_assoc]
  rfl

/-- A text in block form is parsed part by part. -/
theorem parse_blockText (sink : Sink σ η) (settings : Settings) (parent : η)
    {header body rest : String} (h : BlockForm header body rest) :
    parse sink settings parent (blockText header body rest) = (do
      let last ← parseTrimmed sink settings parent header
      let _ ← parse sink settings (last.getD parent) body
      let _ ← parse sink settings parent rest
      return parent) := by
  obtain ⟨inner, last, hinner, hlast, hbody, hrest, hfits, htext⟩ := h.exists_blocks
  rw [parse_eq_grow sink settings parent hfits htext, Blocks.grow, adaptExcept_bind,
    parseTrimmed_eq, bind_assoc]
  congr 1
  funext target
  rw [adaptExcept_bind, parse_eq_grow sink settings _ hinner hbody,
    parse_eq_grow sink settings parent hlast hrest]
  simp

/-- An accepted text is one header or in block form. -/
theorem Accepted.cases {text : String} (h : Accepted text.toList) :
    braceFree .outside text.toList ∨
      ∃ header body rest, text = blockText header body rest ∧
        BlockForm header body rest := by
  obtain ⟨blocks, hfits, htext⟩ := accepted_iff.mp h
  cases blocks with
  | last header =>
      rw [htext]
      exact Or.inl hfits
  | block header body rest =>
      obtain ⟨hfree, hclosed, hbody, hinside, hrest⟩ := hfits
      refine Or.inr ⟨String.ofList header, String.ofList body.text,
        String.ofList rest.text, ?_, ⟨?_, ?_, ?_, ?_, ?_⟩⟩
      · rw [← String.toList_inj, toList_blockText, htext]
        simp [Blocks.text]
      · simpa using hfree
      · simpa using hclosed
      · simpa using accepted_iff.mpr ⟨body, hbody, rfl⟩
      · simpa using hinside
      · simpa using accepted_iff.mpr ⟨rest, hrest, rfl⟩

/-- What a parse means, for every sink.  A text without bare braces is its
trimmed header, if that is not empty.  A text in block form is accepted, and is
its header, then its body below the last element of the header, or below the
parent when the header declares none, then its rest below the parent.  An
accepted text has one of these two forms. -/
theorem parse_compositional (sink : Sink σ η) (settings : Settings) (parent : η) :
    (∀ text : String, braceFree .outside text.toList →
      parse sink settings parent text = (do
        if trimmed text ≠ "" then
          let _ ← parseHeader sink settings parent (trimmed text)
        return parent)) ∧
    (∀ header body rest : String, BlockForm header body rest →
      Accepted (blockText header body rest).toList ∧
      parse sink settings parent (blockText header body rest) = (do
        let target ←
          if trimmed header = "" then pure parent
          else do
            let last ← parseHeader sink settings parent (trimmed header)
            pure (last.getD parent)
        let _ ← parse sink settings target body
        let _ ← parse sink settings parent rest
        return parent)) ∧
    (∀ text : String, Accepted text.toList →
      braceFree .outside text.toList ∨
        ∃ header body rest, text = blockText header body rest ∧
          BlockForm header body rest) := by
  refine ⟨?_, ?_, ?_⟩
  · intro text hfree
    rw [parse_of_braceFree sink settings parent hfree, parseTrimmed]
    by_cases hblank : trimmed text = ""
    · simp [hblank]
    · simp [hblank]
  · intro header body rest hform
    obtain ⟨inner, last, -, -, -, -, hfits, htext⟩ := hform.exists_blocks
    refine ⟨accepted_iff.mpr ⟨_, hfits, htext⟩, ?_⟩
    rw [parse_blockText sink settings parent hform, parseTrimmed]
    by_cases hblank : trimmed header = ""
    · simp [hblank]
    · simp [hblank]
  · intro text haccepted
    exact haccepted.cases

/-- A list with an item that quotes a brace, and a paragraph behind it. -/
theorem parse_compositional_list :
    braceFree .outside " ul ".toList ∧
    BlockForm " ul " "li('\x7b')" " p" ∧
    Accepted (blockText " ul " "li('\x7b')" " p").toList ∧
    parse Recorder.sink .standard 0 " ul " = (do
      let _ ← parseHeader Recorder.sink .standard 0 "ul"
      return 0) ∧
    parse Recorder.sink .standard 0 (blockText " ul " "li('\x7b')" " p") = (do
      let last ← parseHeader Recorder.sink .standard 0 "ul"
      let _ ← parse Recorder.sink .standard (last.getD 0) "li('\x7b')"
      let _ ← parse Recorder.sink .standard 0 " p"
      return 0) ∧
    ∃ header body rest,
      blockText " ul " "li('\x7b')" " p" = blockText header body rest ∧
        BlockForm header body rest := by
  obtain ⟨hheader, hblock, hcases⟩ :=
    parse_compositional Recorder.sink Settings.standard 0
  have hform : BlockForm " ul " "li('\x7b')" " p" :=
    ⟨by decide, by decide, ⟨_, rfl⟩, by decide, ⟨_, rfl⟩⟩
  obtain ⟨haccepted, hparse⟩ := hblock _ _ _ hform
  have htrim : trimmed " ul " = "ul" := by decide
  have hsome : "ul" ≠ "" := by decide
  rw [htrim, if_neg hsome] at hparse
  have hfree : braceFree .outside " ul ".toList := by decide
  have hul := hheader _ hfree
  rw [htrim, if_pos hsome] at hul
  refine ⟨hfree, hform, haccepted, ?_, ?_, ?_⟩
  · simpa using hul
  · simpa using hparse
  · rcases hcases _ haccepted with hbare | hblocks
    · exact absurd hbare (by decide)
    · exact hblocks

end Espalier.Markup
