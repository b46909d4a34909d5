/-
The declarations of a text, over all of its headers.  They are read off the layout,
and a structure that spells the text has them in the order of its parts.
-/
import Espalier.Proofs.Markup.Growth

namespace Espalier.Markup

open Espalier.Text

/-- The declarations of a text in the order of its headers.  A text with a brace
fault declares nothing. -/
def declarations (text : List Char) : List Draft :=
  match Pairing.ofText text with
  | .error _ => []
  | .ok pairing =>
      (pairing.layout (byteLength text)).flatMap fun cut =>
        drafts (trim (slice text cut.header.start cut.header.stop))

namespace Blocks

/-- The declarations of a structure: those of its header, of the body behind it, and
of the rest. -/
def declarations : Blocks → List Draft
  | last header => drafts (trim header)
  | block header body rest =>
      drafts (trim header) ++ (body.declarations ++ rest.declarations)

theorem flatMap_cutsAt (blocks : Blocks) {whole front back : List Char}
    (hwhole : whole = front ++ (blocks.text ++ back)) {start : Nat}
    (hstart : start = byteLength front) :
    ((blocks.cutsAt start).flatMap fun cut =>
      drafts (trim (slice whole cut.header.start cut.header.stop))) =
        blocks.declarations := by
  induction blocks generalizing front back start with
  | last header =>
      simp [hwhole, hstart, text, cutsAt, declarations, slice_append]
  | block header body rest ihBody ihRest =>
      have hslice := slice_header hwhole hstart
      simp only [cutsAt, List.flatMap_cons, List.flatMap_append, Cut.header_block, hslice]
      rw [ihBody (body_place hwhole) (body_start hstart),
        ihRest (rest_place hwhole) (rest_start hstart), declarations]

end Blocks

theorem declarations_text {blocks : Blocks} (h : blocks.Fits) :
    declarations blocks.text = blocks.declarations := by
  have hwhole : blocks.text = [] ++ (blocks.text ++ []) := by simp
  rw [declarations, Pairing.ofText_text h]
  simp only [Blocks.layout_text]
  exact blocks.flatMap_cutsAt hwhole rfl

end Espalier.Markup
