/-
Growing a brace structure by recursion.  The layout of a text and the stack of
parents that grows it come to the same as this recursion, so a parse means the
header in front of a block, the body of the block, and the rest of the text, one
after the other.
-/
import Espalier.Markup.Parse
import Espalier.Proofs.Markup.Blocks
import Espalier.Proofs.Program

namespace Espalier.Markup

open Espalier.Text Espalier.Program

variable {σ η : Type}

namespace Blocks

/-- The cuts of a structure whose text starts at a byte position. -/
def cutsAt : Nat → Blocks → List Cut
  | start, last header => [.tail ⟨start, start + byteLength header⟩]
  | start, block header body rest =>
      let opens := start + byteLength header
      let closes := opens + 1 + byteLength body.text
      .block start ⟨opens, closes⟩ ::
        (cutsAt (opens + 1) body ++ cutsAt (closes + 1) rest)

/-- No pair of a structure opens before its text starts. -/
theorem le_opens_of_mem_pairsAt {blocks : Blocks} {start : Nat} {pair : BracePair}
    (h : pair ∈ blocks.pairsAt start) : start ≤ pair.opens := by
  induction blocks generalizing start with
  | last header => simp [pairsAt] at h
  | block header body rest ihBody ihRest =>
      simp only [pairsAt, List.mem_cons, List.mem_append] at h
      rcases h with rfl | hbody | hrest
      · exact Nat.le_add_right start _
      · have := ihBody hbody
        omega
      · have := ihRest hrest
        omega

/-- The range of a header is not cut while no pair opens inside it. -/
theorem cutRanges_tail {pairs : List BracePair} {range : Range}
    (h : ∀ pair ∈ pairs, range.stop ≤ pair.opens) (ranges : List Range) :
    cutRanges pairs (range :: ranges) = .tail range :: cutRanges pairs ranges := by
  cases pairs with
  | nil => rw [cutRanges]
  | cons pair rest =>
      have hpair : ¬ pair.opens < range.stop :=
        Nat.not_lt.mpr (h pair List.mem_cons_self)
      rw [cutRanges, if_neg hpair]

/-- The range of a structure uses up the pairs of the structure and no others. -/
theorem cutRanges_pairsAt (blocks : Blocks) (start : Nat) {pairs : List BracePair}
    (h : ∀ pair ∈ pairs, start + byteLength blocks.text ≤ pair.opens)
    (ranges : List Range) :
    cutRanges (blocks.pairsAt start ++ pairs)
        (⟨start, start + byteLength blocks.text⟩ :: ranges) =
      blocks.cutsAt start ++ cutRanges pairs ranges := by
  induction blocks generalizing start pairs ranges with
  | last header => exact cutRanges_tail h ranges
  | block header body rest ihBody ihRest =>
      have hstop : start + byteLength (block header body rest).text =
          start + byteLength header + 1 + byteLength body.text + 1 +
            byteLength rest.text := by
        simp [text]
        omega
      rw [hstop] at h ⊢
      have hrest : ∀ pair ∈ rest.pairsAt
            (start + byteLength header + 1 + byteLength body.text + 1) ++ pairs,
          start + byteLength header + 1 + byteLength body.text ≤ pair.opens := by
        intro pair hpair
        rcases List.mem_append.mp hpair with hinside | hbehind
        · have := le_opens_of_mem_pairsAt hinside
          omega
        · have := h pair hbehind
          omega
      simp only [pairsAt, cutsAt, List.cons_append, List.append_assoc]
      rw [cutRanges, if_pos (by simp only; omega), ihBody _ hrest, ihRest _ h]

/-- The layout of a structure's text. -/
theorem layout_text (blocks : Blocks) :
    Pairing.layout ⟨(blocks.pairsAt 0).toArray⟩ (byteLength blocks.text) =
      blocks.cutsAt 0 := by
  have hnone : ∀ pair ∈ ([] : List BracePair),
      0 + byteLength blocks.text ≤ pair.opens := by simp
  have h := cutRanges_pairsAt blocks 0 hnone []
  simpa [Pairing.layout, Pairing.toList, cutRanges] using h

/-- Grow a structure into children of a parent: the header, then the body below
the last element of the header, then the rest. -/
def grow (sink : Sink σ η) (settings : Settings) :
    η → Blocks → EStateM TreeError σ Unit
  | parent, last header => do
      let _ ← growHeader sink settings parent (trim header)
  | parent, block header body rest => do
      let last ← growHeader sink settings parent (trim header)
      grow sink settings (last.getD parent) body
      grow sink settings parent rest

section Places

/-! The text of a structure may stand anywhere in a whole text.  Then so do the parts
of it. -/

variable {header : List Char} {body rest : Blocks} {whole front back : List Char}
  (hwhole : whole = front ++ ((block header body rest).text ++ back))
  {start : Nat} (hstart : start = byteLength front)
include hwhole

theorem body_place : whole =
    (front ++ header ++ ['{']) ++ (body.text ++ ('}' :: (rest.text ++ back))) := by
  simp [hwhole, text]

theorem rest_place : whole =
    (front ++ header ++ ['{'] ++ body.text ++ ['}']) ++ (rest.text ++ back) := by
  simp [hwhole, text]

include hstart

theorem slice_header : slice whole start (start + byteLength header) = header := by
  rw [hwhole, hstart, text, List.append_assoc, slice_append]

end Places

section Starts

variable {header : List Char} {body : Blocks} {front : List Char} {start : Nat}
  (hstart : start = byteLength front)
include hstart

theorem body_start :
    start + byteLength header + 1 = byteLength (front ++ header ++ ['{']) := by
  simp [hstart, Nat.add_assoc]

theorem rest_start : start + byteLength header + 1 + byteLength body.text + 1 =
    byteLength (front ++ header ++ ['{'] ++ body.text ++ ['}']) := by
  simp [hstart, Nat.add_assoc]

end Starts

/-- Where the text of a structure stands in a whole text, its cuts grow it into
the parent on top of the stack, and the cuts behind them go on with the stack
below. -/
theorem growCuts_cutsAt (sink : Sink σ η) (settings : Settings) (blocks : Blocks)
    {whole front back : List Char} (hwhole : whole = front ++ (blocks.text ++ back))
    {start : Nat} (hstart : start = byteLength front) (cuts : List Cut)
    (parent : η) (parents : List η) :
    growCuts sink settings whole (blocks.cutsAt start ++ cuts) (parent :: parents) =
      (do
        blocks.grow sink settings parent
        growCuts sink settings whole cuts parents) := by
  induction blocks generalizing front back start cuts parent parents with
  | last header =>
      simp [hwhole, hstart, text, cutsAt, growCuts, grow, slice_append]
  | block header body rest ihBody ihRest =>
      have hslice := slice_header hwhole hstart
      simp only [cutsAt, List.cons_append, List.append_assoc, growCuts, hslice, grow,
        bind_assoc]
      congr 1
      funext last
      rw [ihBody (body_place hwhole) (body_start hstart)]
      congr 1
      funext _
      rw [ihRest (rest_place hwhole) (rest_start hstart)]

end Blocks

/-- A brace fault is reported before anything is built. -/
theorem parse_of_fault (sink : Sink σ η) (settings : Settings) (parent : η) {text : String}
    {fault : BraceFault} (h : Pairing.ofText text.toList = .error fault) (s : σ) :
    parse sink settings parent text s = .error (.braces fault) s := by
  simp only [parse, h]
  rfl

/-- A parse grows the structure of its text. -/
theorem parse_eq_grow (sink : Sink σ η) (settings : Settings) (parent : η)
    {text : String} {blocks : Blocks} (hfits : blocks.Fits)
    (htext : text.toList = blocks.text) :
    parse sink settings parent text = (do
      (blocks.grow sink settings parent).adaptExcept .tree
      return parent) := by
  have hwhole : blocks.text = [] ++ (blocks.text ++ []) := by simp
  have hstart : 0 = byteLength [] := rfl
  have hgrow := blocks.growCuts_cutsAt sink settings hwhole hstart [] parent []
  rw [List.append_nil] at hgrow
  simp only [parse, htext, Pairing.ofText_text hfits, Blocks.layout_text, hgrow]
  rw [adaptExcept_bind, bind_assoc]
  rfl

end Espalier.Markup
