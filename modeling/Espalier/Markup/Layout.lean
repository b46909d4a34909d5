/-
The layout of a markup text: its headers in source order, and how the blocks
nest around them.  It follows from the brace pairing alone, before any header is
read.

Work is kept on a stack of ranges instead of recursing into blocks.  A range is
cut at the next brace pair that opens inside it: the text before the brace is a
header, the block behind it is a range of its own, and what follows the block
goes on with the outer range.  Pairs are met in id order, so the next one to use
is always the first one left.
-/
import Espalier.Markup.Pairing

namespace Espalier.Markup

/-- A stretch of text between two byte positions. -/
structure Range where
  start : Nat
  stop : Nat
deriving DecidableEq, Repr, Inhabited

/-- One header of a text, and what comes after it. -/
inductive Cut where
  /-- The header ends at an opening brace: the pair's block comes next, and then
  the rest of the range that the header began. -/
  | block (start : Nat) (pair : BracePair)
  /-- The header ends its range. -/
  | tail (range : Range)
deriving DecidableEq, Repr

/-- Where the header of a cut lies. -/
def Cut.header : Cut → Range
  | .block start pair => ⟨start, pair.opens⟩
  | .tail range => range

@[simp] theorem Cut.header_block (start : Nat) (pair : BracePair) :
    (Cut.block start pair).header = ⟨start, pair.opens⟩ := rfl

@[simp] theorem Cut.header_tail (range : Range) : (Cut.tail range).header = range := rfl

/-- Cut a stack of ranges at the pairs that are left. -/
def cutRanges : List BracePair → List Range → List Cut
  | _, [] => []
  | [], range :: ranges => .tail range :: cutRanges [] ranges
  | pair :: pairs, range :: ranges =>
      if pair.opens < range.stop then
        .block range.start pair ::
          cutRanges pairs
            (⟨pair.opens + 1, pair.closes⟩ :: ⟨pair.closes + 1, range.stop⟩ :: ranges)
      else .tail range :: cutRanges (pair :: pairs) ranges
termination_by pairs ranges => (pairs.length, ranges.length)

/-- The layout of a text of the given byte length. -/
def Pairing.layout (pairing : Pairing) (length : Nat) : List Cut :=
  cutRanges pairing.toList [⟨0, length⟩]

end Espalier.Markup
