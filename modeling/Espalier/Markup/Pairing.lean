/-
The brace pass: one quote-aware scan from left to right that pairs every
unquoted `{` of a markup text with its `}`.  It runs to the end before any
element is created, so a text with a brace fault leaves a tree untouched.
Positions are byte positions.
-/
import Espalier.Text.Bytes
import Espalier.Text.Quoted

namespace Espalier.Markup

open Espalier.Text

/-- Which way a brace fails to match. -/
inductive BraceFault where
  /-- A `}` with no open `{` before it. -/
  | unopened (position : Nat)
  /-- A `{` that the text never closes. -/
  | unclosed (position : Nat)
deriving DecidableEq, Repr

/-- The wording of a brace fault. -/
def BraceFault.message : BraceFault → String
  | .unopened position =>
      "'\x7d' at " ++ toString position ++ " has no matching '\x7b'"
  | .unclosed position => "'\x7b' at " ++ toString position ++ " is never closed"

/-- A matched pair of braces: where it opens and where it closes. -/
structure BracePair where
  opens : Nat
  closes : Nat
deriving DecidableEq, Repr, Inhabited

/-- The matched pairs of a text.  A pair's place in the pairing is its id; ids
follow the opening braces, so `opens` ascends. -/
structure Pairing where
  pairs : Array BracePair := #[]
deriving DecidableEq, Repr, Inhabited

/-- An opening brace that waits for its closing one. -/
structure OpenBrace where
  id : Nat
  position : Nat
deriving DecidableEq, Repr

/-- The state of the brace pass between two characters.  A pair enters `pairs`
when it opens, so that ids follow the opening braces, and gets its closing
position later; `pending` holds the open braces, the innermost first. -/
structure BraceScan where
  quote : Quote := .outside
  position : Nat := 0
  pairs : Array BracePair := #[]
  pending : List OpenBrace := []
deriving DecidableEq, Repr

namespace BraceScan

/-- Step over a character that is no brace, or is quoted. -/
def skip (scan : BraceScan) (c : Char) : BraceScan :=
  { scan with
    quote := scan.quote.next c
    position := scan.position + c.utf8Size }

/-- Enter a pair whose closing position is still to come. -/
def enter (scan : BraceScan) : BraceScan :=
  { scan with
    pairs := scan.pairs.push ⟨scan.position, scan.position⟩
    pending := ⟨scan.pairs.size, scan.position⟩ :: scan.pending }

/-- Close the innermost open pair. -/
def leave (scan : BraceScan) : Except BraceFault BraceScan :=
  match scan.pending with
  | [] => .error (.unopened scan.position)
  | brace :: pending =>
      .ok { scan with
        pairs := scan.pairs.setIfInBounds brace.id ⟨brace.position, scan.position⟩
        pending }

/-- Read one character. -/
def feed (scan : BraceScan) (c : Char) : Except BraceFault BraceScan :=
  if scan.quote.literal c then .ok (scan.skip c)
  else if c = '{' then .ok (scan.enter.skip c)
  else if c = '}' then (scan.leave).map (·.skip c)
  else .ok (scan.skip c)

/-- The pairing at the end of the text, when no pair is left open.  The innermost
open brace is the one that is reported. -/
def finish (scan : BraceScan) : Except BraceFault Pairing :=
  match scan.pending with
  | [] => .ok ⟨scan.pairs⟩
  | brace :: _ => .error (.unclosed brace.position)

end BraceScan

namespace Pairing

/-- The matched pairs of a text, or its brace fault. -/
def ofText (text : List Char) : Except BraceFault Pairing := do
  let scan ← text.foldlM BraceScan.feed {}
  scan.finish

/-- The number of pairs. -/
def size (pairing : Pairing) : Nat :=
  pairing.pairs.size

def isEmpty (pairing : Pairing) : Bool :=
  pairing.pairs.isEmpty

/-- The pairs in id order. -/
def toList (pairing : Pairing) : List BracePair :=
  pairing.pairs.toList

/-- Bisect the ids from `low` up to `high` for the first one whose pair opens at
or after `start`; `high` when there is none. -/
def firstFrom (pairing : Pairing) (start low high : Nat) : Nat :=
  if low < high then
    let middle := low + (high - low) / 2
    match pairing.pairs[middle]? with
    | some pair =>
        if pair.opens < start then pairing.firstFrom start (middle + 1) high
        else pairing.firstFrom start low middle
    | none => pairing.firstFrom start low middle
  else low
termination_by high - low

/-- The id and the pair of the first opening brace in `[start, stop)`. -/
def firstWithin? (pairing : Pairing) (start stop : Nat) : Option (Nat × BracePair) :=
  let id := pairing.firstFrom start 0 pairing.size
  match pairing.pairs[id]? with
  | some pair => if pair.opens < stop then some (id, pair) else none
  | none => none

end Pairing

end Espalier.Markup
