/-
The attribute block `key:value,key:'value, with punctuation'` that a markup
declaration writes between `<` and `>`.

A block is first cut into raw pairs at its unquoted separators, and each raw
pair is then read on its own: both halves are trimmed and lose one layer of
quotes, and a pair without a key counts for nothing.
-/
import Espalier.Attributes
import Espalier.Text.Blank
import Espalier.Text.Quoted

namespace Espalier.Attributes

open Espalier.Text

/-- The half of a pair that a scan is reading. -/
inductive Half where
  | key
  | value
deriving DecidableEq, Repr

/-- A scan through an attribute block: the pair being read, and the raw pairs
that are complete. -/
structure BlockScan where
  quote : Quote := .outside
  half : Half := .key
  key : String := ""
  value : String := ""
  pairs : Array (String × String) := #[]

namespace BlockScan

/-- Add a character to the half that is being read. -/
def push (scan : BlockScan) (c : Char) : BlockScan :=
  match scan.half with
  | .key => { scan with key := scan.key.push c }
  | .value => { scan with value := scan.value.push c }

/-- Complete the pair that is being read. -/
def endPair (scan : BlockScan) : BlockScan :=
  { scan with
    half := .key
    key := ""
    value := ""
    pairs := scan.pairs.push (scan.key, scan.value) }

/-- Read one character.  The first unquoted `:` ends the key, and an unquoted
`,` after it ends the pair; every other character belongs to its half. -/
def feed (scan : BlockScan) (c : Char) : BlockScan :=
  let (literal, quote) := scan.quote.feed c
  let scan := { scan with quote }
  if literal then scan.push c
  else
    match scan.half with
    | .key => if c = ':' then { scan with half := .value } else scan.push c
    | .value => if c = ',' then scan.endPair else scan.push c

end BlockScan

/-- The raw pairs of a block.  The end of the block ends the last pair. -/
def rawPairs (block : List Char) : List (String × String) :=
  (block.foldl BlockScan.feed {}).endPair.pairs.toList

/-- Read a raw half: trim it, then take one layer of quotes off. -/
def readHalf (text : String) : String :=
  String.ofList (unquote (trim text.toList))

/-- Read a raw pair; `none` when its key is empty. -/
def readPair (pair : String × String) : Option (String × String) :=
  let key := readHalf pair.1
  if key.isEmpty then none else some (key, readHalf pair.2)

/-- The attributes that a block writes.  The last pair with a key counts. -/
def ofBlock (block : String) : Attributes :=
  ofEntries ((rawPairs block.toList).filterMap readPair)

end Espalier.Attributes
