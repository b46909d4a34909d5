/-
Headers: the brace-free stretches of a markup text.  A header such as
`div.card<id:'x'>(Hi)#card p` lists declarations of sibling elements:

  tag     `tag.c1.c2`
  params  the text between `<` and `>`
  text    the text between `(` and `)`
  key     the text after `#`

A header is read one character at a time.  The mode says which part the next
character belongs to, and a character at or below the space ends a declaration
outside the bracketed parts.  A quoted character never changes the mode.
-/
import Espalier.Text.Quoted

namespace Espalier.Markup

open Espalier.Text

/-- What a header scan is reading. -/
inductive Mode where
  | tag
  | params
  | text
  | key
  /-- Between two declarations. -/
  | between
  /-- After a closed `<...>` or `(...)`. -/
  | detached
deriving DecidableEq, Repr, Inhabited

/-- What an unquoted character does. -/
inductive Action where
  /-- It belongs to the part being read. -/
  | keep
  /-- It ends the declaration. -/
  | finish
  /-- It changes the mode and is dropped. -/
  | enter (mode : Mode)
  /-- It is the first character of a new declaration. -/
  | start
deriving DecidableEq, Repr

/-- What an unquoted character does in a mode. -/
def Mode.action (mode : Mode) (c : Char) : Action :=
  match mode with
  | .params => if c = '>' then .enter .detached else .keep
  | .text => if c = ')' then .enter .detached else .keep
  | .between => if c ≤ ' ' then .keep else .start
  | .tag | .key | .detached =>
      if c ≤ ' ' then .finish
      else if c = '<' then .enter .params
      else if c = '(' then .enter .text
      else if c = '#' ∧ mode ≠ .key then .enter .key
      else .keep

/-- The parts of one declaration as they are written. -/
structure Draft where
  tag : String := ""
  params : String := ""
  text : String := ""
  key : String := ""
deriving DecidableEq, Repr, Inhabited

namespace Draft

/-- Add a character to the part that a mode reads.  Between declarations and
after a closed block there is no such part, and the character is dropped. -/
def push (draft : Draft) (mode : Mode) (c : Char) : Draft :=
  match mode with
  | .tag => { draft with tag := draft.tag.push c }
  | .params => { draft with params := draft.params.push c }
  | .text => { draft with text := draft.text.push c }
  | .key => { draft with key := draft.key.push c }
  | .between | .detached => draft

/-- Nothing has been written. -/
def isEmpty (draft : Draft) : Bool :=
  draft.tag.isEmpty && draft.params.isEmpty && draft.text.isEmpty && draft.key.isEmpty

end Draft

/-- A scan through a header: the declaration being read, and those that are
complete. -/
structure HeaderScan where
  quote : Quote := .outside
  mode : Mode := .tag
  draft : Draft := {}
  drafts : Array Draft := #[]
deriving DecidableEq, Repr

namespace HeaderScan

/-- Add a character to the part being read. -/
def push (scan : HeaderScan) (c : Char) : HeaderScan :=
  { scan with draft := scan.draft.push scan.mode c }

/-- End the declaration being read.  An empty one leaves no trace. -/
def endDraft (scan : HeaderScan) : HeaderScan :=
  if scan.draft.isEmpty then { scan with mode := .between }
  else { scan with mode := .between, draft := {}, drafts := scan.drafts.push scan.draft }

/-- Read one character. -/
def feed (scan : HeaderScan) (c : Char) : HeaderScan :=
  let (literal, quote) := scan.quote.feed c
  let scan := { scan with quote }
  if literal then scan.push c
  else
    match scan.mode.action c with
    | .keep => scan.push c
    | .finish => scan.endDraft
    | .enter mode => { scan with mode }
    | .start => { scan with mode := .tag }.push c

/-- Read a header from its first character on. -/
def ofHeader (header : List Char) : HeaderScan :=
  header.foldl feed {}

end HeaderScan

/-- The declarations of a header.  The end of the header ends the last one, also
inside an unclosed block. -/
def drafts (header : List Char) : List Draft :=
  (HeaderScan.ofHeader header).endDraft.drafts.toList

end Espalier.Markup
