/-
The brace structure of a text as a tree.  A text whose bare braces match is a
header that runs to its end, or a header, a block, and the rest of the text; the
body of the block and the rest are such texts again.

The main statement is that the brace pass pairs exactly the texts that a tree
spells, and finds the pairs that the tree shows.
-/
import Espalier.Markup.Pairing
import Espalier.Proofs.Text.Bare

namespace Espalier.Markup

open Espalier.Text

@[simp] theorem next_openBrace : Quote.outside.next '{' = .outside := rfl

@[simp] theorem next_closeBrace : Quote.outside.next '}' = .outside := rfl

@[simp] theorem utf8Size_openBrace : '{'.utf8Size = 1 := rfl

@[simp] theorem utf8Size_closeBrace : '}'.utf8Size = 1 := rfl

def notBrace (c : Char) : Bool :=
  c != '{' && c != '}'

theorem eq_brace_of_notBrace_eq_false {c : Char} (h : notBrace c = false) :
    c = '{' ∨ c = '}' := by
  by_cases hopen : c = '{'
  · exact Or.inl hopen
  · exact Or.inr (by simpa [notBrace, hopen] using h)

/-- Whether no brace of a text is bare, from where a scan stands. -/
def braceFree (quote : Quote) (text : List Char) : Bool :=
  quote.bareAll notBrace text

/-- The brace structure of a text. -/
inductive Blocks where
  /-- A header that the text ends with. -/
  | last (header : List Char)
  /-- A header, the block that follows it, and the rest of the text. -/
  | block (header : List Char) (body rest : Blocks)
deriving Repr, Inhabited

namespace Blocks

/-- The text that a structure spells. -/
def text : Blocks → List Char
  | last header => header
  | block header body rest => header ++ '{' :: (body.text ++ '}' :: rest.text)

/-- The headers of a structure are free of bare braces, and the quotes that a
header or a body opens are closed before the brace that follows it. -/
def Fits : Blocks → Prop
  | last header => braceFree .outside header
  | block header body rest =>
      braceFree .outside header ∧ Quote.outside.after header = .outside ∧
        body.Fits ∧ Quote.outside.after body.text = .outside ∧ rest.Fits

instance decidableFits : (blocks : Blocks) → Decidable blocks.Fits
  | last header => inferInstanceAs (Decidable (braceFree .outside header = true))
  | block header body rest =>
      have := decidableFits body
      have := decidableFits rest
      inferInstanceAs (Decidable (braceFree .outside header = true ∧
        Quote.outside.after header = .outside ∧ body.Fits ∧
          Quote.outside.after body.text = .outside ∧ rest.Fits))

/-- The quotes at the end of a block form are those at the end of its rest. -/
theorem after_text_block {header : List Char} {body : Blocks}
    (hheader : Quote.outside.after header = .outside)
    (hinside : Quote.outside.after body.text = .outside) (rest : Blocks) :
    Quote.outside.after (block header body rest).text = Quote.outside.after rest.text := by
  simp [text, Quote.after_append, hheader, hinside]

/-- The pairs of a structure whose text starts at a byte position, each ahead of
those inside it. -/
def pairsAt : Nat → Blocks → List BracePair
  | _, last _ => []
  | start, block header body rest =>
      let opens := start + byteLength header
      let closes := opens + 1 + byteLength body.text
      ⟨opens, closes⟩ :: (pairsAt (opens + 1) body ++ pairsAt (closes + 1) rest)

end Blocks

namespace BraceScan

/-- Step over a text without a look at its braces. -/
def advance (scan : BraceScan) (text : List Char) : BraceScan :=
  { scan with
    quote := scan.quote.after text
    position := scan.position + byteLength text }

/-- A character that is literal or no brace is stepped over. -/
theorem feed_of_free {scan : BraceScan} {c : Char}
    (h : (scan.quote.literal c || notBrace c) = true) :
    scan.feed c = .ok (scan.skip c) := by
  rw [feed]
  split
  · rfl
  · next hliteral =>
      simp_all [notBrace]

/-- The scan steps over a text without bare braces. -/
theorem foldlM_feed_of_braceFree {scan : BraceScan} {header : List Char}
    (h : braceFree scan.quote header) :
    header.foldlM feed scan = .ok (scan.advance header) := by
  induction header generalizing scan with
  | nil => rfl
  | cons c cs ih =>
      rw [braceFree, Quote.bareAll, Bool.and_eq_true] at h
      rw [List.foldlM_cons, feed_of_free h.1]
      have hrest : cs.foldlM feed (scan.skip c) = .ok ((scan.skip c).advance cs) :=
        ih h.2
      simpa [advance, skip, Nat.add_assoc, bind, Except.bind] using hrest

/-- The state of a scan that has read a text with these pairs. -/
def afterPairs (scan : BraceScan) (text : List Char) (pairs : List BracePair) :
    BraceScan :=
  { scan.advance text with pairs := scan.pairs ++ pairs.toArray }

/-- A bare `{` enters a pair, and the scan goes on behind it. -/
theorem foldlM_feed_open {scan : BraceScan} (hquote : scan.quote = .outside)
    (back : List Char) :
    ('{' :: back).foldlM feed scan = back.foldlM feed (scan.enter.advance ['{']) := by
  have hfeed : scan.feed '{' = .ok (scan.enter.advance ['{']) := by
    simp [feed, hquote, Quote.literal, isQuoteMark, advance, skip, enter]
  rw [List.foldlM_cons, hfeed]
  rfl

/-- A bare `}` closes the innermost open pair. -/
theorem foldlM_feed_close {scan : BraceScan} (hquote : scan.quote = .outside)
    {brace : OpenBrace} {pending : List OpenBrace}
    (hpending : scan.pending = brace :: pending) (back : List Char) :
    ('}' :: back).foldlM feed scan =
      back.foldlM feed
        ({ scan with
          pairs := scan.pairs.setIfInBounds brace.id ⟨brace.position, scan.position⟩
          pending : BraceScan }.advance ['}']) := by
  have hfeed : scan.feed '}' = .ok
      ({ scan with
        pairs := scan.pairs.setIfInBounds brace.id ⟨brace.position, scan.position⟩
        pending : BraceScan }.advance ['}']) := by
    simp [feed, hquote, Quote.literal, isQuoteMark, advance, skip, leave, hpending,
      Except.map]
  rw [List.foldlM_cons, hfeed]
  rfl

/-- A structure is scanned in one go: its pairs are added, and the braces that
were open before stay open. -/
theorem foldlM_feed_text {blocks : Blocks} (h : blocks.Fits) {scan : BraceScan}
    (hquote : scan.quote = .outside) :
    blocks.text.foldlM feed scan =
      .ok (scan.afterPairs blocks.text (blocks.pairsAt scan.position)) := by
  induction blocks generalizing scan with
  | last header =>
      rw [Blocks.text, foldlM_feed_of_braceFree (hquote ▸ h)]
      simp [afterPairs, Blocks.pairsAt, advance]
  | block header body rest ihBody ihRest =>
      obtain ⟨hfree, hheader, hbody, hinside, hrest⟩ := h
      have hopen : (scan.advance header).quote = .outside := by
        rw [advance, hquote, hheader]
      have hinner : ((scan.advance header).enter.advance ['{']).quote = .outside := by
        simp [advance, enter, hquote, hheader]
      rw [Blocks.text, List.foldlM_append, foldlM_feed_of_braceFree (hquote ▸ hfree)]
      change List.foldlM feed (scan.advance header) _ = _
      rw [foldlM_feed_open hopen, List.foldlM_append, ihBody hbody hinner]
      change List.foldlM feed (afterPairs _ _ _) _ = _
      -- the brace that the body leaves on top of the stack is the one before it
      have hpending : ((afterPairs ((scan.advance header).enter.advance ['{']) body.text
            (body.pairsAt ((scan.advance header).enter.advance ['{']).position)).pending) =
          ⟨scan.pairs.size, scan.position + byteLength header⟩ :: scan.pending := rfl
      rw [foldlM_feed_close ?_ hpending, ihRest hrest ?_]
      · simp [afterPairs, advance, enter, Blocks.pairsAt, Quote.after_append, hquote,
          hheader, hinside, Nat.add_assoc]
      · simp [afterPairs, advance, enter, hquote, hheader, hinside]
      · simp [afterPairs, advance, enter, hquote, hheader, hinside]

/-- A text that every scan outside quotes gets through, to stand outside quotes
again.  It may open braces that it does not close. -/
def Passes (text : List Char) : Prop :=
  ∀ scan : BraceScan, scan.quote = .outside →
    ∃ after, text.foldlM feed scan = .ok after ∧ after.quote = .outside ∧
      after.position = scan.position + byteLength text

theorem Passes.append {front back : List Char} (hfront : Passes front)
    (hback : Passes back) : Passes (front ++ back) := by
  intro scan hquote
  obtain ⟨middle, hmiddle, hmiddleQuote, hmiddlePosition⟩ := hfront scan hquote
  obtain ⟨after, hafter, hafterQuote, hafterPosition⟩ := hback middle hmiddleQuote
  refine ⟨after, ?_, hafterQuote, ?_⟩
  · rw [List.foldlM_append, hmiddle]
    exact hafter
  · rw [hafterPosition, hmiddlePosition, byteLength_append, Nat.add_assoc]

theorem passes_openBrace : Passes ['{'] := by
  intro scan hquote
  exact ⟨scan.enter.advance ['{'], foldlM_feed_open hquote [],
    by simp [advance, enter, hquote], by simp [advance, enter]⟩

theorem passes_text {blocks : Blocks} (h : blocks.Fits)
    (hclosed : Quote.outside.after blocks.text = .outside) : Passes blocks.text := by
  intro scan hquote
  exact ⟨_, foldlM_feed_text h hquote, by simp [afterPairs, advance, hquote, hclosed],
    by simp [afterPairs, advance]⟩

end BraceScan

open BraceScan

/-- A header in front of a block, as a structure of its own. -/
theorem Blocks.fits_block_nil {header : List Char} {body : Blocks}
    (hfree : braceFree .outside header) (hheader : Quote.outside.after header = .outside)
    (hbody : body.Fits) (hinside : Quote.outside.after body.text = .outside) :
    (Blocks.block header body (.last [])).Fits :=
  ⟨hfree, hheader, hbody, hinside, rfl⟩

/-- How the bare braces of a text can stand.  They match and the text has a
structure; or a structure ends at a `}` that nothing opens; or a structure
follows a `{` that nothing closes. -/
theorem exists_blocks (text : List Char) :
    (∃ blocks : Blocks, blocks.Fits ∧ text = blocks.text) ∨
      (∃ (blocks : Blocks) (back : List Char), blocks.Fits ∧
        Quote.outside.after blocks.text = .outside ∧
        text = blocks.text ++ '}' :: back) ∨
      ∃ (front : List Char) (blocks : Blocks), Passes front ∧ blocks.Fits ∧
        text = front ++ '{' :: blocks.text := by
  induction hlength : text.length using Nat.strongRecOn generalizing text with
  | ind n ih =>
      by_cases hfree : braceFree .outside text
      · exact Or.inl ⟨.last text, hfree, rfl⟩
      obtain ⟨header, brace, tail, rfl, hheader, hafter, hbrace⟩ :=
        Quote.exists_first_of_bareAll_eq_false ((Bool.not_eq_true _).mp hfree)
      obtain rfl | rfl := eq_brace_of_notBrace_eq_false hbrace
      · have hfits : (Blocks.last header).Fits := hheader
        have hpasses : Passes header := passes_text hfits hafter
        rcases ih tail.length (by simp at hlength; omega) tail rfl with
          ⟨body, hbody, rfl⟩ | ⟨body, rest, hbody, hinside, rfl⟩ |
            ⟨front, body, hfront, hbody, rfl⟩
        · exact Or.inr (Or.inr ⟨header, body, hpasses, hbody, rfl⟩)
        · -- the block is closed, so what follows it decides
          have hblock := Blocks.fits_block_nil hheader hafter hbody hinside
          rcases ih rest.length (by simp at hlength; omega) rest rfl with
            ⟨rest, hrest, rfl⟩ | ⟨rest, back, hrest, houtside, rfl⟩ |
              ⟨front, last, hfront, hlast, rfl⟩
          · exact Or.inl ⟨.block header body rest,
              ⟨hheader, hafter, hbody, hinside, hrest⟩, rfl⟩
          · refine Or.inr (Or.inl ⟨.block header body rest, back,
              ⟨hheader, hafter, hbody, hinside, hrest⟩, ?_, ?_⟩)
            · rw [Blocks.after_text_block hafter hinside, houtside]
            · simp [Blocks.text]
          · refine Or.inr (Or.inr
              ⟨(Blocks.block header body (.last [])).text ++ front, last,
                (passes_text hblock ?_).append hfront, hlast, ?_⟩)
            · rw [Blocks.after_text_block hafter hinside, Blocks.text, Quote.after_nil]
            · simp [Blocks.text]
        · refine Or.inr (Or.inr ⟨header ++ (['{'] ++ front), body,
            hpasses.append (passes_openBrace.append hfront), hbody, ?_⟩)
          simp
      · exact Or.inr (Or.inl ⟨.last header, tail, hheader, hafter, rfl⟩)

namespace Pairing

/-- The brace pass finds the pairs of a structure. -/
theorem ofText_text {blocks : Blocks} (h : blocks.Fits) :
    ofText blocks.text = .ok ⟨(blocks.pairsAt 0).toArray⟩ := by
  rw [ofText, foldlM_feed_text h rfl]
  simp [bind, Except.bind, afterPairs, advance, finish]

/-- A `}` behind a structure is the brace that is reported. -/
theorem ofText_unopened {blocks : Blocks} (h : blocks.Fits)
    (hclosed : Quote.outside.after blocks.text = .outside) (back : List Char) :
    ofText (blocks.text ++ '}' :: back) =
      .error (.unopened (byteLength blocks.text)) := by
  rw [ofText, List.foldlM_append, foldlM_feed_text h rfl]
  simp [bind, Except.bind, afterPairs, advance, feed, hclosed, Quote.literal,
    isQuoteMark, leave, Except.map]

/-- Of the braces that are never closed the last one is reported. -/
theorem ofText_unclosed {front : List Char} (hfront : Passes front) {blocks : Blocks}
    (h : blocks.Fits) :
    ofText (front ++ '{' :: blocks.text) = .error (.unclosed (byteLength front)) := by
  obtain ⟨scan, hscan, hquote, hposition⟩ := hfront {} rfl
  rw [ofText, List.foldlM_append, hscan]
  change (List.foldlM BraceScan.feed scan _ >>= _) = _
  rw [foldlM_feed_open hquote, foldlM_feed_text h (by simp [advance, enter, hquote])]
  simp [bind, Except.bind, afterPairs, advance, enter, finish, hposition]

/-- The brace pass accepts exactly the texts that a structure spells. -/
theorem ofText_eq_ok_iff {text : List Char} {pairing : Pairing} :
    ofText text = .ok pairing ↔
      ∃ blocks : Blocks, blocks.Fits ∧ text = blocks.text ∧
        pairing = ⟨(blocks.pairsAt 0).toArray⟩ := by
  constructor
  · intro h
    rcases exists_blocks text with ⟨blocks, hfits, rfl⟩ |
        ⟨blocks, back, hfits, hclosed, rfl⟩ | ⟨front, blocks, hfront, hfits, rfl⟩
    · rw [ofText_text hfits] at h
      exact ⟨blocks, hfits, rfl, (Except.ok.inj h).symm⟩
    · rw [ofText_unopened hfits hclosed] at h
      contradiction
    · rw [ofText_unclosed hfront hfits] at h
      contradiction
  · rintro ⟨blocks, hfits, rfl, rfl⟩
    exact ofText_text hfits

end Pairing

/-- The brace pass accepts a text. -/
def Accepted (text : List Char) : Prop :=
  ∃ pairing, Pairing.ofText text = .ok pairing

theorem accepted_iff {text : List Char} :
    Accepted text ↔ ∃ blocks : Blocks, blocks.Fits ∧ text = blocks.text := by
  constructor
  · rintro ⟨pairing, h⟩
    obtain ⟨blocks, hfits, htext, -⟩ := Pairing.ofText_eq_ok_iff.mp h
    exact ⟨blocks, hfits, htext⟩
  · rintro ⟨blocks, hfits, rfl⟩
    exact ⟨_, Pairing.ofText_text hfits⟩

end Espalier.Markup
