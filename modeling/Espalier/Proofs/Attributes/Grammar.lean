/-
The grammar of an attribute block.  A block is a list of pieces between commas; a piece
is a key, and a value behind a colon, which only the last piece may lack.  The scan
of a block and the grammar agree: every block has exactly one reading, and its raw pairs
are the pieces of that reading.
-/
import Mathlib.Data.List.Forall2
import Mathlib.Logic.ExistsUnique
import Mathlib.Tactic.MkIffOfInductiveProp
import Espalier.Attributes.Block
import Espalier.Proofs.Attributes.Entries
import Espalier.Proofs.Text.Bare

namespace Espalier.Attributes

open Espalier.Text

/-! ### Pieces -/

/-- A piece of a block as it is written: a key, and the value behind the `:` that ends
it, if there is one. -/
structure Piece where
  key : List Char
  value : Option (List Char)
deriving DecidableEq, Repr

namespace Piece

/-- The text of a piece. -/
def text (piece : Piece) : List Char :=
  piece.key ++ (piece.value.map (':' :: ·)).getD []

/-- The halves of a piece. -/
def halves (piece : Piece) : List (List Char) :=
  piece.key :: piece.value.toList

/-- The raw pair of a piece.  A missing value is an empty one. -/
def pair (piece : Piece) : String × String :=
  (String.ofList piece.key, String.ofList (piece.value.getD []))

/-- The entry that a piece stands for: both halves are trimmed and lose one layer of quotes,
and there is none when the key is empty then. -/
def read (piece : Piece) : Option (String × String) :=
  readPair piece.pair

end Piece

/-- The block that pieces are written as. -/
def joined (pieces : List Piece) : List Char :=
  [','].intercalate (pieces.map Piece.text)

/-- Pieces that a block can be read as.  Each half is scanned on its own, from outside
quotes on. -/
@[mk_iff]
structure Grammatical (pieces : List Piece) : Prop where
  ne_nil : pieces ≠ []
  key_free : ∀ piece ∈ pieces, Quote.outside.bareAll (· != ':') piece.key
  value_free : ∀ piece ∈ pieces, ∀ value ∈ piece.value, Quote.outside.bareAll (· != ',') value
  /-- Only the last piece may lack a value. -/
  value_isSome : ∀ piece ∈ pieces.dropLast, piece.value.isSome
  /-- Only the last half of all may leave a quoted run open. -/
  closed : ∀ half ∈ (pieces.flatMap Piece.halves).dropLast, Quote.outside.after half = .outside

/-! ### Cutting at a bare character -/

/-- A text cut at the first bare place of a character, or not at all if there is none. -/
structure Cut (c : Char) (text front : List Char) (back : Option (List Char)) : Prop where
  text_eq : text = front ++ (back.map (c :: ·)).getD []
  free : Quote.outside.bareAll (· != c) front
  closed : back.isSome → Quote.outside.after front = .outside

theorem exists_cut (c : Char) (text : List Char) : ∃ front back, Cut c text front back := by
  cases hfree : Quote.outside.bareAll (· != c) text with
  | true => exact ⟨text, none, by simp, hfree, by simp⟩
  | false =>
      obtain ⟨front, d, back, rfl, hfront, hafter, hd⟩ :=
        Quote.exists_first_of_bareAll_eq_false hfree
      obtain rfl : d = c := by simpa using hd
      exact ⟨front, some back, rfl, hfront, fun _ => hafter⟩

/-- A text whose bare characters are all other ones does not go on with this one outside
quotes. -/
theorem bareAll_append_cons_eq_false {c : Char} (hmark : isQuoteMark c = false)
    {quote : Quote} {front : List Char} (hclosed : quote.after front = .outside)
    (back : List Char) : quote.bareAll (· != c) (front ++ c :: back) = false := by
  simp [Quote.bareAll_append, hclosed, Quote.bareAll, Quote.literal, hmark]

/-- The first bare place of a character is the only first one. -/
theorem append_cons_inj_of_bareAll {c : Char} (hmark : isQuoteMark c = false)
    {quote : Quote} {front front' back back' : List Char}
    (hfree : quote.bareAll (· != c) front) (hclosed : quote.after front = .outside)
    (hfree' : quote.bareAll (· != c) front') (hclosed' : quote.after front' = .outside)
    (h : front ++ c :: back = front' ++ c :: back') : front = front' ∧ back = back' := by
  rcases append_cons_eq_append_cons h with rfl | ⟨between, rfl, -⟩ | ⟨between, rfl, -⟩
  · exact ⟨rfl, by simpa using h⟩
  · rw [bareAll_append_cons_eq_false hmark hclosed] at hfree'
    contradiction
  · rw [bareAll_append_cons_eq_false hmark hclosed'] at hfree
    contradiction

theorem Cut.unique {c : Char} (hmark : isQuoteMark c = false) {text front front' : List Char}
    {back back' : Option (List Char)} (h : Cut c text front back)
    (h' : Cut c text front' back') : front = front' ∧ back = back' := by
  have hfree := h.free
  have hfree' := h'.free
  have htext := h.text_eq.symm.trans h'.text_eq
  cases back with
  | none =>
      cases back' with
      | none => exact ⟨by simpa using htext, rfl⟩
      | some rest =>
          obtain rfl : front = front' ++ c :: rest := by simpa using htext
          rw [bareAll_append_cons_eq_false hmark (h'.closed rfl)] at hfree
          contradiction
  | some rest =>
      cases back' with
      | none =>
          obtain rfl : front ++ c :: rest = front' := by simpa using htext
          rw [bareAll_append_cons_eq_false hmark (h.closed rfl)] at hfree'
          contradiction
      | some rest' =>
          obtain ⟨rfl, rfl⟩ := append_cons_inj_of_bareAll hmark hfree (h.closed rfl) hfree'
            (h'.closed rfl) htext
          exact ⟨rfl, rfl⟩

/-! ### Readings -/

/-- The pieces of a block, one cut after the other. -/
inductive Reading : List Char → List Piece → Prop
  | key {block key : List Char} (hkey : Cut ':' block key none) : Reading block [⟨key, none⟩]
  | value {block key value rest : List Char} (hkey : Cut ':' block key (some rest))
      (hvalue : Cut ',' rest value none) : Reading block [⟨key, some value⟩]
  | pair {block key value rest behind : List Char} {pieces : List Piece}
      (hkey : Cut ':' block key (some rest)) (hvalue : Cut ',' rest value (some behind))
      (hpieces : Reading behind pieces) : Reading block (⟨key, some value⟩ :: pieces)

theorem exists_reading (block : List Char) : ∃ pieces, Reading block pieces := by
  induction hlength : block.length using Nat.strongRecOn generalizing block with
  | ind length ih =>
      obtain ⟨key, afterKey, hkey⟩ := exists_cut ':' block
      cases afterKey with
      | none => exact ⟨_, .key hkey⟩
      | some rest =>
          obtain ⟨value, afterValue, hvalue⟩ := exists_cut ',' rest
          cases afterValue with
          | none => exact ⟨_, .value hkey hvalue⟩
          | some behind =>
              have hshorter : behind.length < length := by
                rw [← hlength, hkey.text_eq, hvalue.text_eq]
                simp
                omega
              obtain ⟨pieces, hpieces⟩ := ih _ hshorter behind rfl
              exact ⟨_, .pair hkey hvalue hpieces⟩

theorem Reading.unique {block : List Char} {pieces pieces' : List Piece}
    (h : Reading block pieces) (h' : Reading block pieces') : pieces = pieces' := by
  induction h generalizing pieces' with
  | key hkey =>
      cases h' with
      | key hkey' => rw [(hkey.unique rfl hkey').1]
      | value hkey' hvalue' => cases (hkey.unique rfl hkey').2
      | pair hkey' hvalue' hpieces' => cases (hkey.unique rfl hkey').2
  | value hkey hvalue =>
      cases h' with
      | key hkey' => cases (hkey.unique rfl hkey').2
      | value hkey' hvalue' =>
          obtain ⟨rfl, hrest⟩ := hkey.unique rfl hkey'
          cases hrest
          rw [(hvalue.unique rfl hvalue').1]
      | pair hkey' hvalue' hpieces' =>
          obtain ⟨rfl, hrest⟩ := hkey.unique rfl hkey'
          cases hrest
          cases (hvalue.unique rfl hvalue').2
  | pair hkey hvalue hpieces ih =>
      cases h' with
      | key hkey' => cases (hkey.unique rfl hkey').2
      | value hkey' hvalue' =>
          obtain ⟨rfl, hrest⟩ := hkey.unique rfl hkey'
          cases hrest
          cases (hvalue.unique rfl hvalue').2
      | pair hkey' hvalue' hpieces' =>
          obtain ⟨rfl, hrest⟩ := hkey.unique rfl hkey'
          cases hrest
          obtain ⟨rfl, hbehind⟩ := hvalue.unique rfl hvalue'
          cases hbehind
          rw [ih hpieces']

theorem Reading.ne_nil {block : List Char} {pieces : List Piece} (h : Reading block pieces) :
    pieces ≠ [] := by
  cases h <;> simp

theorem joined_cons (piece : Piece) {rest : List Piece} (h : rest ≠ []) :
    joined (piece :: rest) = piece.text ++ ',' :: joined rest := by
  rw [joined, List.map_cons, List.intercalate_cons_of_ne_nil (by simpa using h)]
  simp [joined]

theorem grammatical_key {key : List Char} :
    Grammatical [⟨key, none⟩] ↔ Quote.outside.bareAll (· != ':') key := by
  simp [grammatical_iff, Piece.halves]

theorem grammatical_value {key value : List Char} :
    Grammatical [⟨key, some value⟩] ↔ Quote.outside.bareAll (· != ':') key ∧
      Quote.outside.bareAll (· != ',') value ∧ Quote.outside.after key = .outside := by
  simp [grammatical_iff, Piece.halves]

theorem grammatical_cons {piece : Piece} {rest : List Piece} (hne : rest ≠ []) :
    Grammatical (piece :: rest) ↔
      (∃ value, piece.value = some value ∧ Quote.outside.bareAll (· != ':') piece.key ∧
        Quote.outside.after piece.key = .outside ∧ Quote.outside.bareAll (· != ',') value ∧
        Quote.outside.after value = .outside) ∧ Grammatical rest := by
  have hhalves : ((piece :: rest).flatMap Piece.halves).dropLast =
      piece.halves ++ (rest.flatMap Piece.halves).dropLast := by
    rw [List.flatMap_cons, List.dropLast_append_of_ne_nil]
    obtain ⟨next, others, rfl⟩ := List.exists_cons_of_ne_nil hne
    simp [Piece.halves]
  have hfront : (piece :: rest).dropLast = piece :: rest.dropLast :=
    List.dropLast_cons_of_ne_nil hne
  constructor
  · intro h
    have hclosed := h.closed
    have hisSome := h.value_isSome
    rw [hhalves, List.forall_mem_append] at hclosed
    rw [hfront, List.forall_mem_cons] at hisSome
    obtain ⟨value, hvalue⟩ := Option.isSome_iff_exists.mp hisSome.1
    refine ⟨⟨value, hvalue, h.key_free piece List.mem_cons_self, ?_, ?_, ?_⟩, hne, ?_, ?_,
      hisSome.2, hclosed.2⟩
    · exact hclosed.1 _ List.mem_cons_self
    · exact h.value_free piece List.mem_cons_self value hvalue
    · exact hclosed.1 _ (by simp [Piece.halves, hvalue])
    · exact fun other hother => h.key_free other (List.mem_cons_of_mem _ hother)
    · exact fun other hother => h.value_free other (List.mem_cons_of_mem _ hother)
  · rintro ⟨⟨value, hvalue, hkeyFree, hkeyClosed, hvalueFree, hvalueClosed⟩, hrest⟩
    refine ⟨List.cons_ne_nil _ _, ?_, ?_, ?_, ?_⟩
    · exact List.forall_mem_cons.mpr ⟨hkeyFree, hrest.key_free⟩
    · exact List.forall_mem_cons.mpr ⟨by simpa [hvalue] using hvalueFree, hrest.value_free⟩
    · rw [hfront]
      exact List.forall_mem_cons.mpr ⟨by simp [hvalue], hrest.value_isSome⟩
    · rw [hhalves]
      refine List.forall_mem_append.mpr ⟨?_, hrest.closed⟩
      simpa [Piece.halves, hvalue] using ⟨hkeyClosed, hvalueClosed⟩

theorem Reading.joined_eq {block : List Char} {pieces : List Piece} (h : Reading block pieces) :
    joined pieces = block := by
  induction h with
  | key hkey => rw [hkey.text_eq, joined]; simp [Piece.text]
  | value hkey hvalue =>
      rw [hkey.text_eq, hvalue.text_eq, joined]
      simp [Piece.text]
  | pair hkey hvalue hpieces ih =>
      rw [joined_cons _ hpieces.ne_nil, ih, hkey.text_eq, hvalue.text_eq]
      simp [Piece.text]

/-- A grammatical list of pieces is a reading of the block that it is written as. -/
theorem Grammatical.reading {pieces : List Piece} (h : Grammatical pieces) :
    Reading (joined pieces) pieces := by
  induction pieces with
  | nil => exact absurd rfl h.ne_nil
  | cons piece rest ih =>
      by_cases hrest : rest = []
      · subst hrest
        obtain ⟨key, _ | value⟩ := piece
        · exact .key ⟨by simp [joined, Piece.text], grammatical_key.mp h, by simp⟩
        · obtain ⟨hkey, hvalue, hclosed⟩ := grammatical_value.mp h
          exact .value ⟨by simp [joined, Piece.text], hkey, fun _ => hclosed⟩
            ⟨(List.append_nil value).symm, hvalue, by simp⟩
      · obtain ⟨⟨value, hvalue, hkeyFree, hkeyClosed, hvalueFree, hvalueClosed⟩, hbehind⟩ :=
          (grammatical_cons hrest).mp h
        obtain ⟨key, _⟩ := piece
        obtain rfl := hvalue
        have hkey : Cut ':' (joined (⟨key, some value⟩ :: rest)) key
            (some (value ++ ',' :: joined rest)) :=
          ⟨by simp [joined_cons _ hrest, Piece.text], hkeyFree, fun _ => hkeyClosed⟩
        exact .pair hkey ⟨rfl, hvalueFree, fun _ => hvalueClosed⟩ (ih hbehind)

theorem Reading.grammatical {block : List Char} {pieces : List Piece}
    (h : Reading block pieces) : Grammatical pieces := by
  induction h with
  | key hkey => exact grammatical_key.mpr hkey.free
  | value hkey hvalue =>
      exact grammatical_value.mpr ⟨hkey.free, hvalue.free, hkey.closed rfl⟩
  | pair hkey hvalue hpieces ih =>
      exact (grammatical_cons hpieces.ne_nil).mpr ⟨⟨_, rfl, hkey.free, hkey.closed rfl,
        hvalue.free, hvalue.closed rfl⟩, ih⟩

/-! ### The scan of a block -/

/-- The bare character that a half of a pair ends with. -/
def Half.stop : Half → Char
  | .key => ':'
  | .value => ','

namespace BlockScan

/-- Add a whole text to the half that is being read. -/
def extend (scan : BlockScan) (cs : List Char) : BlockScan :=
  match scan.half with
  | .key => { scan with key := scan.key ++ String.ofList cs }
  | .value => { scan with value := scan.value ++ String.ofList cs }

theorem extend_nil (scan : BlockScan) : scan.extend [] = scan := by
  obtain ⟨quote, half, key, value, pairs⟩ := scan
  cases half <;> simp [extend]

theorem extend_push (scan : BlockScan) (c : Char) (cs : List Char) :
    (scan.push c).extend cs = scan.extend (c :: cs) := by
  obtain ⟨quote, half, key, value, pairs⟩ := scan
  cases half <;> simp only [extend, push, append_ofList_cons]

/-- A character that is literal, or that does not end the half, belongs to it. -/
theorem feed_of_no_stop {scan : BlockScan} {c : Char}
    (h : (scan.quote.literal c || c != scan.half.stop) = true) :
    scan.feed c = { scan with quote := scan.quote.next c }.push c := by
  obtain ⟨quote, half, key, value, pairs⟩ := scan
  by_cases hliteral : quote.literal c = true
  · simp [feed, Quote.feed, hliteral]
  · have hstop : c ≠ half.stop := by simpa [hliteral] using h
    cases half <;> simp_all [feed, Quote.feed, Half.stop]

theorem half_push (scan : BlockScan) (c : Char) : (scan.push c).half = scan.half := by
  cases hhalf : scan.half <;> simp [push, hhalf]

theorem quote_push (scan : BlockScan) (c : Char) : (scan.push c).quote = scan.quote := by
  cases hhalf : scan.half <;> simp [push, hhalf]

theorem foldl_feed_of_no_stop {scan : BlockScan} {cs : List Char}
    (h : scan.quote.bareAll (· != scan.half.stop) cs) :
    cs.foldl feed scan = { scan with quote := scan.quote.after cs }.extend cs := by
  induction cs generalizing scan with
  | nil => exact (extend_nil scan).symm
  | cons c cs ih =>
      rw [Quote.bareAll, Bool.and_eq_true] at h
      rw [List.foldl_cons, feed_of_no_stop h.1, ih, ← extend_push, quote_push]
      · congr 1
        cases scan.half <;> simp [push]
      · rw [quote_push, half_push]
        exact h.2

/-- A scan at the start of a pair. -/
def atPair (pairs : Array (String × String)) : BlockScan :=
  { pairs }

/-- A scan in the middle of a pair. -/
def atValue (key : String) (pairs : Array (String × String)) : BlockScan :=
  { half := .value, key, pairs }

theorem foldl_feed_free {scan : BlockScan} {text : List Char} (hquote : scan.quote = .outside)
    (hfree : Quote.outside.bareAll (· != scan.half.stop) text) :
    text.foldl feed scan = { scan with quote := Quote.outside.after text }.extend text := by
  rw [← hquote] at hfree ⊢
  exact foldl_feed_of_no_stop hfree

/-- A key that is cut off leads to its value. -/
theorem foldl_feed_key {block key rest : List Char} (h : Cut ':' block key (some rest))
    (pairs : Array (String × String)) :
    block.foldl feed (atPair pairs) = rest.foldl feed (atValue (String.ofList key) pairs) := by
  have hkey := @foldl_feed_free (atPair pairs) key rfl h.free
  rw [h.text_eq, List.foldl_append, hkey, h.closed rfl]
  simp [atPair, atValue, extend, feed, Quote.feed, Quote.literal, Quote.next, isQuoteMark]

/-- A value that is cut off leads to the next pair. -/
theorem foldl_feed_value {block value rest : List Char} (h : Cut ',' block value (some rest))
    (key : String) (pairs : Array (String × String)) :
    block.foldl feed (atValue key pairs) =
      rest.foldl feed (atPair (pairs.push (key, String.ofList value))) := by
  have hvalue := @foldl_feed_free (atValue key pairs) value rfl h.free
  rw [h.text_eq, List.foldl_append, hvalue, h.closed rfl]
  simp [atPair, atValue, extend, feed, Quote.feed, Quote.literal, Quote.next, isQuoteMark,
    endPair]

/-- The scan of a block completes the pairs of its reading. -/
theorem endPair_foldl_feed {block : List Char} {pieces : List Piece}
    (h : Reading block pieces) (before : Array (String × String)) :
    (block.foldl feed (atPair before)).endPair.pairs =
      before ++ (pieces.map Piece.pair).toArray := by
  induction h generalizing before with
  | @key block key hkey =>
      obtain rfl : block = key := by simpa using hkey.text_eq
      rw [@foldl_feed_free (atPair before) block rfl hkey.free]
      simp [extend, endPair, atPair, Piece.pair]
  | @value block key value rest hkey hvalue =>
      obtain rfl : rest = value := by simpa using hvalue.text_eq
      rw [foldl_feed_key hkey, @foldl_feed_free (atValue _ before) rest rfl hvalue.free]
      simp [extend, endPair, atValue, Piece.pair]
  | pair hkey hvalue hpieces ih =>
      rw [foldl_feed_key hkey, foldl_feed_value hvalue, ih]
      simp [Piece.pair]

end BlockScan

/-- The raw pairs of a block are the pieces of its reading. -/
theorem rawPairs_of_reading {block : List Char} {pieces : List Piece}
    (h : Reading block pieces) : rawPairs block = pieces.map Piece.pair := by
  have hscan := BlockScan.endPair_foldl_feed h #[]
  simpa [rawPairs, BlockScan.atPair] using congrArg Array.toList hscan

theorem ofBlock_joined {pieces : List Piece} (h : Grammatical pieces) :
    ofBlock (String.ofList (joined pieces)) =
      ofEntries (pieces.filterMap Piece.read) := by
  have hread : readPair ∘ Piece.pair = Piece.read := by
    funext piece
    rw [Function.comp_apply, Piece.read]
  rw [ofBlock, String.toList_ofList, rawPairs_of_reading h.reading, List.filterMap_map, hread]

/-! ### Quoted halves -/

/-- A half that is a text between two quote marks of a kind that the text is free of. -/
def Wraps (half : List Char) (text : String) : Prop :=
  ∃ mark, isQuoteMark mark ∧ mark ∉ text.toList ∧ half = wrapped mark text.toList

/-- A piece with both halves between quote marks. -/
def Piece.Wraps (piece : Piece) (entry : String × String) : Prop :=
  Attributes.Wraps piece.key entry.1 ∧
    ∃ value, piece.value = some value ∧ Attributes.Wraps value entry.2

theorem Wraps.free {half : List Char} {text : String} (h : Wraps half text)
    (test : Char → Bool) : Quote.outside.bareAll test half := by
  obtain ⟨mark, hmark, hmem, rfl⟩ := h
  exact bareAll_wrapped hmark hmem

theorem Wraps.closed {half : List Char} {text : String} (h : Wraps half text) :
    Quote.outside.after half = .outside := by
  obtain ⟨mark, hmark, hmem, rfl⟩ := h
  exact after_wrapped hmark hmem

theorem Wraps.readHalf_eq {half : List Char} {text : String} (h : Wraps half text) :
    readHalf (String.ofList half) = text := by
  obtain ⟨mark, hmark, hmem, rfl⟩ := h
  rw [readHalf, String.toList_ofList, unquote_trim_wrapped hmark, String.ofList_toList]

theorem Piece.Wraps.read_eq {piece : Piece} {entry : String × String}
    (h : piece.Wraps entry) (hname : entry.1 ≠ "") : piece.read = some entry := by
  obtain ⟨hkey, value, hsome, hvalue⟩ := h
  simp [Piece.read, readPair, Piece.pair, hsome, hkey.readHalf_eq, hvalue.readHalf_eq, hname]

theorem grammatical_of_wraps {pieces : List Piece} {entries : List (String × String)}
    (h : List.Forall₂ Piece.Wraps pieces entries) (hne : pieces ≠ []) : Grammatical pieces := by
  induction h with
  | nil => contradiction
  | @cons piece entry rest _ hpiece _ ih =>
      obtain ⟨hkey, value, hsome, hvalue⟩ := hpiece
      by_cases hrest : rest = []
      · obtain ⟨key, _⟩ := piece
        obtain rfl := hsome
        subst hrest
        exact grammatical_value.mpr ⟨hkey.free _, hvalue.free _, hkey.closed⟩
      · exact (grammatical_cons hrest).mpr
          ⟨⟨value, hsome, hkey.free _, hkey.closed, hvalue.free _, hvalue.closed⟩, ih hrest⟩

/-- Quoted names and values are read verbatim. -/
theorem ofBlock_joined_of_wraps {pieces : List Piece} {entries : List (String × String)}
    (h : List.Forall₂ Piece.Wraps pieces entries) (hname : ∀ entry ∈ entries, entry.1 ≠ "") :
    ofBlock (String.ofList (joined pieces)) = ofEntries entries := by
  have hread : pieces.filterMap Piece.read = entries := by
    induction h with
    | nil => rfl
    | cons hpiece _ ih =>
        rw [List.forall_mem_cons] at hname
        rw [List.filterMap_cons_some (hpiece.read_eq hname.1), ih hname.2]
  by_cases hne : pieces = []
  · subst hne
    have hempty : readPair ("", "") = none := by decide
    obtain rfl := List.forall₂_nil_left_iff.mp h
    simp [joined, ofBlock, rawPairs, BlockScan.endPair, hempty]
  · rw [ofBlock_joined (grammatical_of_wraps h hne), hread]

/-! ### The grammar -/

/-- A block is read by its grammar.  Pieces with commas between them give the map of their
entries, the last one of a name counting.  Every block is written by exactly one
grammatical list of pieces.  In particular names and values between quote marks that they
do not contain are read as they are. -/
theorem ofBlock_reads_grammar :
    (∀ pieces, Grammatical pieces →
      ofBlock (String.ofList (joined pieces)) = ofEntries (pieces.filterMap Piece.read)) ∧
    (∀ block : String, ∃! pieces, Grammatical pieces ∧ String.ofList (joined pieces) = block) ∧
    ∀ pieces entries, List.Forall₂ Piece.Wraps pieces entries → (∀ entry ∈ entries, entry.1 ≠ "") →
      ofBlock (String.ofList (joined pieces)) = ofEntries entries ∧
        ∀ name, (ofBlock (String.ofList (joined pieces)))[name]? = entries.reverse.lookup name := by
  refine ⟨fun pieces h => ofBlock_joined h, ?_, ?_⟩
  · intro block
    obtain ⟨pieces, hreading⟩ := exists_reading block.toList
    refine ⟨pieces, ⟨hreading.grammatical, ?_⟩, ?_⟩
    · rw [hreading.joined_eq, String.ofList_toList]
    · rintro other ⟨hother, rfl⟩
      rw [String.toList_ofList] at hreading
      exact hother.reading.unique hreading
  · intro pieces entries hwraps hname
    have hblock := ofBlock_joined_of_wraps hwraps hname
    refine ⟨hblock, ?_⟩
    intro name
    rw [hblock, getElem?_ofEntries]

/-- A comma in a key, a colon in a value, a piece without a key, a key that comes twice and
a last piece with an open quote; and two quoted entries of one name. -/
theorem ofBlock_reads_grammar_mixed :
    let pieces : List Piece :=
      [⟨" a,b".toList, some "'x,y' ".toList⟩, ⟨"k".toList, some "p:q".toList⟩,
        ⟨" ".toList, some "1".toList⟩, ⟨"k".toList, some "z".toList⟩, ⟨"on'".toList, none⟩]
    let quotedPieces : List Piece :=
      [⟨"'k'".toList, some "\"1,'2'\"".toList⟩, ⟨"\"k\"".toList, some "' '".toList⟩]
    Grammatical pieces ∧ String.ofList (joined pieces) = " a,b:'x,y' ,k:p:q, :1,k:z,on'" ∧
      ofBlock " a,b:'x,y' ,k:p:q, :1,k:z,on'" =
        ofEntries [("a,b", "x,y"), ("k", "p:q"), ("k", "z"), ("on'", "")] ∧
      List.Forall₂ Piece.Wraps quotedPieces [("k", "1,'2'"), ("k", " ")] ∧
      (ofBlock "'k':\"1,'2'\",\"k\":' '")["k"]? = some " " := by
  intro pieces quotedPieces
  have hpieces : Grammatical pieces := by
    rw [grammatical_iff]
    decide
  have htext : String.ofList (joined pieces) = " a,b:'x,y' ,k:p:q, :1,k:z,on'" := by decide
  have hread : pieces.filterMap Piece.read =
      [("a,b", "x,y"), ("k", "p:q"), ("k", "z"), ("on'", "")] := by decide
  have hwraps : List.Forall₂ Piece.Wraps quotedPieces [("k", "1,'2'"), ("k", " ")] := by
    refine .cons ⟨⟨'\'', ?_⟩, _, rfl, '"', ?_⟩ (.cons ⟨⟨'"', ?_⟩, _, rfl, '\'', ?_⟩ .nil) <;> decide
  obtain ⟨hgrammar, -, hquoted⟩ := ofBlock_reads_grammar
  have hblock := hgrammar pieces hpieces
  rw [htext, hread] at hblock
  obtain ⟨-, hlookup⟩ := hquoted quotedPieces _ hwraps (by decide)
  exact ⟨hpieces, htext, hblock, hwraps, hlookup "k"⟩

end Espalier.Attributes
