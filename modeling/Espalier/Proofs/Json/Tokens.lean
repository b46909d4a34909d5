/-
Written tokens read back.  A word has no end of its own: it lasts until a character that
ends it, so two words may not stand next to each other.  Every other token is complete with
its last character.
-/
import Mathlib.Data.List.Chain
import Espalier.Json.Token
import Espalier.Proofs.Text.Bare

namespace Espalier.Json

/-! ### Words -/

/-- The characters that numbers are made of. -/
def isNumberChar (c : Char) : Bool :=
  c.isDigit || ['.', '-', '+', 'e', 'E'].contains c

theorem isNumberChar_of_isDigit {c : Char} (h : c.isDigit) : isNumberChar c := by
  simp [isNumberChar, h]

theorem isNumberChar_of_takeWhile {cs : List Char}
    (h : ∀ c ∈ cs.dropWhile (·.isDigit), isNumberChar c) : ∀ c ∈ cs, isNumberChar c := by
  intro c hc
  rw [← List.takeWhile_append_dropWhile (p := (·.isDigit)) (l := cs), List.mem_append] at hc
  rcases hc with hdigit | hrest
  · exact isNumberChar_of_isDigit (List.all_eq_true.mp List.all_takeWhile c hdigit)
  · exact h c hrest

theorem isNumberChar_of_isExponentPart {cs : List Char} (h : isExponentPart cs) :
    ∀ c ∈ cs, isNumberChar c := by
  have hdigits : ∀ {digits : List Char}, digits.all (·.isDigit) → ∀ c ∈ digits, isNumberChar c :=
    fun hall c hc => isNumberChar_of_isDigit (List.all_eq_true.mp hall c hc)
  cases cs with
  | nil => simp
  | cons mark rest =>
      simp only [isExponentPart, Bool.and_eq_true, Bool.or_eq_true, beq_iff_eq] at h
      obtain ⟨⟨hmark, -⟩, hall⟩ := h
      have hfirst : isNumberChar mark := by
        rcases hmark with rfl | rfl <;> rfl
      have hrest : ∀ c ∈ rest, isNumberChar c := by
        split at hall
        · exact List.forall_mem_cons.mpr ⟨rfl, hdigits hall⟩
        · exact List.forall_mem_cons.mpr ⟨rfl, hdigits hall⟩
        · exact hdigits hall
      exact List.forall_mem_cons.mpr ⟨hfirst, hrest⟩

theorem isNumberChar_of_isFractionPart {cs : List Char} (h : isFractionPart cs) :
    ∀ c ∈ cs, isNumberChar c := by
  unfold isFractionPart at h
  split at h
  · rw [Bool.and_eq_true] at h
    exact List.forall_mem_cons.mpr
      ⟨rfl, isNumberChar_of_takeWhile (isNumberChar_of_isExponentPart h.2)⟩
  · exact isNumberChar_of_isExponentPart h

theorem isNumberChar_of_isUnsignedNumber {cs : List Char} (h : isUnsignedNumber cs) :
    cs ≠ [] ∧ ∀ c ∈ cs, isNumberChar c := by
  unfold isUnsignedNumber at h
  split at h
  · exact ⟨List.cons_ne_nil _ _,
      List.forall_mem_cons.mpr ⟨rfl, isNumberChar_of_isFractionPart h⟩⟩
  · rw [Bool.and_eq_true] at h
    exact ⟨List.cons_ne_nil _ _, List.forall_mem_cons.mpr ⟨isNumberChar_of_isDigit h.1,
      isNumberChar_of_takeWhile (isNumberChar_of_isFractionPart h.2)⟩⟩
  · contradiction

theorem isNumberChar_of_isNumber {cs : List Char} (h : isNumber cs) :
    cs ≠ [] ∧ ∀ c ∈ cs, isNumberChar c := by
  unfold isNumber at h
  split at h
  · exact ⟨List.cons_ne_nil _ _,
      List.forall_mem_cons.mpr ⟨rfl, (isNumberChar_of_isUnsignedNumber h).2⟩⟩
  · exact isNumberChar_of_isUnsignedNumber h

namespace TokenScan

/-- The characters that end a word, besides the end of the text. -/
theorem mem_of_endsWord {c : Char} (h : endsWord c) :
    c ∈ [' ', '\t', '\n', '\r', '"', '[', ']', '{', '}', ',', ':'] := by
  simp only [endsWord, isSpace, Bool.or_eq_true, beq_iff_eq] at h
  rcases h with (hspace | rfl) | hmark
  · rcases hspace with ((rfl | rfl) | rfl) | rfl <;> decide
  · decide
  · rw [mark?] at hmark
    repeat' split at hmark
    all_goals first | (subst_vars; decide) | contradiction

theorem not_endsWord_of_isNumberChar {c : Char} (h : isNumberChar c) : endsWord c = false := by
  rw [← Bool.not_eq_true]
  intro hends
  have hnone : ∀ d ∈ [' ', '\t', '\n', '\r', '"', '[', ']', '{', '}', ',', ':'],
      isNumberChar d = false := by simp [isNumberChar]
  rw [hnone c (mem_of_endsWord hends)] at h
  contradiction

/-- A word is read to its end. -/
theorem foldlM_feed_word {cs : List Char} (h : ∀ c ∈ cs, endsWord c = false) (word : String)
    (tokens : Array Token) :
    cs.foldlM feed ⟨.word word, tokens⟩ = some ⟨.word (word ++ String.ofList cs), tokens⟩ := by
  induction cs generalizing word with
  | nil => simp
  | cons c cs ih =>
      rw [List.forall_mem_cons] at h
      have hfeed : feed ⟨.word word, tokens⟩ c = some ⟨.word (word.push c), tokens⟩ := by
        simp [feed, h.1]
      rw [List.foldlM_cons, hfeed, Text.append_ofList_cons]
      exact ih h.2 _

theorem feed_gap_of_not_endsWord {c : Char} (h : endsWord c = false) (tokens : Array Token) :
    feed ⟨.gap, tokens⟩ c = some ⟨.word (String.singleton c), tokens⟩ := by
  simp only [endsWord, Bool.or_eq_false_iff, Option.isSome_eq_false_iff,
    Option.isNone_iff_eq_none, beq_eq_false_iff_ne] at h
  obtain ⟨⟨hspace, hquote⟩, hmark⟩ := h
  simp [feed, feedGap, hspace, hquote, hmark]

/-- A character that ends a word is then read as if it stood between tokens. -/
theorem feed_word_of_endsWord {c : Char} (h : endsWord c) {word : String} {token : Token}
    (hword : wordToken? word = some token) (tokens : Array Token) :
    feed ⟨.word word, tokens⟩ c = feed ⟨.gap, tokens.push token⟩ c := by
  simp [feed, h, hword]

end TokenScan

/-! ### Strings -/

theorem hexValue?_hexDigit (n : Nat) : hexValue? (hexDigit n) = some (n % 16) := by
  have hdigit : ∀ k < 16, hexValue? (Nat.digitChar k) = some k := by decide
  exact hdigit (n % 16) (Nat.mod_lt n (by decide))

namespace StringScan

/-- The scan of a string outside escape sequences, with a text read so far. -/
def reading (text : String) : StringScan :=
  { text := some text }

/-- A control character is written as its four hexadecimal digits. -/
theorem foldlM_feed_control (text : String) {c : Char} (hcontrol : c.toNat < 0x20) :
    ['\\', 'u', '0', '0', hexDigit (c.toNat / 16), hexDigit c.toNat].foldlM feed (reading text) =
      some (reading (text.push c)) := by
  have hfront : ['\\', 'u', '0', '0'].foldlM feed (reading text) =
      some { text := some text, escape := .digits 2 0 } := rfl
  have hhigh : feed { text := some text, escape := .digits 2 0 } (hexDigit (c.toNat / 16)) =
      some { text := some text, escape := .digits 3 (c.toNat / 16) } := by
    have hmod : c.toNat / 16 % 16 = c.toNat / 16 := by omega
    simp [feed, hexValue?_hexDigit, hmod]
  have hlow : feed { text := some text, escape := .digits 3 (c.toNat / 16) } (hexDigit c.toNat) =
      some (reading (text.push c)) := by
    have hcode : c.toNat / 16 * 16 + c.toNat % 16 = c.toNat := by omega
    have hhigh : isHighSurrogate c.toNat = false := by
      simp [isHighSurrogate]
      omega
    have hlow : isLowSurrogate c.toNat = false := by
      simp [isLowSurrogate]
      omega
    simp [feed, hexValue?_hexDigit, hcode, pushUnit, hhigh, hlow, reading]
  have hsplit : ['\\', 'u', '0', '0', hexDigit (c.toNat / 16), hexDigit c.toNat] =
      ['\\', 'u', '0', '0'] ++ [hexDigit (c.toNat / 16), hexDigit c.toNat] := rfl
  rw [hsplit, List.foldlM_append, hfront]
  simp [hhigh, hlow]

/-- A character is read back from its spelling. -/
theorem foldlM_feed_escape (text : String) (c : Char) :
    (Json.escape c).foldlM feed (reading text) = some (reading (text.push c)) := by
  rw [Json.escape]
  split
  · next h => subst h; rfl
  split
  · next h => subst h; rfl
  split
  · next h => subst h; rfl
  split
  · next h => subst h; rfl
  split
  · next h => subst h; rfl
  split
  · next h => subst h; rfl
  split
  · next h => subst h; rfl
  split
  · next hcontrol => exact foldlM_feed_control text hcontrol
  · next hquote hslash _ _ _ _ _ hcontrol =>
      simp [feed, reading, hslash, hcontrol, push]

end StringScan

theorem hexDigit_ne_quote (n : Nat) : hexDigit n ≠ '"' := by
  have hdigit : ∀ k < 16, Nat.digitChar k ≠ '"' := by decide
  exact hdigit (n % 16) (Nat.mod_lt n (by decide))

/-- Only the quote mark is written with one. -/
theorem not_mem_escape {c : Char} (h : c ≠ '"') : '"' ∉ escape c := by
  simp only [escape, if_neg h]
  repeat' split
  all_goals simp [Ne.symm h, Ne.symm (hexDigit_ne_quote _)]

namespace TokenScan

/-- Without a quote mark a string goes on. -/
theorem foldlM_feed_string {cs : List Char} (h : '"' ∉ cs) (inner : StringScan)
    (tokens : Array Token) :
    cs.foldlM feed ⟨.string inner, tokens⟩ =
      (cs.foldlM StringScan.feed inner).map fun after => ⟨.string after, tokens⟩ := by
  induction cs generalizing inner with
  | nil => rfl
  | cons c cs ih =>
      rw [List.mem_cons, not_or] at h
      have hfeed : feed ⟨.string inner, tokens⟩ c =
          (inner.feed c).map fun after => ⟨.string after, tokens⟩ := by
        simp only [feed, Ne.symm h.1, false_and, if_false, Option.map_eq_bind]
        rfl
      rw [List.foldlM_cons, List.foldlM_cons, hfeed]
      cases inner.feed c with
      | none => rfl
      | some after => exact ih h.2 after

open StringScan (reading) in
theorem foldlM_feed_escape (text : String) (c : Char) (tokens : Array Token) :
    (escape c).foldlM feed ⟨.string (reading text), tokens⟩ =
      some ⟨.string (reading (text.push c)), tokens⟩ := by
  by_cases hquote : c = '"'
  · subst hquote
    rfl
  · rw [foldlM_feed_string (not_mem_escape hquote), StringScan.foldlM_feed_escape]
    rfl

open StringScan (reading) in
theorem foldlM_feed_flatMap_escape (cs : List Char) (text : String) (tokens : Array Token) :
    (cs.flatMap escape).foldlM feed ⟨.string (reading text), tokens⟩ =
      some ⟨.string (reading (text ++ String.ofList cs)), tokens⟩ := by
  induction cs generalizing text with
  | nil => simp
  | cons c cs ih =>
      rw [List.flatMap_cons, List.foldlM_append, foldlM_feed_escape, Text.append_ofList_cons]
      exact ih _

/-- A string is read to its closing quote mark. -/
theorem foldlM_feed_quoted {cs : List Char} {tokens : Array Token} {scan : StringScan}
    (h : cs.foldlM feed ⟨.string (StringScan.reading ""), tokens⟩ = some ⟨.string scan, tokens⟩)
    (hescape : scan.escape = .outside) :
    ('"' :: (cs ++ ['"'])).foldlM feed ⟨.gap, tokens⟩ =
      some ⟨.gap, tokens.push (.string scan.finish)⟩ := by
  have hopen : feed ⟨.gap, tokens⟩ '"' = some ⟨.string (StringScan.reading ""), tokens⟩ := rfl
  have hclose : feed ⟨.string scan, tokens⟩ '"' =
      some ⟨.gap, tokens.push (.string scan.finish)⟩ := by
    simp [feed, hescape]
  rw [List.foldlM_cons, hopen]
  simp [h, hclose]

theorem foldlM_feed_spellString (text : Option String) (tokens : Array Token) :
    (spellString text).foldlM feed ⟨.gap, tokens⟩ =
      some ⟨.gap, tokens.push (.string text)⟩ := by
  cases text with
  | none =>
      -- half a pair still waits at the closing quote mark
      let waiting : StringScan := { half := some 0xD800 }
      have hspell : spellString none = '"' :: ("\\ud800".toList ++ ['"']) := by decide
      have hhalf : "\\ud800".toList.foldlM StringScan.feed (StringScan.reading "") =
          some waiting := by decide
      have hchars := foldlM_feed_string (show '"' ∉ "\\ud800".toList by decide)
        (StringScan.reading "") tokens
      rw [hhalf] at hchars
      rw [hspell]
      exact foldlM_feed_quoted hchars rfl
  | some text =>
      have hchars := foldlM_feed_flatMap_escape text.toList "" tokens
      rw [String.ofList_toList, String.empty_append] at hchars
      exact foldlM_feed_quoted hchars rfl

end TokenScan

/-! ### Lists of tokens -/

/-- A number that is one. -/
def Token.Valid : Token → Prop
  | .number literal => isNumber literal.toList
  | _ => True

/-- The tokens without an end of their own. -/
def Token.isWord : Token → Bool
  | .null | .bool _ | .number _ => true
  | _ => false

/-- Two tokens that can stand next to each other. -/
def Apart (first second : Token) : Prop :=
  first.isWord = false ∨ second.isWord = false

theorem wordToken?_number {literal : String} (h : isNumber literal.toList) :
    wordToken? literal = some (.number literal) := by
  have hne : ∀ name ∈ ["null", "true", "false"], literal ≠ name := by
    rintro name hname rfl
    have hnone : ∀ name ∈ ["null", "true", "false"], isNumber name.toList = false := by decide
    rw [hnone _ hname] at h
    contradiction
  simp only [List.mem_cons, List.not_mem_nil, or_false, forall_eq_or_imp, forall_eq] at hne
  simp [wordToken?, hne, h]

/-- A word is spelled without characters that end words. -/
theorem Token.exists_word {token : Token} (hvalid : token.Valid) (hword : token.isWord) :
    ∃ c cs, token.spell = c :: cs ∧ (∀ d ∈ c :: cs, TokenScan.endsWord d = false) ∧
      wordToken? (String.ofList token.spell) = some token := by
  cases token with
  | null =>
      refine ⟨'n', ['u', 'l', 'l'], rfl, ?_, rfl⟩
      simp [TokenScan.endsWord, isSpace, mark?]
  | bool value =>
      cases value with
      | false =>
          refine ⟨'f', ['a', 'l', 's', 'e'], rfl, ?_, rfl⟩
          simp [TokenScan.endsWord, isSpace, mark?]
      | true =>
          refine ⟨'t', ['r', 'u', 'e'], rfl, ?_, rfl⟩
          simp [TokenScan.endsWord, isSpace, mark?]
  | number literal =>
      obtain ⟨hne, hchars⟩ := isNumberChar_of_isNumber hvalid
      obtain ⟨c, cs, hspell⟩ := List.exists_cons_of_ne_nil hne
      refine ⟨c, cs, hspell, ?_, ?_⟩
      · intro d hd
        rw [← hspell] at hd
        exact TokenScan.not_endsWord_of_isNumberChar (hchars d hd)
      · rw [spell, String.ofList_toList]
        exact wordToken?_number hvalid
  | _ => contradiction

/-- Any other token is complete with its last character, and its first one ends a word. -/
theorem Token.foldlM_feed_spell {token : Token} (hword : token.isWord = false)
    (before : Array Token) :
    token.spell.foldlM TokenScan.feed ⟨.gap, before⟩ = some ⟨.gap, before.push token⟩ ∧
      ∃ c cs, token.spell = c :: cs ∧ TokenScan.endsWord c := by
  cases token with
  | null | bool | number => contradiction
  | string text =>
      refine ⟨TokenScan.foldlM_feed_spellString text before, '"', ?_⟩
      cases text with
      | none => exact ⟨_, rfl, rfl⟩
      | some text => exact ⟨_, rfl, rfl⟩
  | beginArray | endArray | beginObject | endObject | comma | colon =>
      exact ⟨rfl, _, _, rfl, rfl⟩

/-- A word is read up to whatever stands behind it. -/
theorem Token.foldlM_feed_spell_word {token : Token} (hvalid : token.Valid)
    (hword : token.isWord) (before : Array Token) :
    token.spell.foldlM TokenScan.feed ⟨.gap, before⟩ =
      some ⟨.word (String.ofList token.spell), before⟩ := by
  obtain ⟨c, cs, hspell, hends, -⟩ := exists_word hvalid hword
  rw [List.forall_mem_cons] at hends
  have hrest := TokenScan.foldlM_feed_word hends.2 (String.singleton c) before
  rw [hspell, List.foldlM_cons, TokenScan.feed_gap_of_not_endsWord hends.1]
  have hsingle : String.ofList (c :: cs) = String.singleton c ++ String.ofList cs := by
    rw [← String.toList_inj]
    simp
  rw [hsingle]
  exact hrest

/-- A list of tokens behind others that have been read. -/
theorem finish_foldlM_feed {tokens : List Token} (hvalid : ∀ token ∈ tokens, token.Valid)
    (hapart : tokens.IsChain Apart) (before : Array Token) :
    ((tokens.flatMap Token.spell).foldlM TokenScan.feed ⟨.gap, before⟩).bind TokenScan.finish =
      some (before.toList ++ tokens) := by
  induction tokens generalizing before with
  | nil => simp [TokenScan.finish]
  | cons token rest ih =>
      rw [List.forall_mem_cons] at hvalid
      have hrest := ih hvalid.2 hapart.tail (before.push token)
      rw [Array.toList_push, List.append_assoc, List.singleton_append] at hrest
      rw [List.flatMap_cons, List.foldlM_append]
      cases hword : token.isWord with
      | false =>
          rw [(Token.foldlM_feed_spell hword before).1]
          exact hrest
      | true =>
          obtain ⟨-, -, -, -, htoken⟩ := Token.exists_word hvalid.1 hword
          rw [Token.foldlM_feed_spell_word hvalid.1 hword]
          cases rest with
          | nil => simp [TokenScan.finish, htoken]
          | cons next others =>
              -- the next token is no word, so its first character ends this one
              have hnext : next.isWord = false := by
                have hpair := (List.isChain_cons_cons.mp hapart).1
                simpa [Apart, hword] using hpair
              obtain ⟨-, c, cs, hspell, hends⟩ := Token.foldlM_feed_spell hnext before
              rw [List.flatMap_cons, hspell, List.cons_append] at hrest ⊢
              rw [← hrest, Option.bind_eq_bind, Option.bind_some, List.foldlM_cons,
                List.foldlM_cons, TokenScan.feed_word_of_endsWord hends htoken]

/-- Written tokens are read back, as long as no two words stand next to each other. -/
theorem tokens?_flatMap_spell {tokens : List Token} (hvalid : ∀ token ∈ tokens, token.Valid)
    (hapart : tokens.IsChain Apart) : tokens? (tokens.flatMap Token.spell) = some tokens :=
  finish_foldlM_feed hvalid hapart #[]

end Espalier.Json
