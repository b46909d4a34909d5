/-
Which texts the brace pass accepts, and what the pairs that it finds are, said
without a stack.  A text is balanced when no front of it closes more than it
opens and the whole closes what it opens; a pair stands around the shortest
balanced stretch behind its opening brace.
-/
import Mathlib.Data.List.Nodup
import Espalier.Proofs.Markup.Growth

namespace Espalier.Markup

open Espalier.Text

/-- The bare braces of a text match, from where a scan stands. -/
structure Balanced (quote : Quote) (text : List Char) : Prop where
  front_le : ∀ front, front <+: text → quote.bareCount '}' front ≤ quote.bareCount '{' front
  total_eq : quote.bareCount '}' text = quote.bareCount '{' text

/-! ### Acceptance -/

namespace BraceScan

/-- A scan gets past a character unless it closes more than is open. -/
theorem exists_feed_iff {scan : BraceScan} {c : Char} :
    (∃ after, scan.feed c = .ok after) ↔
      scan.quote.bareCount '}' [c] ≤ scan.pending.length + scan.quote.bareCount '{' [c] := by
  by_cases hfree : (scan.quote.literal c || notBrace c) = true
  · have hcount : scan.quote.bareCount '}' [c] = 0 := by
      rw [Bool.or_eq_true] at hfree
      rcases hfree with hliteral | hother
      · simp [Quote.bareCount_cons, hliteral]
      · have hne : c ≠ '}' := by
          rintro rfl
          simp [notBrace] at hother
        simp [Quote.bareCount_cons, hne]
    simp [feed_of_free hfree, hcount]
  · rw [Bool.not_eq_true, Bool.or_eq_false_iff] at hfree
    rcases eq_brace_of_notBrace_eq_false hfree.2 with rfl | rfl
    · simp [feed, hfree.1, Quote.bareCount_cons]
    · cases hpending : scan.pending with
      | nil => simp [feed, hfree.1, leave, hpending, Except.map, Quote.bareCount_cons]
      | cons brace pending =>
          simp [feed, hfree.1, leave, hpending, Except.map, Quote.bareCount_cons]

/-- What a scan has open, it has opened and not closed. -/
theorem pending_feed {scan after : BraceScan} {c : Char} (h : scan.feed c = .ok after) :
    after.quote = scan.quote.next c ∧
      after.pending.length + scan.quote.bareCount '}' [c] =
        scan.pending.length + scan.quote.bareCount '{' [c] := by
  by_cases hliteral : scan.quote.literal c = true
  · rw [feed, if_pos hliteral] at h
    obtain rfl := Except.ok.inj h
    simp [skip, Quote.bareCount_cons, hliteral]
  · rw [Bool.not_eq_true] at hliteral
    by_cases hopen : c = '{'
    · obtain rfl := hopen
      simp only [feed, hliteral] at h
      obtain rfl := Except.ok.inj h
      simp [skip, enter, Quote.bareCount_cons, hliteral]
    · by_cases hclose : c = '}'
      · obtain rfl := hclose
        cases hpending : scan.pending with
        | nil => simp [feed, hliteral, leave, hpending, Except.map] at h
        | cons brace pending =>
            simp [feed, hliteral, leave, hpending, Except.map] at h
            obtain rfl := h
            simp [skip, Quote.bareCount_cons, hliteral]
      · simp only [feed, hliteral, hopen, hclose] at h
        obtain rfl := Except.ok.inj h
        simp [skip, Quote.bareCount_cons, hopen, hclose]

theorem quote_foldlM {scan after : BraceScan} {text : List Char}
    (h : text.foldlM feed scan = .ok after) : after.quote = scan.quote.after text := by
  induction text generalizing scan with
  | nil =>
      obtain rfl : scan = after := Except.ok.inj h
      rfl
  | cons c cs ih =>
      rw [List.foldlM_cons] at h
      cases hstep : scan.feed c with
      | error fault =>
          rw [hstep] at h
          contradiction
      | ok middle =>
          rw [hstep] at h
          rw [ih h, (pending_feed hstep).1, Quote.after_cons]

theorem pending_foldlM {scan after : BraceScan} {text : List Char}
    (h : text.foldlM feed scan = .ok after) :
    after.pending.length + scan.quote.bareCount '}' text =
      scan.pending.length + scan.quote.bareCount '{' text := by
  induction text generalizing scan with
  | nil =>
      obtain rfl : scan = after := Except.ok.inj h
      rfl
  | cons c cs ih =>
      rw [List.foldlM_cons] at h
      cases hstep : scan.feed c with
      | error fault =>
          rw [hstep] at h
          contradiction
      | ok middle =>
          rw [hstep] at h
          obtain ⟨hquote, hhere⟩ := pending_feed hstep
          have hlater := ih h
          rw [hquote] at hlater
          simp only [Quote.bareCount_cons, Quote.bareCount_nil, Nat.add_zero] at hhere ⊢
          omega

/-- A scan gets through a text when no front of it closes more than is open. -/
theorem exists_foldlM_iff {scan : BraceScan} {text : List Char} :
    (∃ after, text.foldlM feed scan = .ok after) ↔
      ∀ front, front <+: text →
        scan.quote.bareCount '}' front ≤
          scan.pending.length + scan.quote.bareCount '{' front := by
  induction text generalizing scan with
  | nil => simp [pure, Except.pure]
  | cons c cs ih =>
      have hfronts : (∀ front, front <+: c :: cs →
          scan.quote.bareCount '}' front ≤
            scan.pending.length + scan.quote.bareCount '{' front) ↔
          ∀ front, front <+: cs →
            scan.quote.bareCount '}' (c :: front) ≤
              scan.pending.length + scan.quote.bareCount '{' (c :: front) := by
        constructor
        · intro h front hfront
          exact h (c :: front) (List.cons_prefix_cons.mpr ⟨rfl, hfront⟩)
        · intro h front hfront
          rcases List.prefix_cons_iff.mp hfront with rfl | ⟨rest, rfl, hrest⟩
          · simp
          · exact h rest hrest
      rw [hfronts, List.foldlM_cons]
      cases hstep : scan.feed c with
      | error fault =>
          have hnot : ¬ scan.quote.bareCount '}' [c] ≤
              scan.pending.length + scan.quote.bareCount '{' [c] := by
            rw [← exists_feed_iff, hstep]
            simp
          constructor
          · rintro ⟨after, h⟩
            contradiction
          · intro h
            exact absurd (h [] List.nil_prefix) hnot
      | ok middle =>
          obtain ⟨hquote, hhere⟩ := pending_feed hstep
          have hlater : (∃ after, cs.foldlM feed middle = .ok after) ↔ _ := ih
          rw [hquote] at hlater
          refine Iff.trans hlater (forall₂_congr fun front _ => ?_)
          simp only [Quote.bareCount_cons, Quote.bareCount_nil, Nat.add_zero] at hhere ⊢
          omega

end BraceScan

/-- The brace pass accepts exactly the balanced texts. -/
theorem accepted_iff_balanced {text : List Char} :
    Accepted text ↔ Balanced .outside text := by
  have hgets : (∃ after, text.foldlM BraceScan.feed {} = .ok after) ↔ _ :=
    BraceScan.exists_foldlM_iff
  simp only [List.length_nil, Nat.zero_add] at hgets
  constructor
  · rintro ⟨pairing, h⟩
    cases hscan : text.foldlM BraceScan.feed {} with
    | error fault =>
        simp only [Pairing.ofText, hscan] at h
        contradiction
    | ok after =>
        have htotal := BraceScan.pending_foldlM hscan
        refine ⟨hgets.mp ⟨after, hscan⟩, ?_⟩
        simp only [Pairing.ofText, hscan] at h
        cases hpending : after.pending with
        | nil => simpa [hpending] using htotal
        | cons brace pending =>
            simp [bind, Except.bind, BraceScan.finish, hpending] at h
  · rintro ⟨hfront, htotal⟩
    obtain ⟨after, hscan⟩ := hgets.mpr hfront
    have hcount := BraceScan.pending_foldlM hscan
    have hpending : after.pending = [] := by
      apply List.eq_nil_of_length_eq_zero
      simp only [List.length_nil] at hcount
      omega
    exact ⟨⟨after.pairs⟩, by
      simp [Pairing.ofText, hscan, bind, Except.bind, BraceScan.finish, hpending]⟩

theorem Blocks.balanced_text {blocks : Blocks} (h : blocks.Fits) : Balanced .outside blocks.text :=
  accepted_iff_balanced.mp (accepted_iff.mpr ⟨blocks, h, rfl⟩)

/-! ### The pairs -/

/-- A pair stands in a text around a stretch of it: both of its braces are bare, the
bare braces between them match, and at no earlier bare `}` they would. -/
structure Encloses (text : List Char) (pair : BracePair) (front inner back : List Char) :
    Prop where
  text_eq : text = front ++ '{' :: (inner ++ '}' :: back)
  opens_eq : pair.opens = byteLength front
  closes_eq : pair.closes = byteLength (front ++ '{' :: inner)
  opens_bare : (Quote.outside.after front).literal '{' = false
  closes_bare : (Quote.outside.after (front ++ '{' :: inner)).literal '}' = false
  balanced : Balanced (Quote.outside.after (front ++ ['{'])) inner
  first : ∀ early late, inner = early ++ '}' :: late →
    (Quote.outside.after (front ++ '{' :: early)).literal '}' = false →
      ¬ Balanced (Quote.outside.after (front ++ ['{'])) early

/-- A balanced text does not go on behind a bare brace that closes a balanced
front. -/
theorem Balanced.not_balanced_early {quote : Quote} {early late : List Char}
    (h : Balanced quote (early ++ '}' :: late)) (hbare : (quote.after early).literal '}' = false) :
    ¬ Balanced quote early := by
  intro hearly
  have hfront : early ++ ['}'] <+: early ++ '}' :: late := ⟨late, by simp⟩
  have hle := h.front_le _ hfront
  have htotal := hearly.total_eq
  simp [Quote.bareCount_append, Quote.bareCount_cons, hbare] at hle
  omega

namespace Blocks

theorem barePositions_of_braceFree {quote : Quote} {header : List Char}
    (h : braceFree quote header) {c : Char} (hc : notBrace c = false) (start : Nat) :
    quote.barePositions c start header = [] := by
  induction header generalizing quote start with
  | nil => rfl
  | cons d ds ih =>
      rw [braceFree, Quote.bareAll, Bool.and_eq_true, Bool.or_eq_true] at h
      have hnot : ¬ (quote.literal d = false ∧ d = c) := by
        rintro ⟨hliteral, rfl⟩
        simp [hliteral, hc] at h
      simp only [Quote.barePositions, if_neg hnot, List.nil_append]
      exact ih h.2 _

/-- The pairs of a structure open at its bare opening braces, in their order. -/
theorem opens_pairsAt {blocks : Blocks} (h : blocks.Fits) (start : Nat) :
    (blocks.pairsAt start).map BracePair.opens =
      Quote.outside.barePositions '{' start blocks.text := by
  induction blocks generalizing start with
  | last header => exact (barePositions_of_braceFree h rfl start).symm
  | block header body rest ihBody ihRest =>
      obtain ⟨hfree, hheader, hbody, hinside, hrest⟩ := h
      simp [pairsAt, text, Quote.barePositions_append, Quote.barePositions,
        barePositions_of_braceFree hfree, notBrace, hheader, hinside, Quote.literal,
        isQuoteMark, ihBody hbody, ihRest hrest]

/-- The pairs of a structure close at its bare closing braces, each at one of its
own. -/
theorem closes_pairsAt {blocks : Blocks} (h : blocks.Fits) (start : Nat) :
    ((blocks.pairsAt start).map BracePair.closes).Perm
      (Quote.outside.barePositions '}' start blocks.text) := by
  induction blocks generalizing start with
  | last header => simp [pairsAt, text, barePositions_of_braceFree h, notBrace]
  | block header body rest ihBody ihRest =>
      obtain ⟨hfree, hheader, hbody, hinside, hrest⟩ := h
      have hsplit : Quote.outside.barePositions '}' start (block header body rest).text =
          Quote.outside.barePositions '}' (start + byteLength header + 1) body.text ++
            (start + byteLength header + 1 + byteLength body.text) ::
              Quote.outside.barePositions '}'
                (start + byteLength header + 1 + byteLength body.text + 1) rest.text := by
        simp [text, Quote.barePositions_append, Quote.barePositions,
          barePositions_of_braceFree hfree, notBrace, hheader, hinside, Quote.literal,
          isQuoteMark]
      rw [hsplit]
      simp only [pairsAt, List.map_cons, List.map_append]
      exact (((ihBody hbody _).append (ihRest hrest _)).cons _).trans
        List.perm_middle.symm

/-- A pair of a structure opens before it closes, within the text. -/
theorem closes_of_mem_pairsAt {blocks : Blocks} {start : Nat} {pair : BracePair}
    (h : pair ∈ blocks.pairsAt start) :
    pair.opens < pair.closes ∧ pair.closes < start + byteLength blocks.text := by
  induction blocks generalizing start with
  | last header => simp [pairsAt] at h
  | block header body rest ihBody ihRest =>
      simp only [pairsAt, List.mem_cons, List.mem_append] at h
      simp only [text, byteLength_append, byteLength_cons, utf8Size_openBrace,
        utf8Size_closeBrace]
      rcases h with rfl | hbody | hrest
      · constructor
        · simp only
          omega
        · simp only
          omega
      · have := ihBody hbody
        omega
      · have := ihRest hrest
        omega

/-- Of two pairs of a structure, the later one follows the earlier one or lies
inside it. -/
theorem pairwise_pairsAt (blocks : Blocks) (start : Nat) :
    (blocks.pairsAt start).Pairwise fun earlier later =>
      earlier.closes < later.opens ∨
        (earlier.opens < later.opens ∧ later.closes < earlier.closes) := by
  induction blocks generalizing start with
  | last header => exact List.Pairwise.nil
  | block header body rest ihBody ihRest =>
      simp only [pairsAt, List.pairwise_cons, List.pairwise_append]
      refine ⟨?_, ihBody _, ihRest _, ?_⟩
      · intro later hlater
        rcases List.mem_append.mp hlater with hbody | hrest
        · have hopens := le_opens_of_mem_pairsAt hbody
          have hcloses := closes_of_mem_pairsAt hbody
          exact Or.inr ⟨by omega, hcloses.2⟩
        · have hopens := le_opens_of_mem_pairsAt hrest
          exact Or.inl (by omega)
      · intro earlier hearlier later hlater
        have hcloses := closes_of_mem_pairsAt hearlier
        have hopens := le_opens_of_mem_pairsAt hlater
        exact Or.inl (by omega)

/-- Between the braces of a pair stands a structure. -/
theorem exists_inner {blocks : Blocks} (h : blocks.Fits) {start : Nat} {pair : BracePair}
    (hpair : pair ∈ blocks.pairsAt start) :
    ∃ (front : List Char) (inner : Blocks) (back : List Char), inner.Fits ∧
      blocks.text = front ++ '{' :: (inner.text ++ '}' :: back) ∧
      Quote.outside.after front = .outside ∧ Quote.outside.after inner.text = .outside ∧
      pair.opens = start + byteLength front ∧
      pair.closes = pair.opens + 1 + byteLength inner.text := by
  induction blocks generalizing start with
  | last header => simp [pairsAt] at hpair
  | block header body rest ihBody ihRest =>
      obtain ⟨hfree, hheader, hbody, hinside, hrest⟩ := h
      simp only [pairsAt, List.mem_cons, List.mem_append] at hpair
      rcases hpair with rfl | hpair | hpair
      · exact ⟨header, body, rest.text, hbody, rfl, hheader, hinside, rfl, rfl⟩
      · obtain ⟨front, inner, back, hinner, htext, hfront, hclosed, hopens, hcloses⟩ :=
          ihBody hbody hpair
        refine ⟨header ++ '{' :: front, inner, back ++ '}' :: rest.text, hinner, ?_, ?_,
          hclosed, ?_, hcloses⟩
        · simp [text, htext]
        · simp [Quote.after_append, hheader, hfront]
        · simp [hopens]
          omega
      · obtain ⟨front, inner, back, hinner, htext, hfront, hclosed, hopens, hcloses⟩ :=
          ihRest hrest hpair
        refine ⟨header ++ '{' :: (body.text ++ '}' :: front), inner, back, hinner, ?_, ?_,
          hclosed, ?_, hcloses⟩
        · simp [text, htext]
        · simp [Quote.after_append, hheader, hinside, hfront]
        · simp [hopens]
          omega

theorem exists_encloses {blocks : Blocks} (h : blocks.Fits) {pair : BracePair}
    (hpair : pair ∈ blocks.pairsAt 0) :
    ∃ front inner back, Encloses blocks.text pair front inner back := by
  obtain ⟨front, inner, back, hinner, htext, hfront, hclosed, hopens, hcloses⟩ :=
    exists_inner h hpair
  have hbehind : Quote.outside.after (front ++ ['{']) = .outside := by
    simp [Quote.after_append, hfront]
  have hbalanced := Blocks.balanced_text hinner
  refine ⟨front, inner.text, back, htext, by simpa using hopens, ?_, ?_, ?_, ?_, ?_⟩
  · simp [hcloses, hopens, Nat.add_assoc]
  · simp [hfront, Quote.literal, isQuoteMark]
  · simp [Quote.after_append, hfront, hclosed, Quote.literal, isQuoteMark]
  · rw [hbehind]
    exact hbalanced
  · intro early late hinnerText hbare
    rw [hbehind]
    have hlater : (Quote.outside.after early).literal '}' = false := by
      simpa [Quote.after_append, hfront] using hbare
    exact (hinnerText ▸ hbalanced).not_balanced_early hlater

end Blocks

/-- The brace pass accepts exactly the texts in which no front has more bare `}`
than bare `{` and the whole has as many of both.  The pairs of an accepted text
open, in id order, at its bare `{` in ascending order, and close at its bare `}`,
each at one of its own; a pair closes at the first bare `}` up to which the bare
braces behind its `{` match; and two pairs are disjoint or one lies inside the
other. -/
theorem ofText_matches (text : List Char) :
    ((∃ pairing, Pairing.ofText text = .ok pairing) ↔ Balanced .outside text) ∧
    ∀ pairing, Pairing.ofText text = .ok pairing →
      (pairing.toList.map BracePair.opens).Pairwise (· < ·) ∧
      (∀ position, position ∈ pairing.toList.map BracePair.opens ↔
        BareAt text '{' position) ∧
      (pairing.toList.map BracePair.closes).Nodup ∧
      (∀ position, position ∈ pairing.toList.map BracePair.closes ↔
        BareAt text '}' position) ∧
      (∀ pair ∈ pairing.toList, pair.opens < pair.closes ∧
        ∃ front inner back, Encloses text pair front inner back) ∧
      pairing.toList.Pairwise fun earlier later =>
        earlier.closes < later.opens ∨
          (earlier.opens < later.opens ∧ later.closes < earlier.closes) := by
  refine ⟨accepted_iff_balanced, ?_⟩
  intro pairing h
  obtain ⟨blocks, hfits, rfl, rfl⟩ := Pairing.ofText_eq_ok_iff.mp h
  have hopens := Blocks.opens_pairsAt hfits 0
  have hcloses := Blocks.closes_pairsAt hfits 0
  simp only [Pairing.toList]
  refine ⟨?_, ?_, ?_, ?_, ?_, Blocks.pairwise_pairsAt blocks 0⟩
  · rw [hopens]
    exact Quote.pairwise_barePositions _ _ _ _
  · intro position
    rw [hopens]
    exact mem_barePositions_outside_iff
  · rw [hcloses.nodup_iff]
    exact (Quote.pairwise_barePositions _ _ _ _).imp Nat.ne_of_lt
  · intro position
    rw [hcloses.mem_iff]
    exact mem_barePositions_outside_iff
  · intro pair hpair
    exact ⟨(Blocks.closes_of_mem_pairsAt hpair).1, Blocks.exists_encloses hfits hpair⟩

/-- Two blocks, one of them around a quoted brace and a block of its own. -/
theorem ofText_matches_nested :
    let text := "é\x7bb'\x7d'\x7bc\x7d\x7d\x7bd\x7d".toList
    let pairing : Pairing := ⟨#[⟨2, 10⟩, ⟨7, 9⟩, ⟨11, 13⟩]⟩
    Pairing.ofText text = .ok pairing ∧ Balanced .outside text ∧
      (∀ position, position ∈ [10, 9, 13] ↔ BareAt text '}' position) ∧
      ∃ front inner back, Encloses text ⟨2, 10⟩ front inner back := by
  intro text pairing
  have hrun : Pairing.ofText text = .ok pairing := by rfl
  obtain ⟨hbalanced, hpairs⟩ := ofText_matches text
  obtain ⟨-, -, -, hcloses, hencloses, -⟩ := hpairs pairing hrun
  have hfirst : (⟨2, 10⟩ : BracePair) ∈ pairing.toList := by decide
  exact ⟨hrun, hbalanced.mp ⟨pairing, hrun⟩, hcloses, (hencloses _ hfirst).2⟩

end Espalier.Markup
