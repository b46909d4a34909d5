/-
The second pass over a text.  Its work loop takes a range off a stack, looks up the
first pair that opens inside it, and cuts the range there; the layout is what the
loop comes to.  The headers that it takes and the bare braces of the text follow
each other without a gap, and a header that is read on its own, from outside
quotes, is quoted as it is in the whole text.
-/
import Espalier.Proofs.Markup.Lookup

namespace Espalier.Markup

open Espalier.Text

/-! ### The work loop -/

/-- A run of the second pass: the ranges that are left, the ids of the pairs that
are looked up from here on, and the cuts that are made.  An empty range is dropped;
a range is cut at the first pair that opens inside it, or else it is one header. -/
inductive SecondPass (pairing : Pairing) : List Range → List Nat → List Cut → Prop
  | done : SecondPass pairing [] [] []
  | skip {start stop ranges ids cuts} (hempty : stop ≤ start)
      (hrest : SecondPass pairing ranges ids cuts) :
      SecondPass pairing (⟨start, stop⟩ :: ranges) ids cuts
  | tail {start stop ranges ids cuts} (hroom : start < stop)
      (hnone : pairing.firstWithin? start stop = none)
      (hrest : SecondPass pairing ranges ids cuts) :
      SecondPass pairing (⟨start, stop⟩ :: ranges) ids (.tail ⟨start, stop⟩ :: cuts)
  | block {start stop ranges id pair ids cuts} (hroom : start < stop)
      (hfound : pairing.firstWithin? start stop = some (id, pair))
      (hrest : SecondPass pairing
        (⟨pair.opens + 1, pair.closes⟩ :: ⟨pair.closes + 1, stop⟩ :: ranges) ids cuts) :
      SecondPass pairing (⟨start, stop⟩ :: ranges) (id :: ids) (.block start pair :: cuts)

/-- A stack of ranges has one run. -/
theorem SecondPass.unique {pairing : Pairing} {ranges : List Range} {ids ids' : List Nat}
    {cuts cuts' : List Cut} (h : SecondPass pairing ranges ids cuts)
    (h' : SecondPass pairing ranges ids' cuts') : ids' = ids ∧ cuts' = cuts := by
  induction h generalizing ids' cuts' with
  | done =>
      cases h'
      exact ⟨rfl, rfl⟩
  | skip hempty _ ih =>
      cases h' with
      | skip _ hrest => exact ih hrest
      | tail hroom _ _ => omega
      | block hroom _ _ => omega
  | tail hroom hnone _ ih =>
      cases h' with
      | skip hempty _ => omega
      | tail _ _ hrest =>
          obtain ⟨rfl, rfl⟩ := ih hrest
          exact ⟨rfl, rfl⟩
      | block _ hfound _ =>
          rw [hnone] at hfound
          contradiction
  | block hroom hfound _ ih =>
      cases h' with
      | skip hempty _ => omega
      | tail _ hnone _ =>
          rw [hfound] at hnone
          contradiction
      | block _ hfound' hrest =>
          obtain ⟨rfl, rfl⟩ := Prod.mk.inj (Option.some.inj (hfound.symm.trans hfound'))
          obtain ⟨rfl, rfl⟩ := ih hrest
          exact ⟨rfl, rfl⟩

/-- The loop takes the header of a cut, unless it is the rest of a range and
empty. -/
def Cut.isTaken : Cut → Bool
  | .block _ _ => true
  | .tail range => decide (range.start < range.stop)

@[simp] theorem Cut.isTaken_block (start : Nat) (pair : BracePair) :
    (Cut.block start pair).isTaken = true := rfl

@[simp] theorem Cut.isTaken_tail (range : Range) :
    (Cut.tail range).isTaken = decide (range.start < range.stop) := rfl

namespace Blocks

/-- A header at the top of the stack is taken as it is, while no pair opens in its
range. -/
theorem secondPass_last {header : List Char} {start : Nat} {pairing : Pairing}
    (hascending : pairing.Ascending)
    (houtside : ∀ pair ∈ pairing.toList,
      pair.opens < start ∨ start + byteLength header ≤ pair.opens)
    {ranges : List Range} {ids : List Nat} {cuts : List Cut}
    (h : SecondPass pairing ranges ids cuts) :
    SecondPass pairing (⟨start, start + byteLength header⟩ :: ranges) ids
      (((last header).cutsAt start).filter Cut.isTaken ++ cuts) := by
  by_cases hroom : start < start + byteLength header
  · have hnone : pairing.firstWithin? start (start + byteLength header) = none := by
      rw [Pairing.firstWithin?_eq_none_iff hascending]
      intro pair hpair hwithin
      have := houtside pair hpair
      omega
    have htail := SecondPass.tail hroom hnone h
    simpa [cutsAt, hroom] using htail
  · have hskip := SecondPass.skip (Nat.le_of_not_lt hroom) h
    simpa [cutsAt, hroom] using hskip

/-- The loop, at the range of a structure, looks up the pairs of the structure one
after the other and makes the cuts of the structure. -/
theorem secondPass_cutsAt (blocks : Blocks) {start : Nat} {pairing : Pairing}
    (hascending : pairing.Ascending) {early late : List BracePair}
    (hpairs : pairing.toList = early ++ (blocks.pairsAt start ++ late))
    (hearly : ∀ pair ∈ early, pair.opens < start)
    (hlate : ∀ pair ∈ late, start + byteLength blocks.text ≤ pair.opens)
    {first : Nat} (hfirst : early.length = first)
    {ranges : List Range} {ids : List Nat} {cuts : List Cut}
    (h : SecondPass pairing ranges ids cuts) :
    SecondPass pairing (⟨start, start + byteLength blocks.text⟩ :: ranges)
      (List.range' first (blocks.pairsAt start).length ++ ids)
      ((blocks.cutsAt start).filter Cut.isTaken ++ cuts) := by
  induction blocks generalizing start early late first ranges ids cuts with
  | last header =>
      apply secondPass_last hascending _ h
      intro pair hpair
      simp only [hpairs, pairsAt, List.nil_append] at hpair
      exact (List.mem_append.mp hpair).imp (hearly pair) (hlate pair)
  | block header body rest ihBody ihRest =>
      let opens := start + byteLength header
      let closes := opens + 1 + byteLength body.text
      have hstop : start + byteLength (block header body rest).text =
          closes + 1 + byteLength rest.text := by
        simp [text, opens, closes]
        omega
      have hsplit : pairing.toList = early ++ ⟨opens, closes⟩ ::
          (body.pairsAt (opens + 1) ++ (rest.pairsAt (closes + 1) ++ late)) := by
        simp [hpairs, pairsAt, opens, closes]
      rw [hstop] at hlate ⊢
      have hinner : ∀ pair ∈ early ++ [⟨opens, closes⟩], pair.opens < opens + 1 := by
        intro pair hpair
        rcases List.mem_append.mp hpair with hbefore | hhere
        · have := hearly pair hbefore
          omega
        · obtain rfl := List.mem_singleton.mp hhere
          exact Nat.lt_succ_self opens
      have hbehind : ∀ pair ∈ early ++ [⟨opens, closes⟩] ++ body.pairsAt (opens + 1),
          pair.opens < closes + 1 := by
        intro pair hpair
        rcases List.mem_append.mp hpair with hbefore | hinside
        · have := hinner pair hbefore
          omega
        · have := closes_of_mem_pairsAt hinside
          omega
      have hnext : ∀ pair ∈ rest.pairsAt (closes + 1) ++ late,
          opens + 1 + byteLength body.text ≤ pair.opens := by
        intro pair hpair
        rcases List.mem_append.mp hpair with hrest | hlast
        · have := le_opens_of_mem_pairsAt hrest
          omega
        · have := hlate pair hlast
          omega
      -- the rest lies below the body on the stack, so its run comes first
      have hsecond : (early ++ [(⟨opens, closes⟩ : BracePair)]).length = first + 1 := by
        simp [hfirst]
      have hthird : (early ++ [(⟨opens, closes⟩ : BracePair)] ++
          body.pairsAt (opens + 1)).length = first + 1 + (body.pairsAt (opens + 1)).length := by
        rw [List.length_append, hsecond]
      have hrest := ihRest (by simp [hsplit]) hbehind hlate hthird h
      have hbody := ihBody (by simp [hsplit]) hinner hnext hsecond hrest
      have hfound := Pairing.firstWithin?_of_split hascending hsplit hearly
        (Nat.le_add_right start _) (show opens < closes + 1 + byteLength rest.text by omega)
      have hblock := SecondPass.block (by omega) hfound hbody
      rw [hfirst, ← List.append_assoc (List.range' _ _), List.range'_append_1] at hblock
      have hids : List.range' first ((block header body rest).pairsAt start).length =
          first :: List.range' (first + 1)
            ((body.pairsAt (opens + 1)).length + (rest.pairsAt (closes + 1)).length) := by
        rw [← List.range'_succ]
        simp [pairsAt, opens, closes]
      have htaken : ((block header body rest).cutsAt start).filter Cut.isTaken =
          .block start ⟨opens, closes⟩ :: ((body.cutsAt (opens + 1)).filter Cut.isTaken ++
            (rest.cutsAt (closes + 1)).filter Cut.isTaken) := by
        rw [cutsAt, List.filter_cons_of_pos (Cut.isTaken_block _ _), List.filter_append]
      rw [hids, htaken, List.cons_append, List.cons_append, List.append_assoc]
      exact hblock

end Blocks

/-! ### Headers and braces side by side -/

/-- A part of a text: a header that lies in a range, or a brace at a position. -/
inductive Piece where
  | header (range : Range)
  | brace (c : Char) (position : Nat)

namespace Piece

/-- Where a part lies. -/
def range : Piece → Range
  | header range => range
  | brace _ position => ⟨position, position + 1⟩

/-- The characters of a part of a text. -/
def chars (text : List Char) : Piece → List Char
  | header range => slice text range.start range.stop
  | brace c _ => [c]

def header? : Piece → Option Range
  | header range => some range
  | brace _ _ => none

end Piece

/-- Parts that follow each other, without a gap and without an overlap, from one
position to another. -/
def Tiles : Nat → List Piece → Nat → Prop
  | start, [], stop => start = stop
  | start, piece :: pieces, stop =>
      piece.range.start = start ∧ start ≤ piece.range.stop ∧
        Tiles piece.range.stop pieces stop

theorem Tiles.append {start middle stop : Nat} {front back : List Piece}
    (hfront : Tiles start front middle) (hback : Tiles middle back stop) :
    Tiles start (front ++ back) stop := by
  induction front generalizing start with
  | nil =>
      obtain rfl : start = middle := hfront
      exact hback
  | cons piece front ih =>
      obtain ⟨hstart, hstop, hrest⟩ := hfront
      exact ⟨hstart, hstop, ih hrest⟩

/-- A range of a text lies between two scalar boundaries. -/
structure Range.Cuts (range : Range) (text front middle back : List Char) : Prop where
  text_eq : text = front ++ (middle ++ back)
  start_eq : range.start = byteLength front
  stop_eq : range.stop = byteLength (front ++ middle)

theorem Range.Cuts.slice_eq_middle {range : Range} {text front middle back : List Char}
    (h : range.Cuts text front middle back) :
    slice text range.start range.stop = middle := by
  rw [h.text_eq, h.start_eq, h.stop_eq, byteLength_append, slice_append]

namespace Blocks

/-- The headers that the loop takes and the braces of a structure, in the order of
the text. -/
def piecesAt : Nat → Blocks → List Piece
  | start, last header =>
      if header = [] then [] else [.header ⟨start, start + byteLength header⟩]
  | start, block header body rest =>
      let opens := start + byteLength header
      let closes := opens + 1 + byteLength body.text
      .header ⟨start, opens⟩ :: .brace '{' opens ::
        (piecesAt (opens + 1) body ++ .brace '}' closes :: piecesAt (closes + 1) rest)

theorem tiles_piecesAt (blocks : Blocks) (start : Nat) :
    Tiles start (blocks.piecesAt start) (start + byteLength blocks.text) := by
  induction blocks generalizing start with
  | last header =>
      by_cases hempty : header = []
      · simp [piecesAt, text, hempty, Tiles]
      · simp [piecesAt, text, hempty, Tiles, Piece.range]
  | block header body rest ihBody ihRest =>
      let opens := start + byteLength header
      let closes := opens + 1 + byteLength body.text
      have hstop : start + byteLength (block header body rest).text =
          closes + 1 + byteLength rest.text := by
        simp [text, opens, closes]
        omega
      have hrest : Tiles closes (.brace '}' closes :: rest.piecesAt (closes + 1))
          (closes + 1 + byteLength rest.text) :=
        ⟨rfl, Nat.le_succ closes, ihRest (closes + 1)⟩
      rw [hstop]
      exact ⟨rfl, Nat.le_add_right start _, rfl, Nat.le_succ opens,
        (ihBody (opens + 1)).append hrest⟩

/-- The headers among the pieces are those of the cuts that the loop makes. -/
theorem filterMap_header_piecesAt (blocks : Blocks) (start : Nat) :
    (blocks.piecesAt start).filterMap Piece.header? =
      ((blocks.cutsAt start).filter Cut.isTaken).map Cut.header := by
  induction blocks generalizing start with
  | last header =>
      by_cases hempty : header = []
      · simp [piecesAt, cutsAt, hempty]
      · have hroom : 0 < byteLength header := by
          rw [Nat.pos_iff_ne_zero, ne_eq, byteLength_eq_zero_iff]
          exact hempty
        simp [piecesAt, cutsAt, hempty, hroom, Piece.header?, Cut.header]
  | block header body rest ihBody ihRest =>
      simp only [piecesAt, cutsAt, List.filterMap_cons, List.filterMap_append, ihBody, ihRest]
      rw [List.filter_cons_of_pos (Cut.isTaken_block _ _), List.filter_append]
      simp [Piece.header?, Cut.header]

/-- The pieces spell the text. -/
theorem flatMap_chars_piecesAt (blocks : Blocks) {whole front back : List Char}
    (hwhole : whole = front ++ (blocks.text ++ back)) {start : Nat}
    (hstart : start = byteLength front) :
    (blocks.piecesAt start).flatMap (Piece.chars whole) = blocks.text := by
  induction blocks generalizing front back start with
  | last header =>
      by_cases hempty : header = []
      · simp [piecesAt, text, hempty]
      · simp only [piecesAt, if_neg hempty, List.flatMap_singleton, Piece.chars]
        rw [hwhole, hstart, text, slice_append]
  | block header body rest ihBody ihRest =>
      have hslice := slice_header hwhole hstart
      simp only [piecesAt, List.flatMap_cons, List.flatMap_append, Piece.chars, hslice]
      rw [ihBody (body_place hwhole) (body_start hstart),
        ihRest (rest_place hwhole) (rest_start hstart)]
      simp [text]

/-- The braces among the pieces are the bare ones of the text. -/
theorem mem_piecesAt_iff {blocks : Blocks} (h : blocks.Fits) {start : Nat} {c : Char}
    {position : Nat} :
    .brace c position ∈ blocks.piecesAt start ↔
      notBrace c = false ∧ position ∈ Quote.outside.barePositions c start blocks.text := by
  induction blocks generalizing start with
  | last header =>
      have hnone : notBrace c = false → Quote.outside.barePositions c start header = [] :=
        fun hc => barePositions_of_braceFree h hc start
      by_cases hempty : header = []
      · simp [piecesAt, text, hempty, Quote.barePositions]
      · simp only [piecesAt, if_neg hempty, text, List.mem_singleton, reduceCtorEq,
          false_iff, not_and]
        intro hc
        simp [hnone hc]
  | block header body rest ihBody ihRest =>
      obtain ⟨hfree, hheader, hbody, hinside, hrest⟩ := h
      by_cases hc : notBrace c = false
      · rcases eq_brace_of_notBrace_eq_false hc with rfl | rfl
        · simp [piecesAt, text, Quote.barePositions_append, Quote.barePositions,
            barePositions_of_braceFree hfree hc, hheader, hinside, Quote.literal, isQuoteMark,
            ihBody hbody, ihRest hrest, hc]
        · simp [piecesAt, text, Quote.barePositions_append, Quote.barePositions,
            barePositions_of_braceFree hfree hc, hheader, hinside, Quote.literal, isQuoteMark,
            ihBody hbody, ihRest hrest, hc]
      · have hne : c ≠ '{' ∧ c ≠ '}' := by simpa [notBrace] using hc
        simp [piecesAt, hne, ihBody hbody, ihRest hrest, hc]

/-! ### Where a header stands -/

/-- The header of a cut lies in the text of its structure. -/
theorem bounds_of_mem_cutsAt {blocks : Blocks} {start : Nat} {cut : Cut}
    (h : cut ∈ blocks.cutsAt start) :
    start ≤ cut.header.start ∧ cut.header.stop ≤ start + byteLength blocks.text := by
  induction blocks generalizing start with
  | last header =>
      obtain rfl := List.mem_singleton.mp h
      exact ⟨Nat.le_refl _, Nat.le_refl _⟩
  | block header body rest ihBody ihRest =>
      simp only [cutsAt, List.mem_cons, List.mem_append] at h
      simp only [text, byteLength_append, byteLength_cons, utf8Size_openBrace,
        utf8Size_closeBrace]
      rcases h with rfl | hbody | hrest
      · simp only [Cut.header]
        omega
      · have := ihBody hbody
        omega
      · have := ihRest hrest
        omega

/-- A brace stands between two headers. -/
theorem pairwise_cutsAt (blocks : Blocks) (start : Nat) :
    (blocks.cutsAt start).Pairwise fun earlier later =>
      earlier.header.stop < later.header.start := by
  induction blocks generalizing start with
  | last header => exact List.pairwise_singleton _ _
  | block header body rest ihBody ihRest =>
      simp only [cutsAt, List.pairwise_cons, List.pairwise_append, List.mem_append]
      refine ⟨?_, ihBody _, ihRest _, ?_⟩
      · rintro cut (hbody | hrest)
        · exact (bounds_of_mem_cutsAt hbody).1
        · have := (bounds_of_mem_cutsAt hrest).1
          exact Nat.lt_of_lt_of_le (by simp only [Cut.header]; omega) this
      · intro earlier hbody later hrest
        have hstop := (bounds_of_mem_cutsAt hbody).2
        have hstart := (bounds_of_mem_cutsAt hrest).1
        omega

/-- The scan of the whole text stands outside quotes where a header begins, and no
brace of a header is bare. -/
theorem exists_cuts {blocks : Blocks} (h : blocks.Fits) {whole front back : List Char}
    (hwhole : whole = front ++ (blocks.text ++ back))
    (hclosed : Quote.outside.after front = .outside) {start : Nat}
    (hstart : start = byteLength front) {cut : Cut} (hcut : cut ∈ blocks.cutsAt start) :
    ∃ before header behind, cut.header.Cuts whole before header behind ∧
      Quote.outside.after before = .outside ∧ braceFree .outside header := by
  induction blocks generalizing front back start with
  | last header =>
      obtain rfl := List.mem_singleton.mp hcut
      exact ⟨front, header, back, ⟨hwhole, hstart, by simp [Cut.header, hstart]⟩, hclosed, h⟩
  | block header body rest ihBody ihRest =>
      obtain ⟨hfree, hheader, hbody, hinside, hrest⟩ := h
      simp only [cutsAt, List.mem_cons, List.mem_append] at hcut
      rcases hcut with rfl | hcut | hcut
      · have htext : whole =
            front ++ (header ++ ('{' :: (body.text ++ '}' :: rest.text) ++ back)) := by
          simp [hwhole, text]
        exact ⟨front, header, _, ⟨htext, hstart, by simp [Cut.header, hstart]⟩, hclosed, hfree⟩
      · exact ihBody hbody (body_place hwhole)
          (by simp [Quote.after_append, hclosed, hheader]) (body_start hstart) hcut
      · exact ihRest hrest (rest_place hwhole)
          (by simp [Quote.after_append, hclosed, hheader, hinside]) (rest_start hstart) hcut

end Blocks

/-- A part of a text behind closed quotes is quoted as it is when it is read on its
own. -/
theorem take_drop_mask {front : List Char} (hclosed : Quote.outside.after front = .outside)
    (middle back : List Char) :
    ((Quote.outside.mask (front ++ (middle ++ back))).drop front.length).take middle.length =
      Quote.outside.mask middle := by
  rw [Quote.mask_append, hclosed, Quote.mask_append,
    List.drop_left' (Quote.length_mask _ _), List.take_left' (Quote.length_mask _ _)]

/-- A header that the second pass slices out of a text.  It lies between two scalar
boundaries, none of its braces is bare, and the scalars that trimming leaves are
literal when they are read on their own exactly if they are literal in the text. -/
structure Taken (text : List Char) (range : Range) (front header back : List Char) : Prop
    extends range.Cuts text front header back where
  slice_eq : slice text range.start range.stop = header
  free : braceFree .outside header
  agrees : ∃ lead trail, header = lead ++ (trim header ++ trail) ∧
    (∀ c ∈ lead, isBlank c) ∧ (∀ c ∈ trail, isBlank c) ∧
      ((Quote.outside.mask text).drop (front ++ lead).length).take (trim header).length =
        Quote.outside.mask (trim header)

theorem Range.Cuts.taken {range : Range} {text front header back : List Char}
    (h : range.Cuts text front header back) (hclosed : Quote.outside.after front = .outside)
    (hfree : braceFree .outside header) : Taken text range front header back := by
  obtain ⟨lead, trail, hheader, hlead, htrail⟩ := exists_eq_append_trim header
  have hafter : Quote.outside.after (front ++ lead) = .outside := by
    rw [Quote.after_append, hclosed, Quote.after_of_no_marks]
    exact fun c hc => not_isQuoteMark_of_isBlank (hlead c hc)
  have htext : text = (front ++ lead) ++ (trim header ++ (trail ++ back)) := by
    rw [h.text_eq]
    nth_rewrite 1 [hheader]
    simp
  refine ⟨h, h.slice_eq_middle, hfree, lead, trail, hheader, hlead, htrail, ?_⟩
  rw [htext, take_drop_mask hafter]

/-- The second pass ends on every text that the brace pass accepts, in one way only,
and looks up every pair once, in id order.  The headers that it takes are those of
the layout: each lies between two scalar boundaries, ahead of those that it takes
later; no brace in it is bare, and trimmed and read on its own it is quoted as it is
in the text.  Headers and bare braces follow each other through the text without a
gap and spell it. -/
theorem layout_covers {text : List Char} {pairing : Pairing}
    (h : Pairing.ofText text = .ok pairing) :
    ∃ cuts pieces,
      SecondPass pairing [⟨0, byteLength text⟩] (List.range pairing.size) cuts ∧
      (∀ ids others, SecondPass pairing [⟨0, byteLength text⟩] ids others →
        ids = List.range pairing.size ∧ others = cuts) ∧
      cuts = (pairing.layout (byteLength text)).filter Cut.isTaken ∧
      (∀ cut ∈ cuts, ∃ front header back, Taken text cut.header front header back) ∧
      (cuts.Pairwise fun earlier later => earlier.header.stop < later.header.start) ∧
      pieces.filterMap Piece.header? = cuts.map Cut.header ∧
      (∀ c position, .brace c position ∈ pieces ↔
        notBrace c = false ∧ BareAt text c position) ∧
      Tiles 0 pieces (byteLength text) ∧
      pieces.flatMap (Piece.chars text) = text := by
  have hascending := Pairing.ascending_of_ofText h
  obtain ⟨blocks, hfits, rfl, rfl⟩ := Pairing.ofText_eq_ok_iff.mp h
  have hwhole : blocks.text = [] ++ (blocks.text ++ []) := by simp
  have hpairs : Pairing.toList ⟨(blocks.pairsAt 0).toArray⟩ =
      [] ++ (blocks.pairsAt 0 ++ []) := by
    simp [Pairing.toList]
  have hsize : (⟨(blocks.pairsAt 0).toArray⟩ : Pairing).size = (blocks.pairsAt 0).length := by
    simp [Pairing.size]
  have hrun := blocks.secondPass_cutsAt hascending hpairs (by simp) (by simp)
    List.length_nil .done
  rw [List.append_nil, List.append_nil, Nat.zero_add, ← List.range_eq_range', ← hsize] at hrun
  refine ⟨(blocks.cutsAt 0).filter Cut.isTaken, blocks.piecesAt 0, hrun,
    fun ids others hother => hrun.unique hother, ?_, ?_, ?_, ?_, ?_, ?_, ?_⟩
  · rw [Blocks.layout_text]
  · intro cut hcut
    obtain ⟨front, header, back, hcuts, hclosed, hfree⟩ :=
      Blocks.exists_cuts hfits hwhole rfl rfl (List.mem_of_mem_filter hcut)
    exact ⟨front, header, back, hcuts.taken hclosed hfree⟩
  · exact (blocks.pairwise_cutsAt 0).filter _
  · exact blocks.filterMap_header_piecesAt 0
  · intro c position
    rw [Blocks.mem_piecesAt_iff hfits, mem_barePositions_outside_iff]
  · simpa using blocks.tiles_piecesAt 0
  · exact blocks.flatMap_chars_piecesAt hwhole rfl

/-- A quoted brace, two blocks side by side, and a blank rest behind them. -/
theorem layout_covers_siblings :
    let text := "é \x7ba'\x7d'\x7d\x7bb\x7d ".toList
    let pairing : Pairing := ⟨#[⟨3, 8⟩, ⟨9, 11⟩]⟩
    let cuts : List Cut :=
      [.block 0 ⟨3, 8⟩, .tail ⟨4, 8⟩, .block 9 ⟨9, 11⟩, .tail ⟨10, 11⟩, .tail ⟨12, 13⟩]
    Pairing.ofText text = .ok pairing ∧ SecondPass pairing [⟨0, 13⟩] [0, 1] cuts ∧
      ∀ cut ∈ cuts, ∃ front header back, Taken text cut.header front header back := by
  intro text pairing cuts
  have hrun : Pairing.ofText text = .ok pairing := by rfl
  obtain ⟨found, pieces, hpass, -, hfound, htaken, -⟩ := layout_covers hrun
  have hlayout : (pairing.layout (byteLength text)).filter Cut.isTaken = cuts := by
    simp [pairing, text, cuts, Pairing.layout, Pairing.toList, cutRanges]
    decide
  obtain rfl : found = cuts := hfound.trans hlayout
  exact ⟨hrun, hpass, htaken⟩

end Espalier.Markup
