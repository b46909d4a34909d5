/-
The look-up of a pair by byte positions.  It bisects the ids, which is sound
because the pairs of a text are numbered in the order in which they open; so it
finds the first pair that opens in a range, and finds none only if none does.
What it finds in the pairing of a text is the first bare `{` of the range.
-/
import Mathlib.Order.Bounds.Basic
import Espalier.Proofs.Markup.Balance

namespace Espalier.Markup.Pairing

open Espalier.Text

/-- The pairs open in the order of their ids. -/
def Ascending (pairing : Pairing) : Prop :=
  (pairing.toList.map BracePair.opens).Pairwise (· < ·)

theorem ascending_of_ofText {text : List Char} {pairing : Pairing}
    (h : ofText text = .ok pairing) : pairing.Ascending := by
  obtain ⟨blocks, hfits, -, rfl⟩ := ofText_eq_ok_iff.mp h
  have hopens := Blocks.opens_pairsAt hfits 0
  simp only [Ascending, toList, hopens]
  exact Quote.pairwise_barePositions _ _ _ _

variable {pairing : Pairing}

theorem mem_toList_iff {pair : BracePair} :
    pair ∈ pairing.toList ↔ ∃ id : Nat, pairing.pairs[id]? = some pair := by
  simp [toList, List.mem_iff_getElem?]

theorem Ascending.opens_lt (h : pairing.Ascending) {id later : Nat} {pair other : BracePair}
    (hpair : pairing.pairs[id]? = some pair) (hother : pairing.pairs[later]? = some other)
    (hlt : id < later) : pair.opens < other.opens := by
  have hpair' : (pairing.toList.map BracePair.opens)[id]? = some pair.opens := by
    simp [toList, hpair]
  have hother' : (pairing.toList.map BracePair.opens)[later]? = some other.opens := by
    simp [toList, hother]
  obtain ⟨hid, hopens⟩ := List.getElem?_eq_some_iff.mp hpair'
  obtain ⟨hlater, hopens'⟩ := List.getElem?_eq_some_iff.mp hother'
  have hpairwise := List.pairwise_iff_getElem.mp h id later hid hlater hlt
  rwa [hopens, hopens'] at hpairwise

theorem Ascending.opens_le (h : pairing.Ascending) {id later : Nat} {pair other : BracePair}
    (hpair : pairing.pairs[id]? = some pair) (hother : pairing.pairs[later]? = some other)
    (hle : id ≤ later) : pair.opens ≤ other.opens := by
  rcases Nat.lt_or_eq_of_le hle with hlt | rfl
  · exact Nat.le_of_lt (h.opens_lt hpair hother hlt)
  · obtain rfl := Option.some.inj (hpair.symm.trans hother)
    exact Nat.le_refl _

/-- The bisection ends at the id that divides the pairs that open before a position
from the others. -/
theorem lt_firstFrom_iff (h : pairing.Ascending) {start low high : Nat}
    (hbefore : ∀ id pair, pairing.pairs[id]? = some pair → id < low → pair.opens < start)
    (hbehind : ∀ id pair, pairing.pairs[id]? = some pair → high ≤ id → start ≤ pair.opens)
    (hhigh : high ≤ pairing.size) {id : Nat} {pair : BracePair}
    (hpair : pairing.pairs[id]? = some pair) :
    id < pairing.firstFrom start low high ↔ pair.opens < start := by
  fun_induction firstFrom pairing start low high with
  | case1 low high hlt middle other hother hopens ih =>
      refine ih ?_ hbehind hhigh
      intro early earlyPair hearly hlow
      by_cases hlast : early = middle
      · subst hlast
        rw [hother] at hearly
        obtain rfl := Option.some.inj hearly
        exact hopens
      · have hearlier : early < middle := by omega
        have := h.opens_lt hearly hother hearlier
        omega
  | case2 low high hlt middle other hother hopens ih =>
      refine ih hbefore ?_ ?_
      · intro late latePair hlate hle
        by_cases hfirst : late = middle
        · subst hfirst
          rw [hother] at hlate
          obtain rfl := Option.some.inj hlate
          exact Nat.le_of_not_lt hopens
        · have hlater : middle < late := by omega
          have := h.opens_lt hother hlate hlater
          omega
      · have : middle = low + (high - low) / 2 := rfl
        omega
  | case3 low high hlt middle hnone ih =>
      have hmiddle : middle < pairing.pairs.size := by
        have : middle = low + (high - low) / 2 := rfl
        have hsize : pairing.size = pairing.pairs.size := rfl
        omega
      rw [Array.getElem?_eq_getElem hmiddle] at hnone
      contradiction
  | case4 low high hle =>
      constructor
      · exact hbefore id pair hpair
      · intro hopens
        by_contra hnot
        have := hbehind id pair hpair (by omega)
        omega

theorem lt_firstFrom_size_iff (h : pairing.Ascending) {start id : Nat} {pair : BracePair}
    (hpair : pairing.pairs[id]? = some pair) :
    id < pairing.firstFrom start 0 pairing.size ↔ pair.opens < start := by
  have hbehind : ∀ id pair, pairing.pairs[id]? = some pair → pairing.size ≤ id →
      start ≤ pair.opens := by
    intro late latePair hlate hle
    obtain ⟨hlt, -⟩ := Array.getElem?_eq_some_iff.mp hlate
    exact absurd hlt (Nat.not_lt.mpr hle)
  exact lt_firstFrom_iff h (by simp) hbehind (Nat.le_refl _) hpair

/-- The look-up finds the first pair that opens in a range. -/
theorem firstWithin?_eq_some_iff (h : pairing.Ascending) {start stop id : Nat}
    {pair : BracePair} :
    pairing.firstWithin? start stop = some (id, pair) ↔
      pairing.pairs[id]? = some pair ∧ start ≤ pair.opens ∧ pair.opens < stop ∧
        ∀ early other, pairing.pairs[early]? = some other → early < id →
          other.opens < start := by
  constructor
  · intro hfind
    simp only [firstWithin?] at hfind
    split at hfind
    · next found hfound =>
        split at hfind
        · next hstop =>
            obtain ⟨rfl, rfl⟩ := Prod.mk.inj (Option.some.inj hfind)
            refine ⟨hfound, ?_, hstop, ?_⟩
            · exact Nat.le_of_not_lt fun hlt =>
                Nat.lt_irrefl _ ((lt_firstFrom_size_iff h hfound).mpr hlt)
            · intro early other hother hlt
              exact (lt_firstFrom_size_iff h hother).mp hlt
        · contradiction
    · contradiction
  · rintro ⟨hpair, hstart, hstop, hearly⟩
    have hid : pairing.firstFrom start 0 pairing.size = id := by
      apply Nat.le_antisymm
      · refine Nat.le_of_not_lt fun hlt => ?_
        have := (lt_firstFrom_size_iff h hpair).mp hlt
        omega
      · refine Nat.le_of_not_lt fun hlt => ?_
        obtain ⟨hsize, -⟩ := Array.getElem?_eq_some_iff.mp hpair
        have hfound := Array.getElem?_eq_getElem (Nat.lt_trans hlt hsize)
        have := (lt_firstFrom_size_iff h hfound).mpr (hearly _ _ hfound hlt)
        omega
    simp [firstWithin?, hid, hpair, hstop]

/-- The look-up finds nothing only where no pair opens. -/
theorem firstWithin?_eq_none_iff (h : pairing.Ascending) {start stop : Nat} :
    pairing.firstWithin? start stop = none ↔
      ∀ pair ∈ pairing.toList, ¬ (start ≤ pair.opens ∧ pair.opens < stop) := by
  constructor
  · intro hfind pair hmem hwithin
    obtain ⟨id, hpair⟩ := mem_toList_iff.mp hmem
    simp only [firstWithin?] at hfind
    have hle : pairing.firstFrom start 0 pairing.size ≤ id := by
      refine Nat.le_of_not_lt fun hlt => ?_
      have := (lt_firstFrom_size_iff h hpair).mp hlt
      omega
    obtain ⟨hsize, -⟩ := Array.getElem?_eq_some_iff.mp hpair
    obtain ⟨first, hfirst⟩ :
        ∃ first, pairing.pairs[pairing.firstFrom start 0 pairing.size]? = some first :=
      ⟨_, Array.getElem?_eq_getElem (Nat.lt_of_le_of_lt hle hsize)⟩
    have hopens : first.opens ≤ pair.opens := h.opens_le hfirst hpair hle
    rw [hfirst] at hfind
    simp only [ite_eq_right_iff] at hfind
    have := hfind (by omega)
    contradiction
  · intro hnone
    cases hfind : pairing.firstWithin? start stop with
    | none => rfl
    | some found =>
        obtain ⟨id, pair⟩ := found
        obtain ⟨hpair, hstart, hstop, -⟩ := (firstWithin?_eq_some_iff h).mp hfind
        have hmem : pair ∈ pairing.toList := mem_toList_iff.mpr ⟨id, hpair⟩
        exact absurd ⟨hstart, hstop⟩ (hnone pair hmem)

/-- The pair that the look-up finds, by what stands in front of it. -/
theorem firstWithin?_of_split (h : pairing.Ascending) {early late : List BracePair}
    {pair : BracePair} (hpairs : pairing.toList = early ++ pair :: late) {start stop : Nat}
    (hearly : ∀ other ∈ early, other.opens < start) (hstart : start ≤ pair.opens)
    (hstop : pair.opens < stop) :
    pairing.firstWithin? start stop = some (early.length, pair) := by
  have hget : ∀ id : Nat, pairing.pairs[id]? = (early ++ pair :: late)[id]? := by
    intro id
    rw [← hpairs, toList, Array.getElem?_toList]
  rw [firstWithin?_eq_some_iff h]
  refine ⟨by simp [hget], hstart, hstop, ?_⟩
  intro id other hother hlt
  rw [hget, List.getElem?_append_left hlt] at hother
  exact hearly other (List.mem_iff_getElem?.mpr ⟨id, hother⟩)

/-! ### Ranges of a text -/

/-- The pair of an id opens in `[start, stop)`. -/
def OpensWithin (pairing : Pairing) (start stop id : Nat) : Prop :=
  ∃ pair, pairing.pairs[id]? = some pair ∧ start ≤ pair.opens ∧ pair.opens < stop

theorem exists_opensWithin_iff {start stop : Nat} :
    (∃ id, pairing.OpensWithin start stop id) ↔
      ∃ pair ∈ pairing.toList, start ≤ pair.opens ∧ pair.opens < stop := by
  constructor
  · rintro ⟨id, pair, hpair, hwithin⟩
    exact ⟨pair, mem_toList_iff.mpr ⟨id, hpair⟩, hwithin⟩
  · rintro ⟨pair, hmem, hwithin⟩
    obtain ⟨id, hpair⟩ := mem_toList_iff.mp hmem
    exact ⟨id, pair, hpair, hwithin⟩

/-- No pair in front of one that opens before `stop` opens in the range exactly if all
of them open before the range. -/
theorem Ascending.forall_not_opensWithin_iff (h : pairing.Ascending) {start stop id : Nat}
    {pair : BracePair} (hpair : pairing.pairs[id]? = some pair) (hstop : pair.opens < stop) :
    (∀ early < id, ¬ pairing.OpensWithin start stop early) ↔
      ∀ early other, pairing.pairs[early]? = some other → early < id → other.opens < start := by
  constructor
  · intro hnone early other hother hlt
    have hopens := h.opens_lt hother hpair hlt
    refine Nat.lt_of_not_le fun hstart => ?_
    exact hnone early hlt ⟨other, hother, hstart, Nat.lt_trans hopens hstop⟩
  · rintro hearly early hlt ⟨other, hother, hstart, -⟩
    exact Nat.not_lt.mpr hstart (hearly early other hother hlt)

/-- The pairs of a text open where a `{` stands bare. -/
theorem exists_opens_iff {text : List Char} (h : ofText text = .ok pairing) {position : Nat} :
    (∃ pair ∈ pairing.toList, pair.opens = position) ↔ BareAt text '{' position := by
  obtain ⟨blocks, hfits, rfl, rfl⟩ := ofText_eq_ok_iff.mp h
  rw [← mem_barePositions_outside_iff, ← Blocks.opens_pairsAt hfits 0, List.mem_map]
  rfl

theorem exists_opensWithin_iff_bareAt {text : List Char} (h : ofText text = .ok pairing)
    {start stop : Nat} :
    (∃ id, pairing.OpensWithin start stop id) ↔
      ∃ position, start ≤ position ∧ position < stop ∧ BareAt text '{' position := by
  rw [exists_opensWithin_iff]
  constructor
  · rintro ⟨pair, hmem, hstart, hstop⟩
    exact ⟨pair.opens, hstart, hstop, (exists_opens_iff h).mp ⟨pair, hmem, rfl⟩⟩
  · rintro ⟨position, hstart, hstop, hbare⟩
    obtain ⟨pair, hmem, rfl⟩ := (exists_opens_iff h).mpr hbare
    exact ⟨pair, hmem, hstart, hstop⟩

/-- The pair that the look-up finds opens at the first bare `{` of the range. -/
theorem isLeast_bareAt_of_firstWithin? {text : List Char} (h : ofText text = .ok pairing)
    {start stop id : Nat} {pair : BracePair}
    (hfind : pairing.firstWithin? start stop = some (id, pair)) :
    IsLeast {position | start ≤ position ∧ position < stop ∧ BareAt text '{' position}
      pair.opens := by
  have hascending := ascending_of_ofText h
  obtain ⟨hpair, hstart, hstop, hearly⟩ := (firstWithin?_eq_some_iff hascending).mp hfind
  have hmem : pair ∈ pairing.toList := mem_toList_iff.mpr ⟨id, hpair⟩
  refine ⟨⟨hstart, hstop, (exists_opens_iff h).mp ⟨pair, hmem, rfl⟩⟩, ?_⟩
  rintro position ⟨hposition, -, hbare⟩
  obtain ⟨other, hother, rfl⟩ := (exists_opens_iff h).mpr hbare
  obtain ⟨later, hlater⟩ := mem_toList_iff.mp hother
  rcases Nat.lt_or_ge later id with hlt | hle
  · have hbefore := hearly later other hlater hlt
    omega
  · exact hascending.opens_le hpair hlater hle

/-- In the pairing of a text the look-up finds an id exactly if its pair opens in the range
and the pair of no smaller id does, and it finds none exactly if no pair opens in the range,
wherever the range lies and also if it ends before it starts.  In the text, what is found is
the first bare `{` of the range, and where none is found no `{` stands bare in the range. -/
theorem firstWithin?_finds_first {text : List Char} (h : ofText text = .ok pairing)
    (start stop : Nat) :
    (∀ id pair, pairing.firstWithin? start stop = some (id, pair) ↔
      pairing.pairs[id]? = some pair ∧ start ≤ pair.opens ∧ pair.opens < stop ∧
        ∀ early < id, ¬ pairing.OpensWithin start stop early) ∧
    (pairing.firstWithin? start stop = none ↔ ∀ id, ¬ pairing.OpensWithin start stop id) ∧
    (∀ id pair, pairing.firstWithin? start stop = some (id, pair) →
      IsLeast {position | start ≤ position ∧ position < stop ∧ BareAt text '{' position}
        pair.opens) ∧
    (pairing.firstWithin? start stop = none ↔
      ∀ position, start ≤ position → position < stop → ¬ BareAt text '{' position) := by
  have hascending := ascending_of_ofText h
  have hnone : pairing.firstWithin? start stop = none ↔
      ∀ id, ¬ pairing.OpensWithin start stop id := by
    rw [firstWithin?_eq_none_iff hascending, ← not_exists, exists_opensWithin_iff]
    simp
  refine ⟨?_, hnone, fun id pair hfind => isLeast_bareAt_of_firstWithin? h hfind, ?_⟩
  · intro id pair
    rw [firstWithin?_eq_some_iff hascending]
    constructor
    · rintro ⟨hpair, hstart, hstop, hearly⟩
      exact ⟨hpair, hstart, hstop,
        (hascending.forall_not_opensWithin_iff hpair hstop).mpr hearly⟩
    · rintro ⟨hpair, hstart, hstop, hearly⟩
      exact ⟨hpair, hstart, hstop,
        (hascending.forall_not_opensWithin_iff hpair hstop).mp hearly⟩
  · rw [hnone, ← not_exists, exists_opensWithin_iff_bareAt h]
    simp

/-- A range that starts at a brace, one that ends at a brace and holds a quoted one, and one
that ends before it starts. -/
theorem firstWithin?_finds_first_nested :
    let text := "é\x7bb'\x7b'\x7bc\x7d\x7d\x7bd\x7d".toList
    let pairing : Pairing := ⟨#[⟨2, 10⟩, ⟨7, 9⟩, ⟨11, 13⟩]⟩
    ofText text = .ok pairing ∧
      pairing.firstWithin? 7 18446744073709551615 = some (1, ⟨7, 9⟩) ∧
      pairing.firstWithin? 3 7 = none ∧
      (∀ position, 3 ≤ position → position < 7 → ¬ BareAt text '{' position) ∧
      pairing.firstWithin? 12 3 = none := by
  intro text pairing
  have hrun : ofText text = .ok pairing := by rfl
  have hearly : ∀ early < 1, ¬ pairing.OpensWithin 7 18446744073709551615 early := by
    rintro early hlt ⟨other, hother, hstart, -⟩
    obtain rfl : early = 0 := by omega
    obtain rfl := Option.some.inj hother
    contradiction
  have hquoted : ∀ id, ¬ pairing.OpensWithin 3 7 id := by
    rw [← not_exists, exists_opensWithin_iff]
    decide
  have hempty : ∀ id, ¬ pairing.OpensWithin 12 3 id := by
    rintro id ⟨pair, -, hstart, hstop⟩
    omega
  obtain ⟨hsome, -⟩ := firstWithin?_finds_first hrun 7 18446744073709551615
  obtain ⟨-, hnone, -, hbare⟩ := firstWithin?_finds_first hrun 3 7
  obtain ⟨-, hreversed, -⟩ := firstWithin?_finds_first hrun 12 3
  exact ⟨hrun, (hsome 1 ⟨7, 9⟩).mpr ⟨rfl, by decide, by decide, hearly⟩, hnone.mpr hquoted,
    hbare.mp (hnone.mpr hquoted), hreversed.mpr hempty⟩

end Espalier.Markup.Pairing
