/-
Capping a text.  The place of the cut is searched for backwards, so the first scalar
boundary that is met is the last one in reach, and what stays in front of it is the longest
run of whole scalars that fits.  No scalar has more than four bytes, so the cut is at most
three bytes short of the limit.
-/
import Mathlib.Order.Bounds.Basic
import Espalier.Text.Bytes

namespace Espalier.Text

variable {text : String} {limit stop : Nat}

/-! ### The search -/

/-- The search stops at the last boundary in reach. -/
theorem isGreatest_of_lastBoundary? (h : lastBoundary? text limit = some stop) :
    IsGreatest {position | isBoundary text position ∧ position ≤ limit} stop := by
  induction limit with
  | zero =>
      obtain rfl : 0 = stop := by simpa [lastBoundary?] using h
      exact ⟨⟨isBoundary_zero text, Nat.le_refl 0⟩, fun position hposition => hposition.2⟩
  | succ previous ih =>
      by_cases hhere : isBoundary text (previous + 1)
      · obtain rfl : previous + 1 = stop := by simpa [lastBoundary?, hhere] using h
        exact ⟨⟨hhere, Nat.le_refl _⟩, fun position hposition => hposition.2⟩
      · have hrest : lastBoundary? text previous = some stop := by
          simpa [lastBoundary?, hhere] using h
        obtain ⟨⟨hstop, hle⟩, hlast⟩ := ih hrest
        refine ⟨⟨hstop, Nat.le_succ_of_le hle⟩, ?_⟩
        rintro position ⟨hposition, hreach⟩
        -- the only position in reach that is new is the one the search has left
        have hne : position ≠ previous + 1 := by
          rintro rfl
          exact hhere hposition
        exact hlast ⟨hposition, by omega⟩

/-! ### Boundaries and fronts -/

/-- A boundary is where a front of the text ends. -/
theorem isBoundary_iff {position : Nat} :
    isBoundary text position ↔
      ∃ front : String, front.toList <+: text.toList ∧ front.utf8ByteSize = position := by
  rw [isBoundary, String.Pos.Raw.isValid_eq_true_iff, String.Pos.Raw.isValid_iff_exists_append]
  constructor
  · rintro ⟨front, back, rfl, hposition⟩
    exact ⟨front, ⟨back.toList, by simp⟩, congrArg String.Pos.Raw.byteIdx hposition.symm⟩
  · rintro ⟨front, ⟨back, htext⟩, rfl⟩
    refine ⟨front, String.ofList back, ?_, rfl⟩
    rw [← String.toList_inj, String.toList_append, String.toList_ofList, htext]

/-- The cut in front of a boundary is the front that ends there. -/
theorem front?_utf8ByteSize {front : String} (h : front.toList <+: text.toList) :
    front? text front.utf8ByteSize = some front := by
  obtain ⟨back, hback⟩ := h
  have hboundary : isBoundary text front.utf8ByteSize :=
    isBoundary_iff.mpr ⟨front, ⟨back, hback⟩, rfl⟩
  rw [front?, if_pos hboundary, ← hback, ← byteLength_toList, takeBytes_append,
    String.ofList_toList]

/-- Of two fronts of a text, the one with fewer bytes begins the other. -/
theorem prefix_of_utf8ByteSize_le {front other : String} (hfront : front.toList <+: text.toList)
    (hother : other.toList <+: text.toList)
    (hle : other.utf8ByteSize ≤ front.utf8ByteSize) : other.toList <+: front.toList := by
  rcases List.prefix_or_prefix_of_prefix hother hfront with h | ⟨between, hbetween⟩
  · exact h
  · rw [← byteLength_toList, ← byteLength_toList, ← hbetween, byteLength_append] at hle
    have hempty : between = [] := byteLength_eq_zero_iff.mp (by omega)
    exact ⟨[], by rw [← hbetween, hempty]; simp⟩

/-- The longest run of whole scalars that a text begins with and that fits in `limit`
bytes. -/
structure LongestFront (text : String) (limit : Nat) (front : String) : Prop where
  begins : front.toList <+: text.toList
  fits : front.utf8ByteSize ≤ limit
  longest : ∀ other : String, other.toList <+: text.toList → other.utf8ByteSize ≤ limit →
    other.toList <+: front.toList

/-- The search stops where the longest front that fits ends. -/
theorem exists_longestFront (text : String) (limit : Nat) :
    ∃ front, LongestFront text limit front ∧
      lastBoundary? text limit = some front.utf8ByteSize := by
  obtain ⟨stop, hsearch, -⟩ := exists_lastBoundary text limit
  obtain ⟨⟨hstop, hle⟩, hlast⟩ := isGreatest_of_lastBoundary? hsearch
  obtain ⟨front, hfront, rfl⟩ := isBoundary_iff.mp hstop
  refine ⟨front, ⟨hfront, hle, ?_⟩, hsearch⟩
  intro other hother hfits
  have hboundary : isBoundary text other.utf8ByteSize := isBoundary_iff.mpr ⟨other, hother, rfl⟩
  exact prefix_of_utf8ByteSize_le hfront hother (hlast ⟨hboundary, hfits⟩)

/-- There is one longest front. -/
theorem LongestFront.unique {front other : String} (h : LongestFront text limit front)
    (hother : LongestFront text limit other) : front = other := by
  have hle := (h.longest other hother.begins hother.fits).length_le
  have hbegins := hother.longest front h.begins h.fits
  exact String.toList_inj.mp (hbegins.eq_of_length_le hle)

/-- Behind the longest front that fits stands a scalar that does not fit any more. -/
theorem LongestFront.limit_le {front : String} (h : LongestFront text limit front)
    (hlong : limit < text.utf8ByteSize) : limit ≤ front.utf8ByteSize + 3 := by
  obtain ⟨back, hback⟩ := h.begins
  have hfits := h.fits
  rw [← byteLength_toList, ← hback, byteLength_append, byteLength_toList] at hlong
  cases back with
  | nil =>
      rw [byteLength_nil] at hlong
      omega
  | cons c cs =>
      have hnext : limit < front.utf8ByteSize + c.utf8Size := by
        refine Nat.lt_of_not_le fun hle => ?_
        have hsize : (front.push c).utf8ByteSize ≤ limit := by simpa using hle
        have hlonger : (front.push c).toList <+: front.toList :=
          h.longest _ ⟨cs, by simpa using hback⟩ hsize
        have hlength := hlonger.length_le
        simp only [String.toList_push, List.length_append, List.length_singleton] at hlength
        omega
      have hscalar := c.utf8Size_le_four
      omega

/-! ### The capped text -/

theorem capped?_eq_some_capped (text : String) (limit : Nat) :
    capped? text limit = some (capped text limit) := by
  rw [capped, Option.some_get]

theorem capped_of_fits (h : text.utf8ByteSize ≤ limit) : capped text limit = text := by
  simp [capped, capped?, h]

/-- A text that is too long is cut where the search stops. -/
theorem capped_of_lastBoundary? {front : String} (h : limit < text.utf8ByteSize)
    (hsearch : lastBoundary? text limit = some front.utf8ByteSize)
    (hfront : front.toList <+: text.toList) : capped text limit = front ++ "..." := by
  simp [capped, capped?, Nat.not_le.mpr h, hsearch, front?_utf8ByteSize hfront]

/-- A text as it is shown within a number of bytes: the whole of it, or the longest front
that fits, and three dots. -/
inductive Caps (text : String) (limit : Nat) : String → Prop
  | whole (h : text.utf8ByteSize ≤ limit) : Caps text limit text
  | cut {front : String} (h : limit < text.utf8ByteSize)
      (hfront : LongestFront text limit front) : Caps text limit (front ++ "...")

theorem Caps.unique {shown other : String} (h : Caps text limit shown)
    (hother : Caps text limit other) : shown = other := by
  cases h with
  | whole hfits =>
      cases hother with
      | whole => rfl
      | cut hlong => omega
  | cut hlong hfront =>
      cases hother with
      | whole hfits => omega
      | cut _ hfront' => rw [hfront.unique hfront']

theorem caps_capped (text : String) (limit : Nat) : Caps text limit (capped text limit) := by
  rcases Nat.lt_or_ge limit text.utf8ByteSize with hlong | hfits
  · obtain ⟨front, hfront, hsearch⟩ := exists_longestFront text limit
    rw [capped_of_lastBoundary? hlong hsearch hfront.begins]
    exact .cut hlong hfront
  · rw [capped_of_fits hfits]
    exact .whole hfits

theorem caps_iff {shown : String} : Caps text limit shown ↔ shown = capped text limit := by
  constructor
  · exact fun h => h.unique (caps_capped text limit)
  · rintro rfl
    exact caps_capped text limit

/-- Capping always succeeds: the search does not leave the text, nor does the cut divide a
scalar.  A text of at most `limit` bytes stays as it is.  Of a longer one stays the longest
front of whole scalars that fits, which ends at the last scalar boundary in reach, at most
three bytes short of the limit, and three dots follow. -/
theorem capped_longestFront (text : String) (limit : Nat) :
    capped? text limit = some (capped text limit) ∧
    (text.utf8ByteSize ≤ limit → capped text limit = text) ∧
    (limit < text.utf8ByteSize →
      ∃ front, capped text limit = front ++ "..." ∧ LongestFront text limit front ∧
        limit ≤ front.utf8ByteSize + 3 ∧
        IsGreatest {position | isBoundary text position ∧ position ≤ limit}
          front.utf8ByteSize ∧
        lastBoundary? text limit = some front.utf8ByteSize ∧
        front? text front.utf8ByteSize = some front) := by
  refine ⟨capped?_eq_some_capped text limit, capped_of_fits, fun hlong => ?_⟩
  obtain ⟨front, hlongest, hsearch⟩ := exists_longestFront text limit
  exact ⟨front, capped_of_lastBoundary? hlong hsearch hlongest.begins, hlongest,
    hlongest.limit_le hlong, isGreatest_of_lastBoundary? hsearch, hsearch,
    front?_utf8ByteSize hlongest.begins⟩

/-- A limit inside a scalar of four bytes, three bytes behind where it begins, and a limit
that admits the whole text. -/
theorem capped_longestFront_inside :
    4 < "a😀b".utf8ByteSize ∧ capped "a😀b" 4 = "a..." ∧ LongestFront "a😀b" 4 "a" ∧
      lastBoundary? "a😀b" 4 = some 1 ∧
      "a😀b".utf8ByteSize ≤ 6 ∧ capped "a😀b" 6 = "a😀b" := by
  have hlong : 4 < "a😀b".utf8ByteSize := by decide
  have hfits : "a😀b".utf8ByteSize ≤ 6 := by decide
  have hstop : lastBoundary? "a😀b" 4 = some 1 := by decide
  have hcut : front? "a😀b" 1 = some "a" := by decide
  obtain ⟨-, -, hcapped⟩ := capped_longestFront "a😀b" 4
  obtain ⟨front, hfront, hlongest, -, -, hsearch, hfront'⟩ := hcapped hlong
  have hsize : 1 = front.utf8ByteSize := Option.some.inj (hstop.symm.trans hsearch)
  obtain rfl : "a" = front := by
    rw [← hsize, hcut] at hfront'
    exact Option.some.inj hfront'
  exact ⟨hlong, hfront, hlongest, hstop, hfits, (capped_longestFront "a😀b" 6).2.1 hfits⟩

end Espalier.Text
