/-
Positions in a text are counted in UTF-8 bytes.  A text is the list of its
scalars; this module measures such a list, cuts it at a byte position, and caps
it at a byte length.
-/

namespace Espalier.Text

/-- The UTF-8 length of a list of scalars. -/
def byteLength : List Char → Nat
  | [] => 0
  | c :: cs => c.utf8Size + byteLength cs

@[simp] theorem byteLength_nil : byteLength [] = 0 := rfl

@[simp] theorem byteLength_cons (c : Char) (cs : List Char) :
    byteLength (c :: cs) = c.utf8Size + byteLength cs := rfl

@[simp] theorem byteLength_append (front back : List Char) :
    byteLength (front ++ back) = byteLength front + byteLength back := by
  induction front with
  | nil => simp
  | cons c cs ih => simp [ih, Nat.add_assoc]

/-- No scalar is empty. -/
theorem byteLength_eq_zero_iff {cs : List Char} : byteLength cs = 0 ↔ cs = [] := by
  cases cs with
  | nil => simp
  | cons c cs =>
      have := c.utf8Size_pos
      simp
      omega

/-- Measured as a list of scalars, a string has the length of its encoding. -/
theorem byteLength_toList (text : String) : byteLength text.toList = text.utf8ByteSize := by
  suffices h : ∀ cs : List Char, byteLength cs = (String.ofList cs).utf8ByteSize by
    rw [h, String.ofList_toList]
  intro cs
  induction cs with
  | nil => rfl
  | cons c cs ih =>
      rw [byteLength_cons, ih, ← List.singleton_append, String.ofList_append]
      simp

/-- What is left after the scalars that begin before byte `position`. -/
def dropBytes : Nat → List Char → List Char
  | _, [] => []
  | position, c :: cs =>
      if position = 0 then c :: cs else dropBytes (position - c.utf8Size) cs

/-- The longest run of whole scalars at the front that fits in `limit` bytes. -/
def takeBytes : Nat → List Char → List Char
  | _, [] => []
  | limit, c :: cs =>
      if c.utf8Size ≤ limit then c :: takeBytes (limit - c.utf8Size) cs else []

/-- The text between two byte positions that lie on scalar boundaries. -/
def slice (cs : List Char) (start stop : Nat) : List Char :=
  takeBytes (stop - start) (dropBytes start cs)

/-- Dropping as many bytes as the front has leaves the back. -/
@[simp] theorem dropBytes_append (front back : List Char) :
    dropBytes (byteLength front) (front ++ back) = back := by
  induction front with
  | nil => cases back <;> simp [dropBytes]
  | cons c cs ih =>
      have hpos : c.utf8Size + byteLength cs ≠ 0 := by
        have := c.utf8Size_pos
        omega
      rw [byteLength_cons, List.cons_append, dropBytes, if_neg hpos,
        Nat.add_sub_cancel_left, ih]

/-- No scalar is shorter than a byte, so nothing fits in no bytes. -/
@[simp] theorem takeBytes_zero (cs : List Char) : takeBytes 0 cs = [] := by
  cases cs with
  | nil => rfl
  | cons c cs =>
      have hpos : ¬c.utf8Size ≤ 0 := by
        have := c.utf8Size_pos
        omega
      simp [takeBytes, hpos]

/-- Taking as many bytes as the front has gives the front. -/
@[simp] theorem takeBytes_append (front back : List Char) :
    takeBytes (byteLength front) (front ++ back) = front := by
  induction front with
  | nil => simp
  | cons c cs ih => simp [takeBytes, ih]

/-- A slice between the ends of a middle part is that part. -/
theorem slice_append (front middle back : List Char) :
    slice (front ++ (middle ++ back)) (byteLength front)
        (byteLength front + byteLength middle) = middle := by
  simp [slice]

/-! ### Capping -/

/-- Whether a byte position is a scalar boundary of a text: the byte there begins a
scalar, or the text ends there. -/
def isBoundary (text : String) (position : Nat) : Bool :=
  String.Pos.Raw.isValid text ⟨position⟩

@[simp] theorem isBoundary_zero (text : String) : isBoundary text 0 :=
  String.Pos.Raw.isValid_eq_true_iff.mpr String.Pos.Raw.isValid_zero

/-- Search for a scalar boundary from a byte position backwards, a byte at a time.
`none` when the search leaves the text at its front. -/
def lastBoundary? (text : String) (position : Nat) : Option Nat :=
  if isBoundary text position then some position
  else
    match position with
    | 0 => none
    | previous + 1 => lastBoundary? text previous

/-- The front of a text is a boundary, so the search ends there at the latest. -/
theorem exists_lastBoundary (text : String) (position : Nat) :
    ∃ stop, lastBoundary? text position = some stop ∧ isBoundary text stop := by
  induction position with
  | zero => exact ⟨0, by simp [lastBoundary?], isBoundary_zero text⟩
  | succ previous ih =>
      by_cases h : isBoundary text (previous + 1)
      · exact ⟨previous + 1, by simp [lastBoundary?, h], h⟩
      · obtain ⟨stop, hsearch, hstop⟩ := ih
        exact ⟨stop, by simp [lastBoundary?, h, hsearch], hstop⟩

/-- The text in front of a byte position; `none` when the position is inside a
scalar. -/
def front? (text : String) (stop : Nat) : Option String :=
  if isBoundary text stop then some (String.ofList (takeBytes stop text.toList)) else none

/-- Shorten a text for display.  A text of at most `limit` bytes stays as it is; a
longer one is cut where a search from `limit` backwards meets a boundary, and ends in
three dots.  `none` when the search or the cut fails. -/
def capped? (text : String) (limit : Nat) : Option String :=
  if text.utf8ByteSize ≤ limit then some text
  else do
    let stop ← lastBoundary? text limit
    let front ← front? text stop
    return front ++ "..."

theorem isSome_capped? (text : String) (limit : Nat) : (capped? text limit).isSome := by
  by_cases h : text.utf8ByteSize ≤ limit
  · simp [capped?, h]
  · obtain ⟨stop, hsearch, hstop⟩ := exists_lastBoundary text limit
    simp [capped?, h, hsearch, front?, hstop]

/-- A text shortened for display, which never fails. -/
def capped (text : String) (limit : Nat) : String :=
  (capped? text limit).get (isSome_capped? text limit)

end Espalier.Text
