/-
Cutting a text at a separator character.  `pieces` keeps every piece, the empty
ones too, so joining the pieces with the separator gives the text back;
`splitFirst` cuts once, at the first separator, if there is one.
-/

import Espalier.Text.Blank

namespace Espalier.Text

/-- The pieces between separators, in order.  There is always at least one. -/
def pieces (separator : Char) : List Char → List (List Char)
  | [] => [[]]
  | c :: cs =>
      if c = separator then [] :: pieces separator cs
      else
        match pieces separator cs with
        | [] => [[c]]
        | piece :: rest => (c :: piece) :: rest

/-- Cut at the first separator; `none` when the text has none. -/
def splitFirst (separator : Char) : List Char → Option (List Char × List Char)
  | [] => none
  | c :: cs =>
      if c = separator then some ([], cs)
      else (splitFirst separator cs).map fun (front, back) => (c :: front, back)

/-- The cut loses nothing, and the front holds no separator. -/
theorem eq_of_splitFirst {separator : Char} {cs front back : List Char}
    (h : splitFirst separator cs = some (front, back)) :
    cs = front ++ separator :: back ∧ separator ∉ front := by
  induction cs generalizing front with
  | nil => simp [splitFirst] at h
  | cons c cs ih =>
      simp only [splitFirst] at h
      split at h
      next heq =>
        obtain ⟨rfl, rfl⟩ := Prod.mk.inj (Option.some.inj h)
        simp [heq]
      next hne =>
        obtain ⟨⟨front', back'⟩, hrest, hpair⟩ := Option.map_eq_some_iff.1 h
        obtain ⟨rfl, rfl⟩ := Prod.mk.inj hpair
        obtain ⟨rfl, hfree⟩ := ih hrest
        simp [hfree, Ne.symm hne]

/-- The cut is at the first separator. -/
theorem splitFirst_append_cons {separator : Char} {front : List Char} (h : separator ∉ front)
    (back : List Char) : splitFirst separator (front ++ separator :: back) = some (front, back) := by
  induction front with
  | nil => simp [splitFirst]
  | cons c front ih =>
      rw [List.mem_cons, not_or] at h
      rw [List.cons_append, splitFirst, if_neg (Ne.symm h.1), ih h.2]
      rfl

/-- A text without the separator is not cut. -/
theorem splitFirst_eq_none_iff {separator : Char} {cs : List Char} :
    splitFirst separator cs = none ↔ separator ∉ cs := by
  induction cs with
  | nil => simp [splitFirst]
  | cons c cs ih =>
      by_cases h : c = separator
      · simp [splitFirst, h]
      · simp [splitFirst, h, ih, Ne.symm h]

/-- A text without the separator is one piece. -/
theorem pieces_of_free {separator : Char} {cs : List Char} (h : separator ∉ cs) :
    pieces separator cs = [cs] := by
  induction cs with
  | nil => rfl
  | cons c cs ih =>
      rw [List.mem_cons, not_or] at h
      rw [pieces, if_neg (Ne.symm h.1), ih h.2]

/-- The first separator ends the first piece. -/
theorem pieces_append_cons {separator : Char} {front : List Char} (h : separator ∉ front)
    (back : List Char) :
    pieces separator (front ++ separator :: back) = front :: pieces separator back := by
  induction front with
  | nil => simp [pieces]
  | cons c front ih =>
      rw [List.mem_cons, not_or] at h
      rw [List.cons_append, pieces, if_neg (Ne.symm h.1), ih h.2]

theorem pieces_ne_nil (separator : Char) (cs : List Char) :
    pieces separator cs ≠ [] := by
  cases cs with
  | nil => simp [pieces]
  | cons c cs =>
      simp only [pieces]
      split
      · simp
      · split <;> simp

/-- The pieces, joined with the separator, give the text back. -/
theorem intercalate_pieces (separator : Char) (cs : List Char) :
    [separator].intercalate (pieces separator cs) = cs := by
  induction cs with
  | nil => rfl
  | cons c cs ih =>
      obtain ⟨piece, rest, hpieces⟩ := List.exists_cons_of_ne_nil (pieces_ne_nil separator cs)
      rw [hpieces] at ih
      by_cases h : c = separator
      · simp [pieces, h, hpieces, List.intercalate_cons_cons, ih]
      · rw [pieces, if_neg h, hpieces]
        cases rest with
        | nil =>
            rw [List.intercalate_singleton] at ih
            rw [List.intercalate_singleton, ih]
        | cons next rest =>
            rw [List.intercalate_cons_cons] at ih
            rw [List.intercalate_cons_cons, ← ih]
            rfl

/-- Parts without the separator, joined with it, are the pieces. -/
theorem pieces_intercalate {separator : Char} {parts : List (List Char)} (hne : parts ≠ [])
    (h : ∀ part ∈ parts, separator ∉ part) :
    pieces separator ([separator].intercalate parts) = parts := by
  induction parts with
  | nil => contradiction
  | cons part rest ih =>
      have hpart : separator ∉ part := h part List.mem_cons_self
      cases rest with
      | nil => rw [List.intercalate_singleton, pieces_of_free hpart]
      | cons next rest =>
          have hrest := ih (List.cons_ne_nil next rest) fun other hother =>
            h other (List.mem_cons_of_mem part hother)
          rw [List.intercalate_cons_cons, List.append_assoc, List.singleton_append,
            pieces_append_cons hpart, hrest]

/-- No piece holds the separator. -/
theorem not_mem_of_mem_pieces {separator : Char} {cs piece : List Char}
    (h : piece ∈ pieces separator cs) : separator ∉ piece := by
  induction cs generalizing piece with
  | nil =>
      simp only [pieces, List.mem_singleton] at h
      simp [h]
  | cons c cs ih =>
      simp only [pieces] at h
      split at h
      next heq =>
        rcases List.mem_cons.1 h with rfl | hrest
        · simp
        · exact ih hrest
      next hne =>
        split at h
        next hnil => exact absurd hnil (pieces_ne_nil separator cs)
        next first rest hcons =>
          rcases List.mem_cons.1 h with rfl | hrest
          · have hfirst : separator ∉ first := ih (by simp [hcons])
            simp [hfirst, Ne.symm hne]
          · exact ih (by simp [hcons, hrest])

end Espalier.Text
