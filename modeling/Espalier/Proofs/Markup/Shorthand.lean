/-
What a tag shows of itself up to its first quote mark.  No shorthand holds a mark, so
this much decides whether a tag is one.
-/
import Mathlib.Data.List.TakeWhile
import Espalier.Proofs.Text.Bare
import Espalier.Markup.Shorthand

namespace Espalier.Markup

open Espalier.Text

/-- A text up to its first quote mark.  One mark stands for whatever follows. -/
def blur : List Char → List Char
  | [] => []
  | c :: cs => if isQuoteMark c then ['\''] else c :: blur cs

theorem blur_of_mark {c : Char} (h : isQuoteMark c = true) (cs : List Char) :
    blur (c :: cs) = ['\''] := if_pos h

theorem blur_of_not_mark {c : Char} (h : isQuoteMark c = false) (cs : List Char) :
    blur (c :: cs) = c :: blur cs := by
  simp [blur, h]

theorem blur_of_unmarked {cs : List Char} (h : cs.any isQuoteMark = false) : blur cs = cs := by
  induction cs with
  | nil => rfl
  | cons c cs ih =>
      simp only [List.any_cons, Bool.or_eq_false_iff] at h
      rw [blur_of_not_mark h.1, ih h.2]

@[simp] theorem any_blur (cs : List Char) :
    (blur cs).any isQuoteMark = cs.any isQuoteMark := by
  have hquote : isQuoteMark '\'' = true := rfl
  induction cs with
  | nil => rfl
  | cons c cs ih =>
      cases hc : isQuoteMark c with
      | true => rw [blur_of_mark hc, List.any_cons, List.any_cons, hquote, hc, Bool.true_or,
          Bool.true_or]
      | false => rw [blur_of_not_mark hc, List.any_cons, List.any_cons, ih]

@[simp] theorem isEmpty_blur (cs : List Char) : (blur cs).isEmpty = cs.isEmpty := by
  cases cs with
  | nil => rfl
  | cons c cs => cases hc : isQuoteMark c <;> simp [blur, hc]

theorem blur_append (front back : List Char) :
    blur (front ++ back) =
      if front.any isQuoteMark = true then blur front else front ++ blur back := by
  induction front with
  | nil => rfl
  | cons c cs ih =>
      cases hc : isQuoteMark c with
      | true => rw [List.cons_append, blur_of_mark hc, blur_of_mark hc, List.any_cons, hc,
          Bool.true_or, if_pos rfl]
      | false =>
          rw [List.cons_append, blur_of_not_mark hc, blur_of_not_mark hc, ih, List.any_cons, hc,
            Bool.false_or]
          split <;> rfl

theorem any_eq_of_blur_eq {first second : List Char} (h : blur first = blur second) :
    first.any isQuoteMark = second.any isQuoteMark := by
  rw [← any_blur first, h, any_blur]

/-- Texts with one blur have one blur behind them too, where it is still seen. -/
theorem blur_append_congr {front other back rest : List Char} (h : blur front = blur other)
    (hback : front.any isQuoteMark = false → blur back = blur rest) :
    blur (front ++ back) = blur (other ++ rest) := by
  have hmarked := any_eq_of_blur_eq h
  rw [blur_append, blur_append, ← hmarked]
  cases hany : front.any isQuoteMark with
  | true => exact h
  | false =>
      rw [hany] at hmarked
      rw [blur_of_unmarked hany, blur_of_unmarked hmarked.symm] at h
      rw [h, hback hany]

/-- A cut before a character that is no mark is seen. -/
theorem blur_takeWhile {test : Char → Bool} (htest : ∀ c, isQuoteMark c → test c)
    (cs : List Char) : blur (cs.takeWhile test) = (blur cs).takeWhile test := by
  have hquote : test '\'' := htest _ rfl
  induction cs with
  | nil => rfl
  | cons c cs ih =>
      cases hc : isQuoteMark c with
      | true => simp [blur_of_mark hc, htest c hc, hquote]
      | false =>
          rw [blur_of_not_mark hc, List.takeWhile_cons, List.takeWhile_cons]
          split
          · rw [blur_of_not_mark hc, ih]
          · rfl

/-! ### Tags -/

theorem cutTag_fst (tag : String) :
    (cutTag tag).1 = String.ofList (tag.toList.takeWhile (· != '.')) := by
  rw [cutTag]
  split
  · next name classes hsplit =>
      obtain ⟨htag, hfree⟩ := eq_of_splitFirst hsplit
      have hname : ∀ c ∈ name, (c != '.') = true := by
        intro c hc
        have hne : c ≠ '.' := fun heq => hfree (heq ▸ hc)
        simpa using hne
      rw [htag, List.takeWhile_append_of_pos hname]
      simp
  · next hsplit =>
      have hfree := splitFirst_eq_none_iff.mp hsplit
      have hall : ∀ c ∈ tag.toList, (c != '.') = true := by
        intro c hc
        have hne : c ≠ '.' := fun heq => hfree (heq ▸ hc)
        simpa using hne
      rw [List.takeWhile_eq_self_iff.mpr hall, String.ofList_toList]

theorem toLower_ofList (cs : List Char) :
    (String.ofList cs).toLower = String.ofList (cs.map Char.toLower) := by
  change (String.ofList cs).map Char.toLower = _
  rw [← String.toList_inj]
  simp

namespace Settings

/-- No shorthand holds a quote mark. -/
def Unmarked (settings : Settings) : Prop :=
  ∀ name ∈ settings.shorthands, name.toList.any isQuoteMark = false

variable {settings : Settings}

theorem Unmarked.isShorthand_of_marked (h : settings.Unmarked) {name : List Char}
    (hname : name.any isQuoteMark) :
    settings.isShorthand (String.ofList name).toLower = false := by
  by_contra hshort
  have hmem : String.ofList (name.map Char.toLower) ∈ settings.shorthands := by
    simpa [isShorthand, toLower_ofList] using hshort
  obtain ⟨c, hc, hmark⟩ := List.any_eq_true.mp hname
  have hlower : isQuoteMark c.toLower = true := by
    rcases isQuoteMark_iff.mp hmark with rfl | rfl <;> rfl
  have hnone := h _ hmem
  simp only [String.toList_ofList, List.any_map, List.any_eq_false] at hnone
  exact hnone c hc hlower

/-- Whether a tag is a shorthand can be seen. -/
theorem Unmarked.isShorthand_congr (h : settings.Unmarked) {tag other : String}
    (htag : blur tag.toList = blur other.toList) :
    settings.isShorthand (cutTag tag).1.toLower =
      settings.isShorthand (cutTag other).1.toLower := by
  have hdot : ∀ c, isQuoteMark c → (c != '.') = true := by
    intro c hc
    rcases isQuoteMark_iff.mp hc with rfl | rfl <;> rfl
  have hname : blur (tag.toList.takeWhile (· != '.')) =
      blur (other.toList.takeWhile (· != '.')) := by
    rw [blur_takeWhile hdot, htag, blur_takeWhile hdot]
  have hmarked := any_eq_of_blur_eq hname
  rw [cutTag_fst, cutTag_fst]
  cases hany : (tag.toList.takeWhile (· != '.')).any isQuoteMark with
  | true =>
      rw [h.isShorthand_of_marked hany, h.isShorthand_of_marked (hmarked ▸ hany)]
  | false =>
      rw [hany] at hmarked
      rw [blur_of_unmarked hany, blur_of_unmarked hmarked.symm] at hname
      rw [hname]

/-- A shorthand writes an attribute block. -/
theorem isEmpty_params_expand (settings : Settings) (tag params : String) :
    (settings.expand tag params).2.isEmpty =
      (!settings.isShorthand (cutTag tag).1.toLower && params.isEmpty) := by
  have hwritten : ∀ rest : String, ("type:" ++ rest).isEmpty = false := by
    intro rest
    simp [String.isEmpty_eq_false_iff]
  simp only [expand]
  cases settings.isShorthand (cutTag tag).1.toLower with
  | false => simp
  | true => cases params.isEmpty <;> simp [hwritten, String.append_assoc]

end Settings

end Espalier.Markup
