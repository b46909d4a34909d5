/-
Texts behind a veil.  A veil hides the literal scalars of a text and leaves the bare
ones in sight.  A scan that reacts to bare scalars only does the same along two texts
that look the same behind it.

Trimming can cut into a quote that the text leaves open.  So what is left of two such
texts may differ in the number of literal scalars at the end, but not in whether there
are any.
-/
import Mathlib.Data.List.DropRight
import Espalier.Proofs.Text.Bare

namespace Espalier.Text

namespace Quote

/-- The scalars of a text, with nothing in the place of a literal one. -/
def veil : Quote → List Char → List (Option Char)
  | _, [] => []
  | quote, c :: cs =>
      (if quote.literal c then none else some c) :: veil (quote.next c) cs

@[simp] theorem veil_nil (quote : Quote) : quote.veil [] = [] := rfl

theorem veil_of_literal {quote : Quote} {c : Char} (h : quote.literal c = true)
    (cs : List Char) : quote.veil (c :: cs) = none :: (quote.next c).veil cs := by
  simp [veil, h]

theorem veil_of_bare {quote : Quote} {c : Char} (h : quote.literal c = false)
    (cs : List Char) : quote.veil (c :: cs) = some c :: outside.veil cs := by
  simp [veil, h, (next_eq_outside_of_not_literal h).2]

@[simp] theorem length_veil (quote : Quote) (cs : List Char) :
    (quote.veil cs).length = cs.length := by
  induction cs generalizing quote with
  | nil => rfl
  | cons c cs ih => simp [veil, ih]

theorem veil_eq_nil_iff {quote : Quote} {text : List Char} :
    quote.veil text = [] ↔ text = [] := by
  rw [← List.length_eq_zero_iff, length_veil, List.length_eq_zero_iff]

theorem length_eq_of_veil_eq {quote other : Quote} {first second : List Char}
    (h : quote.veil first = other.veil second) : first.length = second.length := by
  simpa using congrArg List.length h

theorem veil_append (quote : Quote) (front back : List Char) :
    quote.veil (front ++ back) = quote.veil front ++ (quote.after front).veil back := by
  induction front generalizing quote with
  | nil => rfl
  | cons c cs ih => simp [veil, ih]

/-- A test of the bare scalars is a test of what is in sight. -/
theorem bareAll_eq_all_veil (test : Char → Bool) (quote : Quote) (cs : List Char) :
    quote.bareAll test cs = (quote.veil cs).all (·.all test) := by
  induction cs generalizing quote with
  | nil => rfl
  | cons c cs ih =>
      cases hliteral : quote.literal c <;> simp [bareAll, veil, hliteral, ih]

theorem literal_eq_of_veil_cons {quote other : Quote} {c d : Char} {cs ds : List Char}
    (h : quote.veil (c :: cs) = other.veil (d :: ds)) :
    quote.literal c = other.literal d ∧ (quote.literal c = false → c = d) ∧
      (quote.next c).veil cs = (other.next d).veil ds := by
  simp only [veil, List.cons.injEq] at h
  obtain ⟨hhere, hlater⟩ := h
  cases hfirst : quote.literal c <;> cases hsecond : other.literal d <;> simp_all

/-- A text whose veil is in two parts is in two parts. -/
theorem exists_split_of_veil {quote : Quote} {text : List Char}
    {front back : List (Option Char)} (h : quote.veil text = front ++ back) :
    ∃ cs ds, text = cs ++ ds ∧ quote.veil cs = front ∧ (quote.after cs).veil ds = back := by
  induction front generalizing quote text with
  | nil => exact ⟨[], text, rfl, rfl, h⟩
  | cons shown front ih =>
      cases text with
      | nil => simp at h
      | cons c rest =>
          simp only [veil, List.cons_append, List.cons.injEq] at h
          obtain ⟨cs, ds, rfl, hfront, hback⟩ := ih h.2
          exact ⟨c :: cs, ds, rfl, by simp [veil, h.1, hfront], hback⟩

/-- A scalar in sight stands in the text, outside quotes. -/
theorem exists_cons_of_veil {quote : Quote} {text : List Char} {c : Char}
    {back : List (Option Char)} (h : quote.veil text = some c :: back) :
    ∃ cs, text = c :: cs ∧ quote = outside ∧ outside.veil cs = back := by
  cases text with
  | nil => simp at h
  | cons d ds =>
      cases hliteral : quote.literal d with
      | true => simp [veil_of_literal hliteral] at h
      | false =>
          rw [veil_of_bare hliteral, List.cons.injEq, Option.some.injEq] at h
          obtain ⟨rfl, hback⟩ := h
          exact ⟨ds, rfl, (next_eq_outside_of_not_literal hliteral).1, hback⟩

/-- Two texts that differ in literal scalars only: they have as many scalars, the same
ones are literal, and all others are the same. -/
structure SameBare (first second : List Char) : Prop where
  length_eq : first.length = second.length
  mask_eq : outside.mask first = outside.mask second
  bare_eq : ∀ index < first.length, (outside.mask first)[index]? = some false →
    first[index]? = second[index]?

theorem SameBare.symm {first second : List Char} (h : SameBare first second) :
    SameBare second first where
  length_eq := h.length_eq.symm
  mask_eq := h.mask_eq.symm
  bare_eq index hindex hbare :=
    (h.bare_eq index (h.length_eq ▸ hindex) (h.mask_eq ▸ hbare)).symm

theorem veil_eq_of_mask_eq {quote other : Quote} {first second : List Char}
    (hmask : quote.mask first = other.mask second)
    (hbare : ∀ index < first.length, (quote.mask first)[index]? = some false →
      first[index]? = second[index]?) :
    quote.veil first = other.veil second := by
  induction first generalizing quote other second with
  | nil =>
      cases second with
      | nil => rfl
      | cons d ds => simp [mask] at hmask
  | cons c cs ih =>
      cases second with
      | nil => simp [mask] at hmask
      | cons d ds =>
          simp only [mask, List.cons.injEq] at hmask
          have hlater := ih hmask.2 fun index hindex hliteral => by
            simpa using hbare (index + 1) (by simpa using hindex) (by simpa [mask] using hliteral)
          have hhere : quote.literal c = false → c = d := by
            intro hliteral
            simpa using hbare 0 (by simp) (by simp [mask, hliteral])
          cases hliteral : quote.literal c with
          | true => simp [veil, ← hmask.1, hliteral, hlater]
          | false =>
              obtain rfl := hhere hliteral
              simp [veil, ← hmask.1, hliteral, hlater]

theorem SameBare.veil_eq {first second : List Char} (h : SameBare first second) :
    outside.veil first = outside.veil second :=
  veil_eq_of_mask_eq h.mask_eq h.bare_eq

/-! ### Literal tails -/

/-- Whether nothing of a text is in sight, from where a scan stands. -/
def hides (quote : Quote) (text : List Char) : Bool :=
  quote.bareAll (fun _ => false) text

theorem hides_append (quote : Quote) (front back : List Char) :
    quote.hides (front ++ back) = (quote.hides front && (quote.after front).hides back) :=
  bareAll_append quote front back

theorem hides_singleton (quote : Quote) (c : Char) : quote.hides [c] = quote.literal c := by
  simp [hides, bareAll]

/-- A literal scalar joins the literal ones that a text ends with. -/
theorem hides_concat {front tail : List Char} {c : Char} (hfront : outside.after front = .outside)
    (htail : outside.hides tail) (hc : (outside.after (front ++ tail)).literal c = true) :
    outside.hides (tail ++ [c]) := by
  rw [after_append, hfront] at hc
  simp [hides_append, htail, hides_singleton, hc]

theorem bareAll_of_hides {quote : Quote} {text : List Char} (h : quote.hides text)
    (test : Char → Bool) : quote.bareAll test text := by
  induction text generalizing quote with
  | nil => rfl
  | cons c cs ih =>
      simp only [hides, bareAll, Bool.or_false, Bool.and_eq_true] at h
      simp [bareAll, h.1, ih h.2]

theorem hides_cons_outside {c : Char} {cs : List Char} (h : outside.hides (c :: cs)) :
    isQuoteMark c := by
  simp only [hides, bareAll, Bool.or_false, Bool.and_eq_true] at h
  exact h.1

/-- Two texts that look the same, except that the first may end with more literal
scalars than the second or the other way round. -/
def Alike (first second : List Char) : Prop :=
  ∃ cs tail ds rest, first = cs ++ tail ∧ second = ds ++ rest ∧
    outside.veil cs = outside.veil ds ∧ (outside.after cs).hides tail ∧
      (outside.after ds).hides rest ∧ (tail = [] ↔ rest = [])

theorem alike_of_veil_eq {first second : List Char}
    (h : outside.veil first = outside.veil second) : Alike first second :=
  ⟨first, [], second, [], by simp, by simp, h, rfl, rfl, Iff.rfl⟩

end Quote

open Quote

/-! ### Trimming -/

theorem veil_trimStart {first second : List Char}
    (h : outside.veil first = outside.veil second) :
    outside.veil (trimStart first) = outside.veil (trimStart second) := by
  induction first generalizing second with
  | nil =>
      rw [veil_eq_nil_iff.mp h.symm]
  | cons c cs ih =>
      cases second with
      | nil => simp [veil] at h
      | cons d ds =>
          obtain ⟨hliteral, hsame, hrest⟩ := literal_eq_of_veil_cons h
          cases hc : outside.literal c with
          | true =>
              have hd : outside.literal d = true := by rw [← hliteral, hc]
              rw [trimStart_of_not_blank (not_isBlank_of_isQuoteMark hc),
                trimStart_of_not_blank (not_isBlank_of_isQuoteMark hd), h]
          | false =>
              obtain rfl := hsame hc
              rw [(next_eq_outside_of_not_literal hc).2] at hrest
              cases hblank : isBlank c with
              | true => rw [trimStart_of_blank hblank, trimStart_of_blank hblank, ih hrest]
              | false => rw [trimStart_of_not_blank hblank, trimStart_of_not_blank hblank, h]

/-- Texts that look the same end alike. -/
theorem exists_concat_of_veil {cs second : List Char} {c : Char}
    (h : outside.veil (cs ++ [c]) = outside.veil second) :
    ∃ ds d, second = ds ++ [d] ∧ outside.veil cs = outside.veil ds ∧
      (outside.after cs).literal c = (outside.after ds).literal d ∧
      ((outside.after cs).literal c = false → c = d) := by
  rw [veil_append] at h
  obtain ⟨ds, last, rfl, hfront, hlast⟩ := exists_split_of_veil h.symm
  obtain ⟨d, rfl⟩ : ∃ d, last = [d] := by
    apply List.length_eq_one_iff.mp
    simpa using congrArg List.length hlast
  obtain ⟨hliteral, hsame, -⟩ := literal_eq_of_veil_cons hlast.symm
  exact ⟨ds, d, rfl, hfront.symm, hliteral, hsame⟩

/-- Two texts that look the same up to a place where both stand outside quotes, with
literal scalars only behind it. -/
theorem exists_literal_tail {first second : List Char}
    (h : outside.veil first = outside.veil second) :
    ∃ cs tail ds rest, first = cs ++ tail ∧ second = ds ++ rest ∧
      outside.veil cs = outside.veil ds ∧ outside.after cs = .outside ∧
        outside.after ds = .outside ∧ outside.hides tail ∧ outside.hides rest := by
  induction first using List.reverseRecOn generalizing second with
  | nil =>
      exact ⟨[], [], [], [], rfl, veil_eq_nil_iff.mp h.symm, rfl, rfl, rfl, rfl, rfl⟩
  | append_singleton cs c ih =>
      obtain ⟨ds, d, rfl, hfront, hliteral, hsame⟩ := exists_concat_of_veil h
      cases hc : (outside.after cs).literal c with
      | false =>
          obtain rfl := hsame hc
          have hcs := (next_eq_outside_of_not_literal hc).2
          have hds := (next_eq_outside_of_not_literal (hliteral ▸ hc)).2
          exact ⟨cs ++ [c], [], ds ++ [c], [], by simp, by simp, h,
            by simp [after_append, hcs], by simp [after_append, hds], rfl, rfl⟩
      | true =>
          obtain ⟨early, tail, front, rest, rfl, rfl, hveil, hearly, hother, htail, hrest⟩ :=
            ih hfront
          exact ⟨early, tail ++ [c], front, rest ++ [d], by simp, by simp, hveil, hearly, hother,
            hides_concat hearly htail hc, hides_concat hother hrest (hliteral ▸ hc)⟩

theorem hides_trimEnd {quote : Quote} {text : List Char} (h : quote.hides text) :
    quote.hides (trimEnd text) := by
  obtain ⟨back, hback⟩ : trimEnd text <+: text := List.rdropWhile_prefix isBlank text
  rw [← hback, hides_append, Bool.and_eq_true] at h
  exact h.1

/-- Literal scalars begin with a mark outside quotes, so some of them stay. -/
theorem trimEnd_append_of_hides {tail : List Char} (h : outside.hides tail) (hne : tail ≠ [])
    (front : List Char) :
    trimEnd (front ++ tail) = front ++ trimEnd tail ∧ trimEnd tail ≠ [] := by
  cases tail with
  | nil => contradiction
  | cons mark back =>
      have hstop := not_isBlank_of_isQuoteMark (hides_cons_outside h)
      have htail : trimEnd (mark :: back) = mark :: trimEnd back :=
        trimEnd_append_cons hstop [] back
      rw [trimEnd_append_cons hstop, htail]
      simp

theorem alike_trimEnd {first second : List Char}
    (h : outside.veil first = outside.veil second) :
    Alike (trimEnd first) (trimEnd second) := by
  induction first using List.reverseRecOn generalizing second with
  | nil =>
      rw [veil_eq_nil_iff.mp h.symm]
      exact alike_of_veil_eq rfl
  | append_singleton cs c ih =>
      obtain ⟨ds, d, rfl, hfront, hliteral, hsame⟩ := exists_concat_of_veil h
      cases hc : (outside.after cs).literal c with
      | false =>
          obtain rfl := hsame hc
          cases hblank : isBlank c with
          | true =>
              have hlast : ∀ e ∈ [c], isBlank e := by simpa using hblank
              rw [trimEnd_append hlast, trimEnd_append hlast]
              exact ih hfront
          | false =>
              have hkept : ∀ front, trimEnd (front ++ [c]) = front ++ [c] := fun front =>
                trimEnd_append_cons hblank front []
              rw [hkept, hkept]
              exact alike_of_veil_eq h
      | true =>
          -- the cut stays behind the place where both texts last stand outside quotes
          obtain ⟨early, tail, front, rest, rfl, rfl, hveil, hearly, hother, htail, hrest⟩ :=
            exists_literal_tail hfront
          have htail' := hides_concat hearly htail hc
          have hrest' := hides_concat hother hrest (hliteral ▸ hc)
          obtain ⟨hfirst, hfirstNe⟩ := trimEnd_append_of_hides htail' (by simp) early
          obtain ⟨hsecond, hsecondNe⟩ := trimEnd_append_of_hides hrest' (by simp) front
          refine ⟨early, _, front, _, by rw [List.append_assoc, hfirst],
            by rw [List.append_assoc, hsecond], hveil, ?_, ?_, iff_of_false hfirstNe hsecondNe⟩
          · rw [hearly]
            exact hides_trimEnd htail'
          · rw [hother]
            exact hides_trimEnd hrest'

/-- What trimming leaves of two texts that look the same. -/
theorem alike_trim {first second : List Char}
    (h : outside.veil first = outside.veil second) : Alike (trim first) (trim second) :=
  alike_trimEnd (veil_trimStart h)

end Espalier.Text
