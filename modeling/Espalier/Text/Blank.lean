/-
White space and trimming.  A character is blank when it has the Unicode
`White_Space` property; trimming drops the blank characters at both ends of a
text and never one that stands between two others.
-/

namespace Espalier.Text

/-- The Unicode `White_Space` property: the ASCII controls U+0009 to U+000D,
the space, and the seventeen blank characters beyond ASCII.  The zero-width
space U+200B and the byte order mark U+FEFF do not have it. -/
def isBlank (c : Char) : Bool :=
  let code := c.toNat
  (0x09 ≤ code && code ≤ 0x0D) || code == 0x20 || code == 0x85 || code == 0xA0
    || code == 0x1680 || (0x2000 ≤ code && code ≤ 0x200A) || code == 0x2028
    || code == 0x2029 || code == 0x202F || code == 0x205F || code == 0x3000

/-- Drop the blank characters at the front. -/
def trimStart (cs : List Char) : List Char :=
  cs.dropWhile isBlank

/-- Drop the blank characters at the back. -/
def trimEnd (cs : List Char) : List Char :=
  (cs.reverse.dropWhile isBlank).reverse

/-- Drop the blank characters at both ends. -/
def trim (cs : List Char) : List Char :=
  trimEnd (trimStart cs)

/-- `trim` on a string. -/
def trimmed (text : String) : String :=
  String.ofList (trim text.toList)

@[simp] theorem toList_trimmed (text : String) :
    (trimmed text).toList = trim text.toList := by
  simp [trimmed]

theorem trimStart_of_not_blank {c : Char} (h : isBlank c = false) (cs : List Char) :
    trimStart (c :: cs) = c :: cs := by
  simp [trimStart, h]

theorem trimStart_of_blank {c : Char} (h : isBlank c) (cs : List Char) :
    trimStart (c :: cs) = trimStart cs := by
  simp [trimStart, h]

/-- A blank block in front does not change what trimming the front leaves. -/
theorem trimStart_append {front : List Char} (hfront : ∀ c ∈ front, isBlank c)
    (cs : List Char) : trimStart (front ++ cs) = trimStart cs := by
  induction front with
  | nil => rfl
  | cons c rest ih =>
      have hc : isBlank c := hfront c List.mem_cons_self
      simp only [trimStart, List.cons_append, List.dropWhile_cons, hc, if_true]
      exact ih fun d hd => hfront d (List.mem_cons_of_mem c hd)

/-- A blank block at the back does not change what trimming the back leaves. -/
theorem trimEnd_append {back : List Char} (hback : ∀ c ∈ back, isBlank c)
    (cs : List Char) : trimEnd (cs ++ back) = trimEnd cs := by
  have hrev : ∀ c ∈ back.reverse, isBlank c := fun c hc =>
    hback c (List.mem_reverse.1 hc)
  have h := trimStart_append hrev cs.reverse
  simp only [trimStart] at h
  simp only [trimEnd, List.reverse_append, h]

/-- Trimming the back stops at a character that is not blank. -/
theorem trimEnd_append_cons {c : Char} (hc : isBlank c = false) (front back : List Char) :
    trimEnd (front ++ c :: back) = front ++ c :: trimEnd back := by
  have hstop : ((c :: front.reverse).dropWhile isBlank) = c :: front.reverse := by
    simp [hc]
  have hreverse : (front ++ c :: back).reverse = back.reverse ++ c :: front.reverse := by
    simp
  rw [trimEnd, hreverse, List.dropWhile_append, hstop]
  by_cases hempty : back.reverse.dropWhile isBlank = []
  · simp [trimEnd, hempty]
  · simp [trimEnd, hempty]

/-- A blank block at the back does not change what trimming leaves. -/
theorem trim_append {back : List Char} (hback : ∀ c ∈ back, isBlank c)
    (cs : List Char) : trim (cs ++ back) = trim cs := by
  rw [trim, trim, trimStart, List.dropWhile_append]
  split
  · next hempty =>
      have hnil : cs.dropWhile isBlank = [] := List.isEmpty_iff.mp hempty
      have hall : back.dropWhile isBlank = [] := by
        simpa [trimStart] using trimStart_append hback []
      rw [trimStart, hall, hnil]
  · rw [trimEnd_append hback, trimStart]

/-- Trimming takes a blank block off either end. -/
theorem exists_eq_append_trim (cs : List Char) :
    ∃ lead trail, cs = lead ++ (trim cs ++ trail) ∧ (∀ c ∈ lead, isBlank c) ∧
      ∀ c ∈ trail, isBlank c := by
  refine ⟨cs.takeWhile isBlank, ((trimStart cs).reverse.takeWhile isBlank).reverse, ?_, ?_, ?_⟩
  · rw [trim, trimEnd, ← List.reverse_append, List.takeWhile_append_dropWhile,
      List.reverse_reverse, trimStart, List.takeWhile_append_dropWhile]
  · exact fun c hc => List.all_eq_true.mp List.all_takeWhile c hc
  · exact fun c hc => List.all_eq_true.mp List.all_takeWhile c (List.mem_reverse.mp hc)

/-- A text that begins and ends with characters that are not blank is trimmed
already. -/
theorem trim_eq_self {cs : List Char} (hhead : ∀ c ∈ cs.head?, isBlank c = false)
    (hlast : ∀ c ∈ cs.getLast?, isBlank c = false) : trim cs = cs := by
  have hstart : trimStart cs = cs := by
    cases cs with
    | nil => rfl
    | cons c rest =>
        exact trimStart_of_not_blank (hhead c rfl) rest
  have hend : trimEnd cs = cs := by
    rw [← List.head?_reverse] at hlast
    cases hrev : cs.reverse with
    | nil => simp_all [trimEnd]
    | cons c rest =>
        have hc : isBlank c = false := hlast c (by simp [hrev])
        have hcs : cs = rest.reverse ++ [c] := by
          simpa using congrArg List.reverse hrev
        rw [hcs]
        exact trimEnd_append_cons hc rest.reverse []
  rw [trim, hstart, hend]

/-- What stays of a text without the blank characters at its ends. -/
structure TrimsTo (whole text : List Char) : Prop where
  exists_ends : ∃ lead trail, whole = lead ++ (text ++ trail) ∧ (∀ c ∈ lead, isBlank c) ∧
    ∀ c ∈ trail, isBlank c
  head_shown : ∀ c ∈ text.head?, isBlank c = false
  last_shown : ∀ c ∈ text.getLast?, isBlank c = false

theorem trimsTo_trim (cs : List Char) : TrimsTo cs (trim cs) := by
  refine ⟨exists_eq_append_trim cs, ?_, ?_⟩
  · intro c hc
    have hstop := List.head?_dropWhile_not isBlank cs
    cases hstart : trimStart cs with
    | nil => simp [trim, hstart, trimEnd] at hc
    | cons first rest =>
        rw [← trimStart, hstart] at hstop
        have hfirst : isBlank first = false := hstop
        have htrim : trim cs = first :: trimEnd rest := by
          rw [trim, hstart]
          exact trimEnd_append_cons hfirst [] rest
        rw [htrim] at hc
        obtain rfl : first = c := by simpa using hc
        exact hfirst
  · intro c hc
    have hstop := List.head?_dropWhile_not isBlank (trimStart cs).reverse
    rw [trim, trimEnd, List.getLast?_reverse] at hc
    rw [Option.mem_def.mp hc] at hstop
    exact hstop

/-- Trimming is the only way to take the blank characters off both ends. -/
theorem trimsTo_iff {whole text : List Char} : TrimsTo whole text ↔ text = trim whole := by
  constructor
  · rintro ⟨⟨lead, trail, rfl, hlead, htrail⟩, hhead, hlast⟩
    calc
      text = trim text := (trim_eq_self hhead hlast).symm
      _ = trim (text ++ trail) := (trim_append htrail text).symm
      _ = trim (lead ++ (text ++ trail)) := by rw [trim, trim, trimStart_append hlead]
  · rintro rfl
    exact trimsTo_trim whole

/-- Trimming leaves nothing to trim. -/
theorem trim_trim (cs : List Char) : trim (trim cs) = trim cs :=
  trim_eq_self (trimsTo_trim cs).head_shown (trimsTo_trim cs).last_shown

/-- Trimming brings in no character. -/
theorem mem_of_mem_trim {cs : List Char} {c : Char} (h : c ∈ trim cs) : c ∈ cs := by
  obtain ⟨lead, trail, hcs, -, -⟩ := exists_eq_append_trim cs
  rw [hcs]
  exact List.mem_append_right lead (List.mem_append_left trail h)

end Espalier.Text
