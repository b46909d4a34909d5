/-
Bare characters.  A character of a text is bare when no quotes make it literal.
A scan reacts to bare characters only, so what it does along a text follows from
a test of the bare ones.
-/
import Espalier.Text.Blank
import Espalier.Text.Bytes
import Espalier.Text.Quoted

namespace Espalier.Text

/-- A blank character is no quote mark. -/
theorem not_isQuoteMark_of_isBlank {c : Char} (h : isBlank c) : isQuoteMark c = false := by
  by_cases hmark : isQuoteMark c = true
  · rcases isQuoteMark_iff.mp hmark with rfl | rfl <;> contradiction
  · exact (Bool.not_eq_true _).mp hmark

theorem not_isBlank_of_isQuoteMark {c : Char} (h : isQuoteMark c) : isBlank c = false := by
  cases hblank : isBlank c with
  | false => rfl
  | true => simp [not_isQuoteMark_of_isBlank hblank] at h

namespace Quote

/-- Whether every bare character of a text passes a test, from where a scan
stands. -/
def bareAll (test : Char → Bool) : Quote → List Char → Bool
  | _, [] => true
  | quote, c :: cs => (quote.literal c || test c) && bareAll test (quote.next c) cs

variable {test : Char → Bool}

theorem bareAll_append (quote : Quote) (front back : List Char) :
    bareAll test quote (front ++ back) =
      (bareAll test quote front && bareAll test (quote.after front) back) := by
  induction front generalizing quote with
  | nil => simp [bareAll]
  | cons c cs ih => simp [bareAll, ih, Bool.and_assoc]

theorem bareAll_of_forall {cs : List Char} (h : ∀ c ∈ cs, test c) (quote : Quote) :
    bareAll test quote cs := by
  induction cs generalizing quote with
  | nil => rfl
  | cons c cs ih =>
      have hc : test c := h c List.mem_cons_self
      have hrest := ih (fun d hd => h d (List.mem_cons_of_mem c hd)) (quote.next c)
      simp [bareAll, hc, hrest]

/-- A text whose bare characters do not all pass the test has a first one that
fails.  It stands outside quotes. -/
theorem exists_first_of_bareAll_eq_false {quote : Quote} {text : List Char}
    (h : bareAll test quote text = false) :
    ∃ front c back, text = front ++ c :: back ∧ bareAll test quote front ∧
      quote.after front = .outside ∧ test c = false := by
  induction text generalizing quote with
  | nil => simp [bareAll] at h
  | cons c cs ih =>
      by_cases hpass : (quote.literal c || test c) = true
      · simp only [bareAll, hpass, Bool.true_and] at h
        obtain ⟨front, d, back, rfl, hfront, hafter, hd⟩ := ih h
        exact ⟨c :: front, d, back, rfl, by simp [bareAll, hpass, hfront], hafter, hd⟩
      · rw [Bool.not_eq_true, Bool.or_eq_false_iff] at hpass
        exact ⟨[], c, cs, rfl, rfl, (next_eq_outside_of_not_literal hpass.1).1, hpass.2⟩

theorem after_of_no_marks {cs : List Char} (h : ∀ c ∈ cs, isQuoteMark c = false) :
    outside.after cs = outside := by
  induction cs with
  | nil => rfl
  | cons c cs ih =>
      have hc : outside.next c = outside := by
        simp [next, h c List.mem_cons_self]
      rw [after_cons, hc]
      exact ih fun d hd => h d (List.mem_cons_of_mem c hd)

theorem after_inside {mark : Char} {cs : List Char} (h : mark ∉ cs) :
    (inside mark).after cs = inside mark := by
  induction cs with
  | nil => rfl
  | cons c cs ih =>
      have hc : c ≠ mark := fun heq => h (heq ▸ List.mem_cons_self)
      rw [after_cons, next, if_neg hc]
      exact ih fun hmem => h (List.mem_cons_of_mem c hmem)

theorem bareAll_inside {mark : Char} {cs : List Char} (h : mark ∉ cs) :
    bareAll test (inside mark) cs := by
  induction cs with
  | nil => rfl
  | cons c cs ih =>
      have hc : c ≠ mark := fun heq => h (heq ▸ List.mem_cons_self)
      have hrest := ih fun hmem => h (List.mem_cons_of_mem c hmem)
      simpa [bareAll, literal, next, hc] using hrest

end Quote

/-- A text between two quote marks. -/
def wrapped (mark : Char) (text : List Char) : List Char :=
  mark :: (text ++ [mark])

section Wrapped

variable {test : Char → Bool} {mark : Char} {text : List Char} (hmark : isQuoteMark mark)
include hmark

theorem after_wrapped (h : mark ∉ text) :
    Quote.outside.after (wrapped mark text) = .outside := by
  have hopen : Quote.outside.next mark = .inside mark := by simp [Quote.next, hmark]
  rw [wrapped, Quote.after_cons, hopen, Quote.after_append, Quote.after_inside h]
  simp [Quote.next]

theorem bareAll_wrapped (h : mark ∉ text) :
    Quote.outside.bareAll test (wrapped mark text) := by
  have hopen : Quote.outside.next mark = .inside mark := by simp [Quote.next, hmark]
  have hinside : (Quote.inside mark).bareAll test text := Quote.bareAll_inside h
  simp [wrapped, Quote.bareAll, hmark, hopen, Quote.bareAll_append, hinside,
    Quote.after_inside h, Quote.literal]

/-- No blank of a text between quote marks is at its ends. -/
theorem trim_wrapped (text : List Char) : trim (wrapped mark text) = wrapped mark text := by
  have hblank := not_isBlank_of_isQuoteMark hmark
  apply trim_eq_self
  · intro c hc
    obtain rfl : mark = c := by simpa [wrapped] using hc
    exact hblank
  · intro c hc
    rw [wrapped, ← List.cons_append, List.getLast?_concat] at hc
    obtain rfl : mark = c := by simpa using hc
    exact hblank

theorem unquote_trim_wrapped (text : List Char) : unquote (trim (wrapped mark text)) = text := by
  rw [trim_wrapped hmark, wrapped, unquote_quoted hmark]

end Wrapped

/-- A text between two single quote marks. -/
def quoted (text : List Char) : List Char :=
  '\'' :: (text ++ ['\''])

section Quoted

variable {test : Char → Bool} {text : List Char}

theorem after_quoted (h : '\'' ∉ text) : Quote.outside.after (quoted text) = .outside :=
  after_wrapped rfl h

theorem bareAll_quoted (h : '\'' ∉ text) : Quote.outside.bareAll test (quoted text) :=
  bareAll_wrapped rfl h

end Quoted

/-! ### Where a character stands bare -/

/-- Two places of a text are the same, or one of them comes first. -/
theorem append_cons_eq_append_cons {α : Type} {front back front' back' : List α} {a b : α}
    (h : front ++ a :: back = front' ++ b :: back') :
    front = front' ∨ (∃ between, front' = front ++ a :: between ∧ back = between ++ b :: back') ∨
      ∃ between, front = front' ++ b :: between ∧ back' = between ++ a :: back := by
  rcases List.append_eq_append_iff.mp h with ⟨between, hfront, hback⟩ | ⟨between, hfront, hback⟩
  · cases between with
    | nil => exact Or.inl (by simpa using hfront.symm)
    | cons c cs =>
        obtain ⟨rfl, hrest⟩ := List.cons.inj hback
        exact Or.inr (Or.inl ⟨cs, hfront, hrest⟩)
  · cases between with
    | nil => exact Or.inl (by simpa using hfront)
    | cons c cs =>
        obtain ⟨rfl, hrest⟩ := List.cons.inj hback
        exact Or.inr (Or.inr ⟨cs, hfront, hrest⟩)

/-- A character stands bare at a byte position of a text. -/
def BareAt (text : List Char) (c : Char) (position : Nat) : Prop :=
  ∃ front back, text = front ++ c :: back ∧ position = byteLength front ∧
    (Quote.outside.after front).literal c = false

namespace Quote

/-- How often a character stands bare in a text, from where a scan stands. -/
def bareCount (c : Char) (quote : Quote) (text : List Char) : Nat :=
  ((quote.mask text).zip text).count (false, c)

@[simp] theorem bareCount_nil (c : Char) (quote : Quote) : quote.bareCount c [] = 0 := rfl

theorem bareCount_cons (c : Char) (quote : Quote) (d : Char) (ds : List Char) :
    quote.bareCount c (d :: ds) =
      (if quote.literal d = false ∧ d = c then 1 else 0) +
        (quote.next d).bareCount c ds := by
  simp [bareCount, mask, List.count_cons, Nat.add_comm]

theorem bareCount_append (c : Char) (quote : Quote) (front back : List Char) :
    quote.bareCount c (front ++ back) =
      quote.bareCount c front + (quote.after front).bareCount c back := by
  induction front generalizing quote with
  | nil => simp
  | cons d ds ih => simp [bareCount_cons, ih, Nat.add_assoc]

/-- The byte positions at which a character stands bare, when the text starts at a
position. -/
def barePositions (c : Char) : Quote → Nat → List Char → List Nat
  | _, _, [] => []
  | quote, position, d :: ds =>
      (if quote.literal d = false ∧ d = c then [position] else []) ++
        barePositions c (quote.next d) (position + d.utf8Size) ds

theorem barePositions_append (c : Char) (quote : Quote) (position : Nat)
    (front back : List Char) :
    quote.barePositions c position (front ++ back) =
      quote.barePositions c position front ++
        (quote.after front).barePositions c (position + byteLength front) back := by
  induction front generalizing quote position with
  | nil => simp [barePositions]
  | cons d ds ih => simp [barePositions, ih, Nat.add_assoc]

theorem mem_barePositions_iff {c : Char} {quote : Quote} {start position : Nat}
    {text : List Char} :
    position ∈ quote.barePositions c start text ↔
      ∃ front back, text = front ++ c :: back ∧ position = start + byteLength front ∧
        (quote.after front).literal c = false := by
  constructor
  · intro h
    induction text generalizing quote start with
    | nil => simp [barePositions] at h
    | cons d ds ih =>
        rcases List.mem_append.mp h with hhere | hlater
        · split at hhere
          · next hbare =>
              obtain rfl := List.mem_singleton.mp hhere
              obtain ⟨hliteral, rfl⟩ := hbare
              exact ⟨[], ds, rfl, rfl, hliteral⟩
          · simp at hhere
        · obtain ⟨front, back, rfl, rfl, hbare⟩ := ih hlater
          exact ⟨d :: front, back, rfl, by simp [Nat.add_assoc], hbare⟩
  · rintro ⟨front, back, rfl, rfl, hbare⟩
    simp [barePositions_append, barePositions, hbare]

theorem pairwise_barePositions (c : Char) (quote : Quote) (start : Nat)
    (text : List Char) : (quote.barePositions c start text).Pairwise (· < ·) := by
  induction text generalizing quote start with
  | nil => exact List.Pairwise.nil
  | cons d ds ih =>
      have hlater : ∀ position ∈ (quote.next d).barePositions c (start + d.utf8Size) ds,
          start < position := by
        intro position hmem
        obtain ⟨front, back, -, rfl, -⟩ := mem_barePositions_iff.mp hmem
        have hpos := d.utf8Size_pos
        omega
      by_cases hbare : quote.literal d = false ∧ d = c
      · simp only [barePositions, if_pos hbare]
        exact List.Pairwise.cons hlater (ih _ _)
      · simp only [barePositions, if_neg hbare]
        exact ih _ _

end Quote

theorem mem_barePositions_outside_iff {c : Char} {p : Nat} {text : List Char} :
    p ∈ Quote.outside.barePositions c 0 text ↔ BareAt text c p := by
  simp [Quote.mem_barePositions_iff, BareAt]

theorem isEmpty_toList (text : String) : text.toList.isEmpty = text.isEmpty := by
  rw [Bool.eq_iff_iff]
  simp [String.isEmpty_iff]

theorem append_ofList_cons (text : String) (c : Char) (cs : List Char) :
    text ++ String.ofList (c :: cs) = text.push c ++ String.ofList cs := by
  rw [← String.toList_inj]
  simp

end Espalier.Text
