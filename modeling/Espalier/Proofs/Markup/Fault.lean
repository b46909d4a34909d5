/-
Which brace a fault points at, said without a stack.  A `}` is one too many when the bare
braces in front of it are as many closing as opening ones; the first such brace is
reported.  Where there is none, some `{` is never closed, and the last one that is not
is reported: behind it no stretch closes more than it opens.
-/
import Mathlib.Order.Bounds.Basic
import Espalier.Proofs.Markup.Balance

namespace Espalier.Markup

open Espalier.Text Espalier.Program

/-- A bare `}` with as many bare `{` as bare `}` in front of it. -/
def UnopenedAt (text : List Char) (position : Nat) : Prop :=
  ∃ front back, text = front ++ '}' :: back ∧ position = byteLength front ∧
    (Quote.outside.after front).literal '}' = false ∧
      Quote.outside.bareCount '{' front = Quote.outside.bareCount '}' front

/-- A bare `{` behind which no stretch has more bare `}` than bare `{`. -/
def UnclosedAt (text : List Char) (position : Nat) : Prop :=
  ∃ front back, text = front ++ '{' :: back ∧ position = byteLength front ∧
    (Quote.outside.after front).literal '{' = false ∧
      ∀ early, early <+: back →
        (Quote.outside.after (front ++ ['{'])).bareCount '}' early ≤
          (Quote.outside.after (front ++ ['{'])).bareCount '{' early

/-- The brace that is wrong in a text: the first `}` that is one too many, or else the last
`{` that is never closed. -/
inductive FaultAt (text : List Char) : BraceFault → Prop
  | unopened {position : Nat} (hleast : IsLeast {p | UnopenedAt text p} position) :
      FaultAt text (.unopened position)
  | unclosed {position : Nat} (hnone : ∀ p, ¬ UnopenedAt text p)
      (hgreatest : IsGreatest {p | UnclosedAt text p} position) :
      FaultAt text (.unclosed position)

variable {text : List Char} {position : Nat}

/-- A text has one fault at most. -/
theorem FaultAt.unique {fault other : BraceFault} (h : FaultAt text fault)
    (hother : FaultAt text other) : fault = other := by
  cases h with
  | unopened hleast =>
      cases hother with
      | unopened hleast' => rw [hleast.unique hleast']
      | unclosed hnone _ => exact absurd hleast.1 (hnone _)
  | unclosed hnone hgreatest =>
      cases hother with
      | unopened hleast => exact absurd hleast.1 (hnone _)
      | unclosed _ hgreatest' => rw [hgreatest.unique hgreatest']

/-! ### Balanced texts -/

theorem not_unopenedAt_of_front_le
    (h : ∀ front, front <+: text →
      Quote.outside.bareCount '}' front ≤ Quote.outside.bareCount '{' front) :
    ¬ UnopenedAt text position := by
  rintro ⟨front, back, rfl, -, hbare, hcount⟩
  have hfront : front ++ ['}'] <+: front ++ '}' :: back := ⟨back, by simp⟩
  have hle := h _ hfront
  simp [Quote.bareCount_append, Quote.bareCount_cons, hbare] at hle
  omega

/-- A brace that is never closed is missing in the total. -/
theorem Balanced.not_unclosedAt (h : Balanced .outside text) : ¬ UnclosedAt text position := by
  rintro ⟨front, back, rfl, -, hbare, hlater⟩
  have hfront : front <+: front ++ '{' :: back := List.prefix_append _ _
  have hle := h.front_le _ hfront
  have hback := hlater back (List.prefix_refl back)
  have htotal := h.total_eq
  rw [Quote.after_append, Quote.after_cons, Quote.after_nil] at hback
  simp [Quote.bareCount_append, Quote.bareCount_cons, hbare] at htotal
  omega

theorem Balanced.not_faultAt (h : Balanced .outside text) (fault : BraceFault) :
    ¬ FaultAt text fault := by
  rintro (hleast | ⟨-, hgreatest⟩)
  · exact not_unopenedAt_of_front_le h.front_le hleast.1
  · exact h.not_unclosedAt hgreatest.1

/-! ### The brace that is reported -/

/-- The `}` behind a structure is the first one that is too many. -/
theorem faultAt_unopened {blocks : Blocks} (h : blocks.Fits)
    (hclosed : Quote.outside.after blocks.text = .outside) (back : List Char) :
    FaultAt (blocks.text ++ '}' :: back) (.unopened (byteLength blocks.text)) := by
  have hbalanced := Blocks.balanced_text h
  have hbare : (Quote.outside.after blocks.text).literal '}' = false := by
    simp [hclosed, Quote.literal, isQuoteMark]
  refine .unopened ⟨⟨blocks.text, back, rfl, rfl, hbare, hbalanced.total_eq.symm⟩, ?_⟩
  rintro p ⟨front, rest, htext, rfl, hbare', hcount⟩
  rcases append_cons_eq_append_cons htext with heq | ⟨between, heq, -⟩ | ⟨between, heq, -⟩
  · rw [heq]
  · rw [heq, byteLength_append]
    exact Nat.le_add_right _ _
  · -- a place inside the structure, but there are none
    have hinside : UnopenedAt blocks.text (byteLength front) :=
      ⟨front, between, heq, rfl, hbare', hcount⟩
    exact absurd hinside (not_unopenedAt_of_front_le hbalanced.front_le)

/-- The `{` in front of a structure is the last one that is never closed. -/
theorem faultAt_unclosed {front : List Char} (hfront : BraceScan.Passes front) {blocks : Blocks}
    (h : blocks.Fits) : FaultAt (front ++ '{' :: blocks.text) (.unclosed (byteLength front)) := by
  have hbalanced := Blocks.balanced_text h
  obtain ⟨middle, hmiddle, hquote, -⟩ := hfront {} rfl
  have hclosed : Quote.outside.after front = .outside :=
    (BraceScan.quote_foldlM hmiddle).symm.trans hquote
  have hbehind : Quote.outside.after (front ++ ['{']) = .outside := by
    simp [Quote.after_append, hclosed]
  have hscan : ∃ after, (front ++ '{' :: blocks.text).foldlM BraceScan.feed {} = .ok after := by
    have hopened : (middle.enter.advance ['{']).quote = .outside := by
      simp [BraceScan.advance, BraceScan.enter, hquote]
    rw [List.foldlM_append, exceptBind_of_ok hmiddle, BraceScan.foldlM_feed_open hquote,
      BraceScan.foldlM_feed_text h hopened]
    exact ⟨_, rfl⟩
  have hnone : ∀ p, ¬ UnopenedAt (front ++ '{' :: blocks.text) p := fun p =>
    not_unopenedAt_of_front_le (by simpa using BraceScan.exists_foldlM_iff.mp hscan)
  have hbare : (Quote.outside.after front).literal '{' = false := by
    simp [hclosed, Quote.literal, isQuoteMark]
  refine .unclosed hnone ⟨⟨front, blocks.text, rfl, rfl, hbare, ?_⟩, ?_⟩
  · rw [hbehind]
    exact hbalanced.front_le
  · rintro p ⟨other, rest, htext, rfl, hbare', hlater⟩
    rcases append_cons_eq_append_cons htext with heq | ⟨between, heq, hinner⟩ | ⟨between, heq, -⟩
    · rw [heq]
    · -- a place inside the structure, but there are none
      have hinside : UnclosedAt blocks.text (byteLength between) := by
        refine ⟨between, rest, hinner, rfl, ?_, ?_⟩
        · simpa [heq, Quote.after_append, hclosed] using hbare'
        · simpa [heq, Quote.after_append, hclosed] using hlater
      exact absurd hinside hbalanced.not_unclosedAt
    · rw [heq, byteLength_append]
      exact Nat.le_add_right _ _

theorem ofText_eq_error_iff {fault : BraceFault} :
    Pairing.ofText text = .error fault ↔ FaultAt text fault := by
  rcases exists_blocks text with ⟨blocks, hfits, rfl⟩ |
      ⟨blocks, back, hfits, hclosed, rfl⟩ | ⟨front, blocks, hfront, hfits, rfl⟩
  · rw [Pairing.ofText_text hfits]
    exact iff_of_false nofun ((Blocks.balanced_text hfits).not_faultAt fault)
  · have hfault := faultAt_unopened hfits hclosed back
    rw [Pairing.ofText_unopened hfits hclosed]
    exact ⟨fun heq => Except.error.inj heq ▸ hfault, fun h => by rw [h.unique hfault]⟩
  · have hfault := faultAt_unclosed hfront hfits
    rw [Pairing.ofText_unclosed hfront hfits]
    exact ⟨fun heq => Except.error.inj heq ▸ hfault, fun h => by rw [h.unique hfault]⟩

/-- A brace fault of a parse is the one of the brace pass: what a sink refuses is another
kind of error. -/
theorem parse_eq_fault_iff {σ η : Type} (sink : Sink σ η) (settings : Settings) (parent : η)
    {text : String} {fault : BraceFault} {s s' : σ} :
    parse sink settings parent text s = .error (.braces fault) s' ↔
      Pairing.ofText text.toList = .error fault ∧ s' = s := by
  constructor
  · intro h
    cases hrun : Pairing.ofText text.toList with
    | error other =>
        rw [parse_of_fault sink settings parent hrun] at h
        obtain ⟨hfault, rfl⟩ := EStateM.Result.error.inj h
        exact ⟨by rw [ParseError.braces.inj hfault], rfl⟩
    | ok pairing =>
        simp only [parse, hrun] at h
        cases hgrow : growCuts sink settings text.toList
            (pairing.layout (byteLength text.toList)) [parent] s with
        | ok _ after =>
            rw [bind_of_ok (adaptExcept_of_ok hgrow _)] at h
            contradiction
        | error e after =>
            rw [bind_of_error (adaptExcept_of_error hgrow _)] at h
            exact absurd (EStateM.Result.error.inj h).1 ParseError.noConfusion
  · rintro ⟨hrun, rfl⟩
    exact parse_of_fault sink settings parent hrun s'

/-- A brace fault points at the right brace, whoever reports it: the brace pass, a check, or
a parse into any sink, which it leaves as it was. -/
theorem faults_point_at_brace (text : String) (fault : BraceFault) :
    (Pairing.ofText text.toList = .error fault ↔ FaultAt text.toList fault) ∧
    (check text = .error (.braces fault) ↔ FaultAt text.toList fault) ∧
    ∀ (σ η : Type) (sink : Sink σ η) (settings : Settings) (parent : η) (s s' : σ),
      parse sink settings parent text s = .error (.braces fault) s' ↔
        FaultAt text.toList fault ∧ s' = s := by
  refine ⟨ofText_eq_error_iff, ?_, ?_⟩
  · rw [← ofText_eq_error_iff, check]
    cases Pairing.ofText text.toList <;> simp [Except.mapError]
  · intro σ η sink settings parent s s'
    rw [parse_eq_fault_iff, ofText_eq_error_iff]

/-- A `}` too many behind a quoted brace and a block, with an open `{` after it; and two
braces that are never closed around one that is. -/
theorem faults_point_at_brace_nested :
    FaultAt "é'\x7b'a\x7bb\x7d\x7d\x7b".toList (.unopened 9) ∧
      check "é\x7b\x7b'\x7d'\x7b\x7d" = .error (.braces (.unclosed 3)) ∧
      FaultAt "é\x7b\x7b'\x7d'\x7b\x7d".toList (.unclosed 3) := by
  obtain ⟨hclose, -⟩ := faults_point_at_brace "é'\x7b'a\x7bb\x7d\x7d\x7b" (.unopened 9)
  obtain ⟨hopen, hcheck, -⟩ := faults_point_at_brace "é\x7b\x7b'\x7d'\x7b\x7d" (.unclosed 3)
  have hfault := hopen.mp rfl
  exact ⟨hclose.mp rfl, hcheck.mpr hfault, hfault⟩

end Espalier.Markup
