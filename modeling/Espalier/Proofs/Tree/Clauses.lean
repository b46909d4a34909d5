/-
Class lists and style lists, apart from how they are cut: which names stand between the dots
of the one, and which clauses between the semicolons of the other.  A style that is written
as a list reads back as long as its entries are ones that a list can give.
-/
import Mathlib.Data.List.Forall2
import Mathlib.Data.List.ReduceOption
import Espalier.Tree.Outline

namespace Espalier

open Espalier.Text

/-! ### Class lists -/

/-- The names of a class list: what stands between its dots, trimmed, where anything is
left. -/
def ListsClasses (text : String) (names : List String) : Prop :=
  ∃ tokens : List (List Char), text.toList = ['.'].intercalate tokens ∧
    (∀ token ∈ tokens, '.' ∉ token) ∧
    names = ((tokens.map trim).filter (· ≠ [])).map String.ofList

theorem listsClasses_iff {text : String} {names : List String} :
    ListsClasses text names ↔ names = classList text := by
  have hshown : ∀ tokens : List (List Char),
      tokens.filter (· ≠ []) = tokens.filter (!·.isEmpty) := by
    intro tokens
    apply List.filter_congr
    intro token _
    cases token with
    | nil => rfl
    | cons c token => rfl
  constructor
  · rintro ⟨tokens, htext, hfree, rfl⟩
    rw [hshown, classList, htext]
    by_cases hne : tokens = []
    · subst hne
      rfl
    · rw [pieces_intercalate hne hfree]
  · rintro rfl
    refine ⟨pieces '.' text.toList, (intercalate_pieces '.' _).symm, ?_, ?_⟩
    · exact fun _ htoken => not_mem_of_mem_pieces htoken
    · rw [hshown, classList]

/-! ### Style lists -/

/-- What one clause of a style list says: it is cut at its first colon and trimmed.  Without
a colon, or with nothing but white space in front of it, it says nothing. -/
inductive Says : List Char → Option (String × String) → Prop
  | entry {name value : List Char} (hname : ':' ∉ name) (hshown : trim name ≠ []) :
      Says (name ++ ':' :: value) (some (String.ofList (trim name), String.ofList (trim value)))
  | nameless {name value : List Char} (hname : ':' ∉ name) (hblank : trim name = []) :
      Says (name ++ ':' :: value) none
  | bare {clause : List Char} (hclause : ':' ∉ clause) : Says clause none

/-- The entries of a style list, in the order in which its clauses are written. -/
def ListsStyle (text : String) (entries : List (String × String)) : Prop :=
  ∃ (clauses : List (List Char)) (said : List (Option (String × String))),
    text.toList = [';'].intercalate clauses ∧ (∀ clause ∈ clauses, ';' ∉ clause) ∧
    List.Forall₂ Says clauses said ∧ entries = said.reduceOption

theorem says_iff {clause : List Char} {entry : Option (String × String)} :
    Says clause entry ↔ entry = styleEntry? clause := by
  constructor
  · intro h
    cases h with
    | entry hname hshown => simp [splitFirst_append_cons hname, hshown, styleEntry?]
    | nameless hname hblank => simp [splitFirst_append_cons hname, hblank, styleEntry?]
    | bare hclause => simp [splitFirst_eq_none_iff.mpr hclause, styleEntry?]
  · rintro rfl
    cases hcut : splitFirst ':' clause with
    | none =>
        simpa [hcut, styleEntry?] using Says.bare (splitFirst_eq_none_iff.mp hcut)
    | some halves =>
        obtain ⟨name, value⟩ := halves
        obtain ⟨rfl, hname⟩ := eq_of_splitFirst hcut
        by_cases hblank : trim name = []
        · simpa [hcut, hblank, styleEntry?] using @Says.nameless _ value hname hblank
        · simpa [hcut, hblank, styleEntry?] using @Says.entry _ value hname hblank

theorem listsStyle_iff {text : String} {entries : List (String × String)} :
    ListsStyle text entries ↔ entries = styleEntries text := by
  have hsaid : ∀ clauses said, List.Forall₂ Says clauses said →
      said = clauses.map styleEntry? := by
    intro clauses said h
    induction h with
    | nil => rfl
    | cons hclause _ ih => rw [List.map_cons, says_iff.mp hclause, ih]
  constructor
  · rintro ⟨clauses, said, htext, hfree, hsays, rfl⟩
    rw [hsaid clauses said hsays, styleEntries, htext]
    by_cases hne : clauses = []
    · subst hne
      rfl
    · rw [pieces_intercalate hne hfree, List.reduceOption, List.filterMap_map]
      rfl
  · rintro rfl
    refine ⟨pieces ';' text.toList, (pieces ';' text.toList).map styleEntry?,
      (intercalate_pieces ';' _).symm, ?_, ?_, ?_⟩
    · exact fun _ hclause => not_mem_of_mem_pieces hclause
    · rw [List.forall₂_map_right_iff, List.forall₂_same]
      exact fun clause _ => says_iff.mpr rfl
    · rw [List.reduceOption, List.filterMap_map]
      rfl

/-! ### Writing a style as a list -/

/-- An entry that a clause can say. -/
structure Sayable (entry : String × String) : Prop where
  name_ne : entry.1 ≠ ""
  name_trimmed : trimmed entry.1 = entry.1
  name_free : ':' ∉ entry.1.toList ∧ ';' ∉ entry.1.toList
  value_trimmed : trimmed entry.2 = entry.2
  value_free : ';' ∉ entry.2.toList

theorem Says.sayable {clause : List Char} {entry : String × String}
    (h : Says clause (some entry)) (hfree : ';' ∉ clause) : Sayable entry := by
  cases h with
  | @entry name value hname hshown =>
      rw [List.mem_append, List.mem_cons, not_or, not_or] at hfree
      obtain ⟨hfreeName, -, hfreeValue⟩ := hfree
      constructor
      · simpa using hshown
      · simp [trimmed, trim_trim]
      · simp only [String.toList_ofList]
        exact ⟨fun hc => hname (mem_of_mem_trim hc), fun hc => hfreeName (mem_of_mem_trim hc)⟩
      · simp [trimmed, trim_trim]
      · rw [String.toList_ofList]
        exact fun hc => hfreeValue (mem_of_mem_trim hc)

theorem sayable_of_mem_styleEntries {text : String} {entry : String × String}
    (h : entry ∈ styleEntries text) : Sayable entry := by
  obtain ⟨clause, hclause, hentry⟩ := List.mem_filterMap.mp h
  exact (says_iff.mpr hentry.symm).sayable (not_mem_of_mem_pieces hclause)

theorem Sayable.says_joined {name value : String} (h : Sayable (name, value)) :
    Says (name.toList ++ ':' :: value.toList) (some (name, value)) := by
  have hname : trim name.toList = name.toList := by
    rw [← toList_trimmed, h.name_trimmed]
  have hvalue : trim value.toList = value.toList := by
    rw [← toList_trimmed, h.value_trimmed]
  have hshown : trim name.toList ≠ [] := by
    rw [hname]
    simpa using h.name_ne
  have hsays := @Says.entry _ value.toList h.name_free.1 hshown
  rwa [hname, hvalue, String.ofList_toList, String.ofList_toList] at hsays

/-- A style that clauses can say is read back from its text. -/
theorem styleEntries_styleText {entries : List (String × String)}
    (h : ∀ entry ∈ entries, Sayable entry) : styleEntries (styleText entries) = entries := by
  symm
  apply listsStyle_iff.mp
  refine ⟨entries.map fun entry => entry.1.toList ++ ':' :: entry.2.toList, entries.map some,
    ?_, ?_, ?_, ?_⟩
  · rw [styleText, String.toList_intercalate, List.map_map]
    congr 1
    apply List.map_congr_left
    intro entry _
    simp
  · intro clause hclause
    obtain ⟨entry, hentry, rfl⟩ := List.mem_map.mp hclause
    have hsayable := h entry hentry
    simp [hsayable.name_free.2, hsayable.value_free]
  · rw [List.forall₂_map_left_iff, List.forall₂_map_right_iff, List.forall₂_same]
    exact fun entry hentry => (h entry hentry).says_joined
  · simp [List.reduceOption]

end Espalier
