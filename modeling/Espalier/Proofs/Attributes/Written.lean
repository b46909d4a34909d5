/-
The written form of an attribute list, `'k':'v','k':'v'`, and what is read from it as an
attribute block.
-/
import Mathlib.Data.List.Basic
import Espalier.Proofs.Attributes.Grammar

namespace Espalier.Attributes

open Espalier.Text

/-- The attributes `'k':'v','k':'v'`. -/
def write : List (String × String) → List Char
  | [] => []
  | [(name, value)] => quoted name.toList ++ ':' :: quoted value.toList
  | (name, value) :: rest =>
      quoted name.toList ++ ':' :: (quoted value.toList ++ ',' :: write rest)

/-- Names and values can stand between single quotes. -/
def Quotable (attributes : List (String × String)) : Prop :=
  ∀ entry ∈ attributes,
    entry.1 ≠ "" ∧ '\'' ∉ entry.1.toList ∧ '\'' ∉ entry.2.toList

theorem write_ne_nil {attributes : List (String × String)} (h : attributes ≠ []) :
    write attributes ≠ [] := by
  induction attributes using write.induct with
  | case1 => contradiction
  | case2 name value => simp [write]
  | case3 name value rest hrest ih => simp [write]

theorem bareAll_write (test : Char → Bool) (hcolon : test ':')
    (hcomma : test ',') {attributes : List (String × String)}
    (h : Quotable attributes) :
    Quote.outside.bareAll test (write attributes) ∧
      Quote.outside.after (write attributes) = .outside := by
  have hnextColon : Quote.outside.next ':' = .outside := rfl
  have hnextComma : Quote.outside.next ',' = .outside := rfl
  induction attributes using write.induct with
  | case1 => exact ⟨rfl, rfl⟩
  | case2 name value =>
      obtain ⟨-, hname, hvalue⟩ := h _ List.mem_cons_self
      simp [write, Quote.bareAll_append, Quote.bareAll,
        Quote.after_append, bareAll_quoted hname, after_quoted hname,
        bareAll_quoted hvalue, after_quoted hvalue, hnextColon, hcolon]
  | case3 name value rest hrest ih =>
      obtain ⟨-, hname, hvalue⟩ := h _ List.mem_cons_self
      have htail := ih fun entry hentry => h entry (List.mem_cons_of_mem _ hentry)
      simp [write, Quote.bareAll_append, Quote.bareAll,
        Quote.after_append, bareAll_quoted hname, after_quoted hname,
        bareAll_quoted hvalue, after_quoted hvalue, hnextColon, hnextComma, hcolon,
        hcomma, htail]

/-- A written attribute as a piece of a block. -/
def quotedPiece (entry : String × String) : Piece :=
  ⟨quoted entry.1.toList, some (quoted entry.2.toList)⟩

theorem joined_map_quotedPiece {attributes : List (String × String)} (hne : attributes ≠ []) :
    joined (attributes.map quotedPiece) = write attributes := by
  induction attributes using write.induct with
  | case1 => contradiction
  | case2 name value => simp [write, joined, quotedPiece, Piece.text]
  | case3 name value rest hrest ih =>
      have hne' : rest ≠ [] := by simpa using hrest
      rw [List.map_cons, joined_cons _ (by simpa using hne'), ih hne', write]
      · simp [quotedPiece, Piece.text]
      · simpa using hrest

theorem wraps_quotedPiece {attributes : List (String × String)} (h : Quotable attributes) :
    List.Forall₂ Piece.Wraps (attributes.map quotedPiece) attributes := by
  rw [List.forall₂_map_left_iff, List.forall₂_same]
  intro entry hentry
  obtain ⟨-, hname, hvalue⟩ := h entry hentry
  exact ⟨⟨'\'', rfl, hname, rfl⟩, _, rfl, '\'', rfl, hvalue, rfl⟩

/-- The written attributes are read back. -/
theorem ofBlock_write {attributes : List (String × String)}
    (h : Quotable attributes) (hne : attributes ≠ []) :
    ofBlock (String.ofList (write attributes)) =
      ofEntries attributes := by
  rw [← joined_map_quotedPiece hne]
  exact ofBlock_joined_of_wraps (wraps_quotedPiece h) fun entry hentry => (h entry hentry).1

theorem unquote_trim_quoted (text : List Char) : unquote (trim (quoted text)) = text :=
  unquote_trim_wrapped rfl text

end Espalier.Attributes
