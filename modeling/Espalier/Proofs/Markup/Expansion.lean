/-
What an expanded shorthand means.  The expansion puts texts in front of what the author
wrote, and what counts is how these are read afterwards: the tag is `input`, the classes
are the ones behind the name, and the attribute block begins with a type that any type
of the author's own overrides.
-/
import Espalier.Proofs.Attributes.Grammar
import Espalier.Proofs.Markup.Shorthand
import Espalier.Tree.TagSpec

namespace Espalier

open Espalier.Text

/-! ### Tags -/

namespace TagSpec

theorem ofText_of_free {name : String} (h : '.' ∉ name.toList) : ofText name = ⟨name, []⟩ := by
  rw [ofText, pieces_of_free h]
  simp

/-- The classes behind a name do not depend on the name. -/
theorem ofText_append {name classes : String} (h : '.' ∉ name.toList) :
    ofText (name ++ "." ++ classes) =
      ⟨name, ((pieces '.' classes.toList).filter (!·.isEmpty)).map String.ofList⟩ := by
  have htext : (name ++ "." ++ classes).toList = name.toList ++ '.' :: classes.toList := by
    simp
  rw [ofText, htext, pieces_append_cons h]
  simp

end TagSpec

namespace Markup

open Attributes

/-- The part of a tag before its first `.`, in lower case. -/
def kindOf (tag : String) : String :=
  (String.ofList (tag.toList.takeWhile (· != '.'))).toLower

theorem kindOf_eq (tag : String) : kindOf tag = (cutTag tag).1.toLower := by
  rw [kindOf, cutTag_fst]

/-- A tag as it is cut: a name, and perhaps classes behind a `.`. -/
theorem cutTag_cases (tag : String) :
    (∃ name classes, '.' ∉ name.toList ∧ tag = name ++ "." ++ classes ∧
      cutTag tag = (name, some classes)) ∨
    ('.' ∉ tag.toList ∧ cutTag tag = (tag, none)) := by
  cases hsplit : splitFirst '.' tag.toList with
  | none => exact Or.inr ⟨splitFirst_eq_none_iff.mp hsplit, by simp [cutTag, hsplit]⟩
  | some parts =>
      obtain ⟨name, classes⟩ := parts
      obtain ⟨htag, hfree⟩ := eq_of_splitFirst hsplit
      refine Or.inl ⟨String.ofList name, String.ofList classes, by simpa using hfree, ?_,
        by simp [cutTag, hsplit]⟩
      rw [← String.toList_inj, htag]
      simp

namespace Settings

variable {settings : Settings} {tag : String}

theorem isShorthand_eq_true_iff {kind : String} :
    settings.isShorthand kind = true ↔ kind ∈ settings.shorthands := by
  simp [isShorthand]

/-- Any other tag stays as it is. -/
theorem expand_of_not_mem (h : kindOf tag ∉ settings.shorthands) (params : String) :
    settings.expand tag params = (tag, params) := by
  rw [← isShorthand_eq_true_iff, kindOf_eq, Bool.not_eq_true] at h
  simp [expand, h]

/-- The tag of an expanded shorthand is `input`, with the classes that were written. -/
theorem ofText_expand (h : kindOf tag ∈ settings.shorthands) (params : String) :
    TagSpec.ofText (settings.expand tag params).1 =
      { tag := "input", classes := (TagSpec.ofText tag).classes } := by
  rw [← isShorthand_eq_true_iff, kindOf_eq] at h
  have hinput : '.' ∉ "input".toList := by decide
  rcases cutTag_cases tag with ⟨name, classes, hfree, rfl, hcut⟩ | ⟨hfree, hcut⟩
  · rw [hcut] at h
    have htag : (settings.expand (name ++ "." ++ classes) params).1 =
        "input" ++ "." ++ classes := by
      simp [expand, hcut, h]
    rw [htag, TagSpec.ofText_append hinput, TagSpec.ofText_append hfree]
  · rw [hcut] at h
    have htag : (settings.expand tag params).1 = "input" := by simp [expand, hcut, h]
    rw [htag, TagSpec.ofText_of_free hinput, TagSpec.ofText_of_free hfree]

/-- The attribute block of an expanded shorthand. -/
theorem snd_expand (h : kindOf tag ∈ settings.shorthands) (params : String) :
    (settings.expand tag params).2 =
      if params.isEmpty then "type:" ++ kindOf tag
      else "type:" ++ kindOf tag ++ "," ++ params := by
  have hkind := kindOf_eq tag
  rw [← isShorthand_eq_true_iff, hkind] at h
  simp [expand, h, hkind]

end Settings

/-! ### The type in front -/

/-- A shorthand that an attribute block can hold as it is: it ends at no comma, is not
quoted, and is not trimmed. -/
structure Verbatim (kind : String) : Prop where
  no_comma : ',' ∉ kind.toList
  no_mark : ∀ c ∈ kind.toList, isQuoteMark c = false
  head_not_blank : ∀ c ∈ kind.toList.head?, isBlank c = false
  last_not_blank : ∀ c ∈ kind.toList.getLast?, isBlank c = false

namespace Verbatim

variable {kind : String} (h : Verbatim kind)
include h

theorem readHalf_eq : readHalf kind = kind := by
  rw [readHalf, trim_eq_self h.head_not_blank h.last_not_blank]
  cases hkind : kind.toList with
  | nil => rw [← String.toList_inj, hkind]; rfl
  | cons c cs =>
      rw [unquote_of_head (h.no_mark c (by simp [hkind])), ← hkind, String.ofList_toList]

theorem bareAll_comma : Quote.outside.bareAll (· != ',') kind.toList := by
  apply Quote.bareAll_of_forall
  intro c hc
  have hne : c ≠ ',' := fun heq => h.no_comma (heq ▸ hc)
  simpa using hne

/-- The type in front of a block is a pair of its own, and the block is read on behind
it from its start, whatever it holds. -/
theorem rawPairs_type (params : String) :
    rawPairs ("type:" ++ kind ++ "," ++ params).toList =
      ("type", kind) :: rawPairs params.toList := by
  obtain ⟨pieces, hpieces⟩ := exists_reading params.toList
  have hkey : Attributes.Cut ':' ("type:" ++ kind ++ "," ++ params).toList "type".toList
      (some (kind.toList ++ ',' :: params.toList)) :=
    ⟨by simp, by decide, fun _ => rfl⟩
  have hvalue : Attributes.Cut ',' (kind.toList ++ ',' :: params.toList) kind.toList
      (some params.toList) :=
    ⟨rfl, h.bareAll_comma, fun _ => Quote.after_of_no_marks h.no_mark⟩
  rw [rawPairs_of_reading (.pair hkey hvalue hpieces), rawPairs_of_reading hpieces]
  simp [Piece.pair]

theorem rawPairs_type_alone : rawPairs ("type:" ++ kind).toList = [("type", kind)] := by
  have hkey : Attributes.Cut ':' ("type:" ++ kind).toList "type".toList (some kind.toList) :=
    ⟨by simp, by decide, fun _ => rfl⟩
  have hvalue : Attributes.Cut ',' kind.toList kind.toList none :=
    ⟨by simp, h.bareAll_comma, by simp⟩
  rw [rawPairs_of_reading (.value hkey hvalue)]
  simp [Piece.pair]

theorem readPair_type : readPair ("type", kind) = some ("type", kind) := by
  have htype : readHalf "type" = "type" := by decide
  have hne : "type".isEmpty = false := by decide
  simp [readPair, htype, hne, h.readHalf_eq]

end Verbatim

/-- The attributes of an expanded shorthand: the type is a default. -/
theorem Settings.ofBlock_expand {settings : Settings} {tag : String}
    (hlisted : kindOf tag ∈ settings.shorthands) (h : Verbatim (kindOf tag)) (params : String) :
    ofBlock (settings.expand tag params).2 =
      if "type" ∈ ofBlock params then ofBlock params
      else (ofBlock params).insert "type" (kindOf tag) := by
  have hentries : (rawPairs (settings.expand tag params).2.toList).filterMap readPair =
      ("type", kindOf tag) :: (rawPairs params.toList).filterMap readPair := by
    rw [snd_expand hlisted]
    split
    · next hempty =>
        have hnone : (rawPairs "".toList).filterMap readPair = [] := by decide
        rw [String.isEmpty_iff.mp hempty, h.rawPairs_type_alone, hnone]
        exact List.filterMap_cons_some h.readPair_type
    · rw [h.rawPairs_type]
      exact List.filterMap_cons_some h.readPair_type
  rw [ofBlock, hentries, ofEntries_cons]
  rfl

/-- A shorthand is an `input` element with a default type and nothing else: its tag is
`input`, its classes are those that were written, and its attributes are those that were
written, with the shorthand as the type when they have none.  A tag that is not listed
stays as it is, and so does its block.  The standard shorthands are all of this kind. -/
theorem expand_adds_type (settings : Settings) (tag params : String) :
    (kindOf tag ∈ settings.shorthands → Verbatim (kindOf tag) →
      TagSpec.ofText (settings.expand tag params).1 =
        { tag := "input", classes := (TagSpec.ofText tag).classes } ∧
      ofBlock (settings.expand tag params).2 =
        if "type" ∈ ofBlock params then ofBlock params
        else (ofBlock params).insert "type" (kindOf tag)) ∧
    (kindOf tag ∉ settings.shorthands → settings.expand tag params = (tag, params)) ∧
    ∀ kind ∈ Settings.standard.shorthands, Verbatim kind := by
  refine ⟨?_, ?_, ?_⟩
  · intro hlisted h
    exact ⟨Settings.ofText_expand hlisted params, Settings.ofBlock_expand hlisted h params⟩
  · intro hlisted
    exact Settings.expand_of_not_mem hlisted params
  · intro kind hkind
    simp only [Settings.standard, List.mem_cons, List.not_mem_nil, or_false] at hkind
    rcases hkind with rfl | rfl | rfl | rfl | rfl | rfl <;>
      constructor <;> simp [isQuoteMark, isBlank]

/-- A checkbox in mixed case with two classes: without a type, and with a quoted one
behind an open quote. -/
theorem expand_adds_type_checkbox :
    let tag := "CheckBox.a..b"
    let typed := "k:,\"type\" : 'email"
    kindOf tag = "checkbox" ∧ kindOf tag ∈ Settings.standard.shorthands ∧
      Verbatim (kindOf tag) ∧
      TagSpec.ofText (Settings.standard.expand tag "k:").1 = ⟨"input", ["a", "b"]⟩ ∧
      ofBlock (Settings.standard.expand tag "k:").2 = (ofBlock "k:").insert "type" "checkbox" ∧
      ofBlock (Settings.standard.expand tag typed).2 = ofBlock typed ∧
      kindOf "input.a" ∉ Settings.standard.shorthands ∧
      Settings.standard.expand "input.a" typed = ("input.a", typed) := by
  intro tag typed
  have hkind : kindOf tag = "checkbox" := by
    rw [kindOf, toLower_ofList]
    decide
  have hlisted : kindOf tag ∈ Settings.standard.shorthands := by
    rw [hkind]
    decide
  have hother : kindOf "input.a" ∉ Settings.standard.shorthands := by
    rw [kindOf, toLower_ofList]
    decide
  have hverbatim : Verbatim (kindOf tag) :=
    (expand_adds_type .standard tag "").2.2 _ hlisted
  obtain ⟨hspec, hblock⟩ := (expand_adds_type .standard tag "k:").1 hlisted hverbatim
  obtain ⟨-, htyped⟩ := (expand_adds_type .standard tag typed).1 hlisted hverbatim
  have hclasses : (TagSpec.ofText tag).classes = ["a", "b"] := by decide
  have hnone : "type" ∉ ofBlock "k:" := by
    have hread : (rawPairs "k:".toList).filterMap readPair = [("k", "")] := by decide
    rw [ofBlock, hread, Std.ExtTreeMap.mem_iff_isSome_getElem?, getElem?_ofEntries]
    decide
  have hsome : "type" ∈ ofBlock typed := by
    have hread : (rawPairs typed.toList).filterMap readPair = [("k", ""), ("type", "'email")] := by
      decide
    rw [ofBlock, hread, Std.ExtTreeMap.mem_iff_isSome_getElem?, getElem?_ofEntries]
    decide
  rw [hclasses] at hspec
  rw [if_neg hnone, hkind] at hblock
  rw [if_pos hsome] at htyped
  exact ⟨hkind, hlisted, hverbatim, hspec, hblock, htyped, hother,
    (expand_adds_type .standard "input.a" typed).2.1 hother⟩

end Markup

end Espalier
