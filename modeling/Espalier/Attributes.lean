/-
Attribute maps: at most one value per name, in ascending order of the names.
Names compare by their UTF-8 bytes, which is the order of their scalars.
-/
import Std.Data.ExtTreeMap

namespace Espalier

/-- A map from attribute names to values.  Two maps with the same entries are
equal, however they were built. -/
abbrev Attributes := Std.ExtTreeMap String String

namespace Attributes

/-- Overwrite a map with entries, one after the other: of two entries with one
name the later counts. -/
def assign (attributes : Attributes) (entries : List (String × String)) :
    Attributes :=
  entries.foldl (fun map entry => map.insert entry.1 entry.2) attributes

/-- The map that a list of entries describes. -/
def ofEntries (entries : List (String × String)) : Attributes :=
  assign (∅ : Attributes) entries

@[simp] theorem assign_nil (attributes : Attributes) :
    assign attributes [] = attributes := rfl

@[simp] theorem assign_cons (attributes : Attributes) (entry : String × String)
    (entries : List (String × String)) :
    assign attributes (entry :: entries) =
      assign (attributes.insert entry.1 entry.2) entries := rfl

theorem assign_append (attributes : Attributes)
    (front back : List (String × String)) :
    assign attributes (front ++ back) = assign (assign attributes front) back := by
  simp [assign]

end Attributes

end Espalier
